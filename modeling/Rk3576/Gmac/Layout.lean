import Mathlib.Logic.Function.Basic
import Mathlib.Tactic.Ring

/-! Descriptor words and the layout of the GMAC DMA pool. -/
namespace Rk3576.Gmac

abbrev Byte := BitVec 8

/-- The error codes the drivers return (the source returns their negatives). -/
inductive RtErr where
  | eok | error | etimeout | ebusy | enosys | eio | einval
  deriving DecidableEq, Repr

def gmacBit (n : Nat) : BitVec 32 := 1#32 <<< n

theorem and_clear {x k b m : BitVec 32} (h : k &&& m = 0) : (x &&& k ||| b) &&& m = b &&& m := by
  rw [BitVec.and_comm, BitVec.and_or_distrib_left, BitVec.and_comm m, BitVec.and_comm m,
    BitVec.and_assoc, h]
  simp

theorem and_keep {x k b m : BitVec 32} (h : k &&& m = m) (hb : b &&& m = 0) :
    (x &&& k ||| b) &&& m = x &&& m := by
  rw [BitVec.and_comm, BitVec.and_or_distrib_left, BitVec.and_comm m, BitVec.and_comm m,
    BitVec.and_assoc, h, hb]
  simp

theorem field_read {x m b : BitVec 32} (hb : b &&& m = b) : (x &&& ~~~m ||| b) &&& m = b := by
  rw [and_clear (by simp [BitVec.and_comm])]
  exact hb

theorem field_rest {x m b : BitVec 32} (hb : b &&& m = b) :
    (x &&& ~~~m ||| b) &&& ~~~m = x &&& ~~~m :=
  and_keep (by simp) (by rw [← hb, BitVec.and_assoc]; simp)

def desc3Own : BitVec 32 := gmacBit 31
def desc3RxIoc : BitVec 32 := gmacBit 30
def desc3Fd : BitVec 32 := gmacBit 29
def desc3Ld : BitVec 32 := gmacBit 28
def desc3RxBuf1Valid : BitVec 32 := gmacBit 24
def desc3RxError : BitVec 32 := gmacBit 15
def desc3PacketLenMask : BitVec 32 := 0x7fff#32

def gmacTxDescCount : Nat := 4
def gmacRxDescCount : Nat := 8
def gmacDmaBufferSize : Nat := 1600
def gmacDescSize : Nat := 16

def gmacTxDescOffset : Nat := 0
def gmacRxDescOffset : Nat := gmacTxDescOffset + gmacTxDescCount * gmacDescSize
def gmacRxBufferOffset : Nat := gmacRxDescOffset + gmacRxDescCount * gmacDescSize
def gmacTxBufferOffset : Nat := gmacRxBufferOffset + gmacRxDescCount * gmacDmaBufferSize
def gmacDmaUsedSize : Nat := gmacTxBufferOffset + gmacTxDescCount * gmacDmaBufferSize

def rk3576GmacDmaPoolSize : Nat := 0x20000
def gmacDmaAliasBase : Nat := 0x80000000
def gmacDmaAliasSize : Nat := 0x200000

structure GmacDesc where
  des0 : BitVec 32
  des1 : BitVec 32
  des2 : BitVec 32
  des3 : BitVec 32
  deriving DecidableEq, Repr

def GmacDesc.zero : GmacDesc := ⟨0, 0, 0, 0⟩

def GmacDesc.own (d : GmacDesc) : Bool := d.des3 &&& desc3Own != 0#32

def GmacDesc.released (d : GmacDesc) : GmacDesc := { d with des3 := d.des3 &&& ~~~desc3Own }

/-- The link address of `rk3576_gmac_dma_pool` is a parameter throughout; `gmac_dma_phys`
truncates to the 32 bits a descriptor word holds. -/
def gmacDmaPhys (pool offset : Nat) : BitVec 32 := BitVec.ofNat 32 (pool + offset)

def gmacDmaVirt (offset : Nat) : Nat := gmacDmaAliasBase + offset

def gmacDmaOffset (pool : Nat) (addr : BitVec 32) : Nat := (addr - BitVec.ofNat 32 pool).toNat

def txDescAddr (pool i : Nat) : BitVec 32 :=
  gmacDmaPhys pool (gmacTxDescOffset + i * gmacDescSize)
def rxDescAddr (pool i : Nat) : BitVec 32 :=
  gmacDmaPhys pool (gmacRxDescOffset + i * gmacDescSize)
def txSlot (i : Nat) : Nat := gmacTxBufferOffset + i * gmacDmaBufferSize
def rxSlot (i : Nat) : Nat := gmacRxBufferOffset + i * gmacDmaBufferSize

theorem desc3Own_eq : desc3Own = BitVec.twoPow 32 31 := by decide

theorem and_desc3Own (x : BitVec 32) : (x &&& desc3Own != 0#32) = x.getLsbD 31 := by
  rw [desc3Own_eq, BitVec.and_twoPow]
  cases x.getLsbD 31 <;> decide

theorem GmacDesc.own_eq (d : GmacDesc) : d.own = d.des3.getLsbD 31 := and_desc3Own d.des3

@[simp] theorem GmacDesc.own_released (d : GmacDesc) : d.released.own = false := by
  rw [GmacDesc.own_eq, GmacDesc.released, desc3Own_eq]
  simp

@[simp] theorem GmacDesc.own_zero : GmacDesc.zero.own = false := by decide

theorem gmacDmaOffset_phys (pool offset : Nat) (h : offset < 2 ^ 32) :
    gmacDmaOffset pool (gmacDmaPhys pool offset) = offset := by
  simp only [gmacDmaOffset, gmacDmaPhys, BitVec.toNat_sub, BitVec.toNat_ofNat]
  omega

def rtTickPerSecond : Nat := 100

def rtTickFromMillisecond (ms : Int) : BitVec 32 :=
  if ms < 0 then 0xffffffff#32
  else BitVec.ofInt 32
    (rtTickPerSecond * (ms / 1000) + (rtTickPerSecond * (ms % 1000) + 999) / 1000)

def tickReached (now timeout : BitVec 32) : Bool := decide (0 ≤ (now - timeout).toInt)

end Rk3576.Gmac
