import Mathlib.Tactic.IntervalCases
import Rk3576.Gmac.Layout

/-! The GMAC register file, `struct rk3576_gmac`, and the DMA bring-up of
gmac_dma.c. `rk3576_gmac_dma_start` is kept as the list of its statements, so that
another thread can be placed between any two of them. -/
namespace Rk3576.Gmac

def gmacConfig : Nat := 0x0000
def gmacPacketFilter : Nat := 0x0008
def gmacQ0TxFlowCtrl : Nat := 0x0070
def gmacRxFlowCtrl : Nat := 0x0090
def gmacRxqCtrl0 : Nat := 0x00a0
def gmacHwFeature1 : Nat := 0x0120
def gmacAddr0High : Nat := 0x0300
def gmacAddr0Low : Nat := 0x0304
def mtlTxq0OperationMode : Nat := 0x0d00
def mtlTxq0QuantumWeight : Nat := 0x0d18
def mtlRxq0OperationMode : Nat := 0x0d30
def dmaSysbusMode : Nat := 0x1004
def dmaCh0Control : Nat := 0x1100
def dmaCh0TxControl : Nat := 0x1104
def dmaCh0RxControl : Nat := 0x1108
def dmaCh0TxdescHi : Nat := 0x1110
def dmaCh0TxdescLo : Nat := 0x1114
def dmaCh0RxdescHi : Nat := 0x1118
def dmaCh0RxdescLo : Nat := 0x111c
def dmaCh0TxdescTail : Nat := 0x1120
def dmaCh0RxdescTail : Nat := 0x1128
def dmaCh0TxRingLen : Nat := 0x112c
def dmaCh0RxRingLen : Nat := 0x1130
def dmaCh0IntEnable : Nat := 0x1134
def dmaCh0Status : Nat := 0x1160

def gmacConfigCst : BitVec 32 := gmacBit 21
def gmacConfigAcs : BitVec 32 := gmacBit 20
def gmacConfigPs : BitVec 32 := gmacBit 15
def gmacConfigFes : BitVec 32 := gmacBit 14
def gmacConfigDm : BitVec 32 := gmacBit 13
def gmacConfigTe : BitVec 32 := gmacBit 1
def gmacConfigRe : BitVec 32 := gmacBit 0
def gmacPacketFilterPm : BitVec 32 := gmacBit 4
def mtlTxqTqsMask : BitVec 32 := 0x1ff#32 <<< 16
def mtlTxqTxqenMask : BitVec 32 := 3#32 <<< 2
def mtlTxqTxqenEnabled : BitVec 32 := 2#32 <<< 2
def mtlTxqTsf : BitVec 32 := gmacBit 1
def mtlRxqRqsMask : BitVec 32 := 0x3ff#32 <<< 20
def mtlRxqRsf : BitVec 32 := gmacBit 5
def dmaTxStart : BitVec 32 := gmacBit 0
def dmaRxStart : BitVec 32 := gmacBit 0
def gmacDmaStatusFatalBusError : BitVec 32 := gmacBit 12
def gmacDmaStatusRxBufferUnavail : BitVec 32 := gmacBit 7
def gmacDmaStatusRxInterrupt : BitVec 32 := gmacBit 6

/-- `NIE | AIE | FBE | RBU | RIE`: the mask `rk3576_gmac_dma_start` enables. -/
def dmaIntEnabled : BitVec 32 :=
  gmacBit 15 ||| gmacBit 14 ||| gmacDmaStatusFatalBusError ||| gmacDmaStatusRxBufferUnavail |||
    gmacDmaStatusRxInterrupt

/-- `struct rk3576_gmac` together with the MMIO block behind `base` and the two descriptor
rings in the pool. A pointer field is `none` while it is RT_NULL. -/
structure GmacDev where
  mac : Nat → Byte
  txDesc : Option Nat
  rxDesc : Option Nat
  txBuffer : Option Nat
  rxBuffer : Option Nat
  txIndex : Nat
  rxIndex : Nat
  initialized : Bool
  linkUp : Bool
  fullDuplex : Bool
  speed : BitVec 32
  fatalBusErrors : BitVec 32
  reg : Nat → BitVec 32
  txRing : Nat → GmacDesc
  rxRing : Nat → GmacDesc

def gmac0 : GmacDev where
  mac i := [0x02, 0x35, 0x76, 0x00, 0x00, 0x01].getD i 0
  txDesc := none
  rxDesc := none
  txBuffer := none
  rxBuffer := none
  txIndex := 0
  rxIndex := 0
  initialized := false
  linkUp := false
  fullDuplex := false
  speed := 0
  fatalBusErrors := 0
  reg := fun _ => 0
  txRing := fun _ => GmacDesc.zero
  rxRing := fun _ => GmacDesc.zero

def gmacRead (g : GmacDev) (off : Nat) : BitVec 32 := g.reg off

/-- DMA_CH0_STATUS is write-1-to-clear; every other register keeps what is written. -/
def gmacWrite (g : GmacDev) (off : Nat) (v : BitVec 32) : GmacDev :=
  { g with reg := Function.update g.reg off (if off = dmaCh0Status then g.reg off &&& ~~~v else v) }

def gmacFifoQueueSize (encoded mask : BitVec 32) : BitVec 32 :=
  if encoded = 0 then 0
  else
    let e := if encoded.toNat > 15 then 15#32 else encoded
    let value := (1#32 <<< (e.toNat - 1)) - 1
    if value.toNat > mask.toNat then mask else value

def gmacSetMacAddress (g : GmacDev) : GmacDev :=
  let b (i : Nat) : BitVec 32 := (g.mac i).setWidth 32
  let high := gmacBit 31 ||| b 5 <<< 8 ||| b 4
  let low := b 3 <<< 24 ||| b 2 <<< 16 ||| b 1 <<< 8 ||| b 0
  gmacWrite (gmacWrite g gmacAddr0High high) gmacAddr0Low low

inductive DescRing where
  | tx | rx
  deriving DecidableEq, Repr

inductive DescField where
  | des0 | des1 | des2 | des3
  deriving DecidableEq, Repr

def GmacDesc.set (d : GmacDesc) (f : DescField) (v : BitVec 32) : GmacDesc :=
  match f with
  | .des0 => { d with des0 := v }
  | .des1 => { d with des1 := v }
  | .des2 => { d with des2 := v }
  | .des3 => { d with des3 := v }

theorem GmacDesc.own_set (d : GmacDesc) (f : DescField) (v : BitVec 32) (hf : f ≠ .des3) :
    (d.set f v).own = d.own := by
  cases f with
  | des3 => exact absurd rfl hf
  | _ => rfl

theorem own_update (f : Nat → GmacDesc) (i : Nat) (d : GmacDesc) :
    (fun j => (Function.update f i d j).own) = Function.update (fun j => (f j).own) i d.own := by
  funext j
  by_cases h : j = i
  · subst h
    simp
  · simp [Function.update_of_ne h]

structure DescStore where
  ring : DescRing
  index : Nat
  field : DescField
  value : BitVec 32
  deriving DecidableEq, Repr

def GmacDev.desc (g : GmacDev) : DescRing → Nat → GmacDesc
  | .tx => g.txRing
  | .rx => g.rxRing

def GmacDev.store (g : GmacDev) (w : DescStore) : GmacDev :=
  match w.ring with
  | .tx => { g with
      txRing := Function.update g.txRing w.index ((g.txRing w.index).set w.field w.value) }
  | .rx => { g with
      rxRing := Function.update g.rxRing w.index ((g.rxRing w.index).set w.field w.value) }

def DescRing.count : DescRing → Nat
  | .tx => gmacTxDescCount
  | .rx => gmacRxDescCount

def memsetDescs (r : DescRing) : List DescStore :=
  (List.range r.count).flatMap fun i =>
    [⟨r, i, .des0, 0⟩, ⟨r, i, .des1, 0⟩, ⟨r, i, .des2, 0⟩, ⟨r, i, .des3, 0⟩]

def rxArmed : BitVec 32 := desc3Own ||| desc3RxIoc ||| desc3RxBuf1Valid

def gmacInitDmaStores (pool : Nat) : List DescStore :=
  memsetDescs .tx ++ memsetDescs .rx ++
    (List.range gmacRxDescCount).flatMap fun i =>
      [⟨.rx, i, .des0, gmacDmaPhys pool (rxSlot i)⟩, ⟨.rx, i, .des1, 0⟩, ⟨.rx, i, .des2, 0⟩,
        ⟨.rx, i, .des3, rxArmed⟩]

def gmacInitDmaMemory (pool : Nat) (g : GmacDev) : GmacDev :=
  (gmacInitDmaStores pool).foldl GmacDev.store
    { g with
      txDesc := some (gmacDmaVirt gmacTxDescOffset)
      rxDesc := some (gmacDmaVirt gmacRxDescOffset)
      rxBuffer := some (gmacDmaVirt gmacRxBufferOffset)
      txBuffer := some (gmacDmaVirt gmacTxBufferOffset)
      txIndex := 0
      rxIndex := 0 }

structure StartFrame where
  dev : GmacDev
  feature : BitVec 32 := 0
  value : BitVec 32 := 0
  txQueueSize : BitVec 32 := 0
  rxQueueSize : BitVec 32 := 0

def StartFrame.load (s : StartFrame) (off : Nat) : StartFrame :=
  { s with value := gmacRead s.dev off }
def StartFrame.put (s : StartFrame) (off : Nat) (v : BitVec 32) : StartFrame :=
  { s with dev := gmacWrite s.dev off v }

/-- The statements of `rk3576_gmac_dma_start`; barriers have no effect on this state. -/
def rk3576GmacDmaStartOps (pool : Nat) : List (StartFrame → StartFrame) :=
  [ fun s => { s with feature := gmacRead s.dev gmacHwFeature1 },
    fun s => { s with txQueueSize := gmacFifoQueueSize ((s.feature >>> 6) &&& 0x1f) 0x1ff },
    fun s => { s with rxQueueSize := gmacFifoQueueSize (s.feature &&& 0x1f) 0x3ff },
    (·.load mtlTxq0OperationMode),
    fun s => { s with value := s.value &&& ~~~(mtlTxqTqsMask ||| mtlTxqTxqenMask) },
    fun s => { s with
      value := s.value ||| (s.txQueueSize <<< 16 ||| mtlTxqTxqenEnabled ||| mtlTxqTsf) },
    fun s => s.put mtlTxq0OperationMode s.value,
    (·.put mtlTxq0QuantumWeight 0x10),
    (·.load mtlRxq0OperationMode),
    fun s => { s with value := s.value &&& ~~~mtlRxqRqsMask },
    fun s => { s with value := s.value ||| (s.rxQueueSize <<< 20 ||| mtlRxqRsf) },
    fun s => s.put mtlRxq0OperationMode s.value,
    (·.load gmacRxqCtrl0),
    fun s => { s with value := (s.value &&& ~~~3#32) ||| 2 },
    fun s => s.put gmacRxqCtrl0 s.value,
    (·.put gmacPacketFilter gmacPacketFilterPm),
    (·.put gmacQ0TxFlowCtrl (0xffff#32 <<< 16 ||| gmacBit 1)),
    (·.put gmacRxFlowCtrl (gmacBit 0)),
    fun s => { s with dev := gmacSetMacAddress s.dev },
    fun s => { s with dev := gmacInitDmaMemory pool s.dev },
    (·.put dmaCh0TxdescHi 0),
    (·.put dmaCh0TxdescLo (gmacDmaPhys pool gmacTxDescOffset)),
    (·.put dmaCh0RxdescHi 0),
    (·.put dmaCh0RxdescLo (gmacDmaPhys pool gmacRxDescOffset)),
    (·.put dmaCh0TxRingLen (BitVec.ofNat 32 (gmacTxDescCount - 1))),
    (·.put dmaCh0RxRingLen (BitVec.ofNat 32 (gmacRxDescCount - 1))),
    (·.put dmaSysbusMode
      (4#32 <<< 24 ||| 8#32 <<< 16 ||| gmacBit 14 ||| gmacBit 11 ||| gmacBit 3 |||
      gmacBit 2 ||| gmacBit 1)),
    (·.put dmaCh0Control (gmacBit 16)),
    (·.put dmaCh0TxControl (8#32 <<< 16 ||| gmacBit 4)),
    (·.put dmaCh0RxControl (8#32 <<< 16 ||| BitVec.ofNat 32 gmacDmaBufferSize <<< 1)),
    (·.put dmaCh0Status 0xffffffff),
    (·.put dmaCh0IntEnable dmaIntEnabled),
    fun s => s.put dmaCh0TxControl (gmacRead s.dev dmaCh0TxControl ||| dmaTxStart),
    fun s => s.put dmaCh0RxControl (gmacRead s.dev dmaCh0RxControl ||| dmaRxStart),
    (·.load gmacConfig),
    fun s => { s with value := s.value &&& ~~~(gmacConfigPs ||| gmacConfigFes) },
    fun s => { s with value := s.value |||
      (gmacConfigCst ||| gmacConfigAcs ||| gmacConfigDm ||| gmacConfigTe ||| gmacConfigRe) },
    fun s => s.put gmacConfig s.value,
    (·.put dmaCh0RxdescTail
      (gmacDmaPhys pool (gmacRxDescOffset + gmacRxDescCount * gmacDescSize))) ]

/-- The call of `gmac_init_dma_memory` and the store to GMAC_CONFIG. -/
def ringsStatement : Nat := 19
def configStatement : Nat := 37

def rk3576GmacDmaStart (pool : Nat) (g : GmacDev) : GmacDev :=
  ((rk3576GmacDmaStartOps pool).foldl (fun s f => f s) ({ dev := g } : StartFrame)).dev

def rk3576GmacDmaInterruptDisable (g : GmacDev) : GmacDev := gmacWrite g dmaCh0IntEnable 0

def rk3576GmacDmaStop (g : GmacDev) : GmacDev :=
  let g := gmacWrite g dmaCh0TxControl (gmacRead g dmaCh0TxControl &&& ~~~dmaTxStart)
  gmacWrite g dmaCh0RxControl (gmacRead g dmaCh0RxControl &&& ~~~dmaRxStart)

theorem gmacInitDmaMemory_txRing (pool : Nat) (g : GmacDev) (i : Nat) (h : i < gmacTxDescCount) :
    (gmacInitDmaMemory pool g).txRing i = GmacDesc.zero := by
  simp only [gmacTxDescCount] at h
  interval_cases i <;> rfl

theorem gmacInitDmaMemory_rxRing (pool : Nat) (g : GmacDev) (i : Nat) (h : i < gmacRxDescCount) :
    (gmacInitDmaMemory pool g).rxRing i = ⟨gmacDmaPhys pool (rxSlot i), 0, 0, rxArmed⟩ := by
  simp only [gmacRxDescCount] at h
  interval_cases i <;> rfl

theorem foldl_store (g : GmacDev) (ws : List DescStore) :
    ∃ tx rx, ws.foldl GmacDev.store g = { g with txRing := tx, rxRing := rx } := by
  induction ws generalizing g with
  | nil => exact ⟨g.txRing, g.rxRing, rfl⟩
  | cons w ws ih =>
    obtain ⟨tx, rx, h⟩ := ih (g.store w)
    refine ⟨tx, rx, ?_⟩
    rw [List.foldl_cons, h]
    cases hr : w.ring <;> simp [GmacDev.store, hr]

/-- A statement that leaves the link fields alone and takes no pointer away. -/
structure StartFrame.Keeps (f g : StartFrame) : Prop where
  linkUp : g.dev.linkUp = f.dev.linkUp
  initialized : g.dev.initialized = f.dev.initialized
  pointers : f.dev.txDesc.isSome = true ∧ f.dev.txBuffer.isSome = true →
    g.dev.txDesc.isSome = true ∧ g.dev.txBuffer.isSome = true

theorem keeps_init (pool : Nat) (f : StartFrame) :
    f.Keeps { f with dev := gmacInitDmaMemory pool f.dev } ∧
      (gmacInitDmaMemory pool f.dev).txDesc.isSome = true ∧
      (gmacInitDmaMemory pool f.dev).txBuffer.isSome = true := by
  simp only [gmacInitDmaMemory]
  obtain ⟨tx, rx, h⟩ := foldl_store
    { f.dev with
      txDesc := some (gmacDmaVirt gmacTxDescOffset)
      rxDesc := some (gmacDmaVirt gmacRxDescOffset)
      rxBuffer := some (gmacDmaVirt gmacRxBufferOffset)
      txBuffer := some (gmacDmaVirt gmacTxBufferOffset)
      txIndex := 0
      rxIndex := 0 } (gmacInitDmaStores pool)
  rw [h]
  exact ⟨⟨rfl, rfl, fun _ => ⟨rfl, rfl⟩⟩, rfl, rfl⟩

theorem startOps_keep (pool : Nat) :
    ∀ op ∈ rk3576GmacDmaStartOps pool, ∀ f : StartFrame, f.Keeps (op f) := by
  simp only [rk3576GmacDmaStartOps, List.forall_mem_cons, List.not_mem_nil, false_implies,
    implies_true, and_true]
  refine ⟨?_, ?_, ?_, ?_, ?_, ?_, ?_, ?_, ?_, ?_, ?_, ?_, ?_, ?_, ?_, ?_, ?_, ?_, ?_,
    fun f => (keeps_init pool f).1,
    ?_, ?_, ?_, ?_, ?_, ?_, ?_, ?_, ?_, ?_, ?_, ?_, ?_, ?_, ?_, ?_, ?_, ?_, ?_⟩ <;>
    exact fun _ => ⟨rfl, rfl, id⟩

theorem startOps_init (pool : Nat) : (rk3576GmacDmaStartOps pool)[ringsStatement]? =
      some fun s => { s with dev := gmacInitDmaMemory pool s.dev } := rfl

theorem startOps_config (pool : Nat) :
    (rk3576GmacDmaStartOps pool)[configStatement]? = some fun s => s.put gmacConfig s.value := rfl

theorem startOps_length (pool : Nat) : (rk3576GmacDmaStartOps pool).length = 39 := rfl

theorem startOps_before_rings (pool : Nat) :
    ∀ op ∈ (rk3576GmacDmaStartOps pool).take ringsStatement, ∀ f : StartFrame,
      (op f).dev.txDesc = f.dev.txDesc := by
  simp only [rk3576GmacDmaStartOps, ringsStatement, List.take_succ_cons, List.take_zero,
    List.forall_mem_cons, List.not_mem_nil, false_implies, implies_true, and_true]
  refine ⟨?_, ?_, ?_, ?_, ?_, ?_, ?_, ?_, ?_, ?_, ?_, ?_, ?_, ?_, ?_, ?_, ?_, ?_, ?_⟩ <;>
    first
      | exact trivial
      | exact fun _ => rfl

theorem rk3576GmacDmaStart_initialized (pool : Nat) (g : GmacDev) :
    (rk3576GmacDmaStart pool g).initialized = g.initialized := by
  suffices h :
    ∀ ops : List (StartFrame → StartFrame), (∀ op ∈ ops, ∀ f : StartFrame, f.Keeps (op f)) →
      ∀ f : StartFrame, (ops.foldl (fun s f => f s) f).dev.initialized = f.dev.initialized from
    h (rk3576GmacDmaStartOps pool) (startOps_keep pool) { dev := g }
  intro ops
  induction ops with
  | nil => intros; rfl
  | cons op ops ih =>
    intro h f
    rw [List.foldl_cons, ih fun o ho => h o (List.mem_cons_of_mem _ ho)]
    exact (h op List.mem_cons_self f).initialized

end Rk3576.Gmac
