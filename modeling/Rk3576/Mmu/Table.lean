import Mathlib.Algebra.Group.Nat.Defs
import Rk3576.Lib.Tables

/-! The translation table builder of mmu.c, on a flat memory of 64-bit words that are named by
their byte address, and the hardware walk that reads what it builds. -/
namespace Rk3576.Mmu

def archSectionShift : Nat := 21
def archSectionSize : BitVec 64 := 1 <<< archSectionShift
def archSectionMask : BitVec 64 := archSectionSize - 1
def archPageSize : Nat := 4096
def mmuLevelMask : BitVec 64 := 0x1ff
def mmuLevelShift : Nat := 9
def mmuAddressBits : Nat := 39
def mmuAddressMask : BitVec 64 := 0x0000fffffffff000
def mmuAttribMask : BitVec 64 := 0xfff0000000000ffc
def mmuTypeMask : BitVec 64 := 3
def mmuTypeUsed : BitVec 64 := 1
def mmuTypeBlock : BitVec 64 := 1
def mmuTypeTable : BitVec 64 := 3
def mmuTblBlock2MLevel : Nat := 2
def mmuTblPageNrMax : Nat := 32

def mmuMapErrorVanotalign : Int := -1
def mmuMapErrorPanotalign : Int := -2
def mmuMapErrorNopage : Int := -3
def mmuMapErrorConflict : Int := -4

def normalMem : BitVec 64 := 0
def normalNocacheMem : BitVec 64 := 1
def deviceMem : BitVec 64 := 2
def mmuApKaun : BitVec 64 := 0

def mmuMapCustom (ap mtype : BitVec 64) : BitVec 64 :=
  1 <<< 10 ||| 2 <<< 8 ||| ap <<< 6 ||| mtype <<< 2

structure MemDesc where
  vaddrStart : BitVec 64
  vaddrEnd : BitVec 64
  paddrStart : BitVec 64
  attr : BitVec 64

/-- Where the linker puts `MMUTable` and `MMUPage`: two objects of alignment 4096 in the part of
memory a table descriptor can name. -/
structure MmuLayout where
  mmuTable : Nat
  mmuPage : Nat
  table_aligned : mmuTable % archPageSize = 0
  page_aligned : mmuPage % archPageSize = 0
  page_nonnull : mmuPage ≠ 0
  apart : mmuTable + archPageSize ≤ mmuPage ∨ mmuPage + mmuTblPageNrMax * archPageSize ≤ mmuTable
  table_bound : mmuTable + archPageSize ≤ 2 ^ 48
  page_bound : mmuPage + mmuTblPageNrMax * archPageSize ≤ 2 ^ 48

/-- Memory, and the static `i` of `_kernel_free_page`. -/
structure MmuState where
  mem : Nat → BitVec 64
  i : Nat

def MmuState.load (s : MmuState) (tbl : BitVec 64) (off : Nat) : BitVec 64 :=
  s.mem (tbl.toNat + 8 * off)

def MmuState.store (s : MmuState) (tbl : BitVec 64) (off : Nat) (v : BitVec 64) : MmuState :=
  { s with mem := Function.update s.mem (tbl.toNat + 8 * off) v }

def MmuState.clear (s : MmuState) (p n : Nat) : MmuState :=
  { s with mem := fun a => if p ≤ a ∧ a < p + n then 0 else s.mem a }

def kernelFreePage (L : MmuLayout) (s : MmuState) : BitVec 64 × MmuState :=
  if s.i ≥ mmuTblPageNrMax then (0, s)
  else (BitVec.ofNat 64 (L.mmuPage + archPageSize * s.i), { s with i := s.i + 1 })

def levelOff (va : BitVec 64) (levelShift : Nat) : Nat :=
  ((va >>> levelShift) &&& mmuLevelMask).toNat

/-- The end of the loop body: go to the table that entry `off` of `cur` points to. -/
def enterTable (cur : BitVec 64) (off : Nat) (s : MmuState) : Except Int (BitVec 64) × MmuState :=
  let page := s.load cur off
  if page &&& mmuTypeMask = mmuTypeBlock then (.error mmuMapErrorConflict, s)
  else (.ok (page &&& mmuAddressMask), s)

/-- The body of the loop over the levels: the table below entry `off` of `cur`, made if there
is none. -/
def nextTable (L : MmuLayout) (va cur : BitVec 64) (levelShift : Nat) (s : MmuState) :
    Except Int (BitVec 64) × MmuState :=
  let off := levelOff va levelShift
  if s.load cur off &&& mmuTypeUsed = 0 then
    let (page, s) := kernelFreePage L s
    if page = 0 then (.error mmuMapErrorNopage, s)
    else enterTable cur off
      ((s.clear page.toNat archPageSize).store cur off (page ||| mmuTypeTable))
  else enterTable cur off s

def descend (L : MmuLayout) (va : BitVec 64) : Nat → BitVec 64 → Nat → MmuState →
      Except Int (BitVec 64) × MmuState
  | 0, cur, _, s => (.ok cur, s)
  | levels + 1, cur, levelShift, s =>
    match nextTable L va cur levelShift s with
    | (.error e, s) => (.error e, s)
    | (.ok tbl, s) => descend L va levels tbl (levelShift - mmuLevelShift) s

def kenrelMap2M (L : MmuLayout) (tbl va pa attr : BitVec 64) (s : MmuState) : Int × MmuState :=
  if va &&& archSectionMask ≠ 0 then (mmuMapErrorVanotalign, s)
  else if pa &&& archSectionMask ≠ 0 then (mmuMapErrorPanotalign, s)
  else
    match descend L va mmuTblBlock2MLevel tbl mmuAddressBits s with
    | (.error e, s) => (e, s)
    | (.ok cur, s) =>
      (0, s.store cur (levelOff va archSectionShift)
        (pa ||| (attr &&& mmuAttribMask ||| mmuTypeBlock)))

def setmttLoop (L : MmuLayout) (mapAttr : BitVec 64) :
    Nat → Int → BitVec 64 → BitVec 64 → MmuState →
      Int × MmuState
  | 0, ret, _, _, s => (ret, s)
  | count + 1, _, vaddr, paddr, s =>
    let (ret, s) := kenrelMap2M L (BitVec.ofNat 64 L.mmuTable) vaddr paddr mapAttr s
    if ret ≠ 0 then (ret, s)
    else setmttLoop L mapAttr count ret (vaddr + archSectionSize) (paddr + archSectionSize) s

def rtHwMmuSetmtt (L : MmuLayout) (d : MemDesc) (s : MmuState) : Int × MmuState :=
  if d.vaddrStart > d.vaddrEnd then (-1, s)
  else
    let vaddrStart :=
      if d.vaddrStart % archSectionSize ≠ 0 then d.vaddrStart / archSectionSize * archSectionSize
      else d.vaddrStart
    let paddrStart :=
      if d.paddrStart % archSectionSize ≠ 0 then d.paddrStart / archSectionSize * archSectionSize
      else d.paddrStart
    let vaddrEnd :=
      if d.vaddrEnd % archSectionSize ≠ 0 then (d.vaddrEnd / archSectionSize + 1) * archSectionSize
      else d.vaddrEnd
    let count := (vaddrEnd - vaddrStart) >>> archSectionShift
    setmttLoop L (mmuMapCustom mmuApKaun d.attr) count.toNat (-1) vaddrStart paddrStart s

/-- Errors of the single descriptors are ignored. -/
def rtHwInitMmuTable (L : MmuLayout) (mdesc : List MemDesc) (s : MmuState) : MmuState :=
  let s := (s.clear L.mmuTable archPageSize).clear L.mmuPage (mmuTblPageNrMax * archPageSize)
  mdesc.foldl (fun s d => (rtHwMmuSetmtt L d s).2) s

structure Translation where
  pa : BitVec 64
  attr : BitVec 64
  deriving DecidableEq, Repr

def offsetMask (shift : Nat) : BitVec 64 := (1 <<< shift) - 1

/-- What an entry that maps `2 ^ shift` bytes makes of `va`. -/
def output (e va : BitVec 64) (shift : Nat) : Translation where
  pa := (e &&& mmuAddressMask &&& ~~~offsetMask shift) ||| (va &&& offsetMask shift)
  attr := e &&& mmuAttribMask

/-- One level for each shift; blocks are allowed at 1 GiB and 2 MiB, and an entry of the last
level is a page. -/
def walkFrom (s : MmuState) (va : BitVec 64) : List Nat → BitVec 64 → Option Translation
  | [], _ => none
  | shift :: shifts, tbl =>
    let e := s.load tbl (levelOff va shift)
    if e &&& mmuTypeUsed = 0 then none
    else if e &&& mmuTypeMask = mmuTypeTable then
      if shifts = [] then some (output e va shift) else walkFrom s va shifts (e &&& mmuAddressMask)
    else if shift = 30 ∨ shift = archSectionShift then some (output e va shift)
    else none

/-- TTBR0_EL1 holds the address of `MMUTable`. -/
def walk (L : MmuLayout) (s : MmuState) (va : BitVec 64) : Option Translation :=
  walkFrom s va [mmuAddressBits, 30, archSectionShift, 12] (BitVec.ofNat 64 L.mmuTable)

end Rk3576.Mmu
