import Rk3576.Lib.Words
import Rk3576.Gmac.Layout

/-! The small-memory heap of `mem.c`, down to the bytes of its item headers. A pointer into the
heap is its offset from `heap_ptr`, which is aligned. -/
namespace Rk3576.Heap
open Rk3576.Bytes Rk3576.Words
open Rk3576.Gmac (Byte)

def usub (a b : Nat) : Nat := if b ≤ a then a - b else a + 2 ^ 64 - b

/-- `RT_ALIGN(n, RT_ALIGN_SIZE)`: the sum is taken on 64 bits. -/
def rtAlign (n : Nat) : Nat := (n + 3) % 2 ^ 64 / 4 * 4

def rtAlignDown (n : Nat) : Nat := n / 4 * 4

def sizeofStructMem : Nat := 40

def sizeofSmallMem : Nat := 104

def minSize : Nat := 24

def minSizeAligned : Nat := 24

def memMask : Nat := 0xfffffffe

abbrev HeapMem := Nat → Byte

def poolPtr (h : HeapMem) (p : Nat) : Nat := word h p

def next (h : HeapMem) (p : Nat) : Nat := word h (p + 16)

def prev (h : HeapMem) (p : Nat) : Nat := word h (p + 24)

def setPoolPtr (h : HeapMem) (p v : Nat) : HeapMem := setWord h p v

def setNext (h : HeapMem) (p v : Nat) : HeapMem := setWord h (p + 16) v

def setPrev (h : HeapMem) (p v : Nat) : HeapMem := setWord h (p + 24) v

def memUsed (pool : Nat) : Nat := (pool &&& memMask) ||| 1

def memFreed (pool : Nat) : Nat := (pool &&& memMask) ||| 0

def memIsUsed (h : HeapMem) (p : Nat) : Bool := poolPtr h p &&& 1 != 0

def memPool (h : HeapMem) (p : Nat) : Nat := poolPtr h p &&& memMask

/-- The `thread` field: the name up to its end, filled up with blanks. -/
def threadName (name : List Byte) : List Byte :=
  let name := (name.takeWhile (· ≠ 0)).take 8
  name ++ List.replicate (8 - name.length) 0x20

def rtSmemSetname (h : HeapMem) (p : Nat) (name : List Byte) : HeapMem :=
  blit h (p + 32) (threadName name)

def blankName : List Byte := List.replicate 4 0x20

def initName : List Byte := [0x49, 0x4e, 0x49, 0x54]

/-- `struct rt_small_mem`, at the address `pool`; `heapEnd` and `lfree` are offsets. -/
structure SmallMem where
  pool : Nat
  total : Nat
  used : Nat
  max : Nat
  heapPtr : Nat
  heapEnd : Nat
  lfree : Nat
  memSizeAligned : Nat
  mem : HeapMem

def initItem (h : HeapMem) (p poolPtr next prev : Nat) : HeapMem :=
  let h := setPoolPtr h p poolPtr
  let h := setNext h p next
  let h := setPrev h p prev
  rtSmemSetname h p initName

/-- `rt_smem_init`. The bytes of the area start out as `mem` says. -/
def rtSmemInit (beginAddr size : Nat) (mem : HeapMem) : Option SmallMem :=
  let pool := rtAlign beginAddr
  let startAddr := pool + sizeofSmallMem
  let beginAlign := rtAlign startAddr
  let endAlign := rtAlignDown ((beginAddr + size) % 2 ^ 64)
  if endAlign > 2 * sizeofStructMem ∧ endAlign - 2 * sizeofStructMem ≥ startAddr then
    let memSize := endAlign - beginAlign - 2 * sizeofStructMem
    let mem := initItem mem 0 (memFreed pool) (memSize + sizeofStructMem) 0
    let heapEnd := next mem 0
    let mem :=
      initItem mem heapEnd (memUsed pool) (memSize + sizeofStructMem) (memSize + sizeofStructMem)
    some { pool, total := memSize, used := 0, max := 0, heapPtr := beginAlign, heapEnd, lfree := 0,
           memSizeAligned := memSize, mem }
  else none

/-- The remainder `ptr2` of the item at `ptr` becomes a free item of its own. -/
def splitItem (pool memSizeAligned : Nat) (h : HeapMem) (ptr ptr2 : Nat) : HeapMem :=
  let h := setPoolPtr h ptr2 (memFreed pool)
  let h := setNext h ptr2 (next h ptr)
  let h := setPrev h ptr2 ptr
  let h := rtSmemSetname h ptr2 blankName
  let h := setNext h ptr ptr2
  if next h ptr2 ≠ memSizeAligned + sizeofStructMem then setPrev h (next h ptr2) ptr2 else h

/-- The item at `b` becomes a part of the item at `a` before it. -/
def combineItem (h : HeapMem) (a b : Nat) : HeapMem :=
  let h := setPoolPtr h b 0
  let h := setNext h a (next h b)
  setPrev h (next h b) a

def plugForward (s : SmallMem) (p : Nat) : SmallMem :=
  let n := next s.mem p
  if p ≠ n ∧ memIsUsed s.mem n = false ∧ n ≠ s.heapEnd then
    { s with lfree := if s.lfree = n then p else s.lfree, mem := combineItem s.mem p n }
  else s

def plugBackward (s : SmallMem) (p : Nat) : SmallMem :=
  let q := prev s.mem p
  if q ≠ p ∧ memIsUsed s.mem q = false then
    { s with lfree := if s.lfree = p then q else s.lfree, mem := combineItem s.mem q p }
  else s

/-- `plug_holes`; `none` is a failed assertion. -/
def plugHoles (s : SmallMem) (p : Nat) : Option SmallMem :=
  if s.heapEnd ≤ p then none else some (plugBackward (plugForward s p) p)

def findFit (h : HeapMem) (size limit : Nat) : (fuel ptr : Nat) → Option (Option Nat)
  | 0, _ => none
  | fuel + 1, ptr =>
    if ptr ≤ limit then
      if memIsUsed h ptr = false ∧ size ≤ usub (next h ptr) (ptr + sizeofStructMem) then
        some (some ptr)
      else findFit h size limit fuel (next h ptr)
    else some none

def findFree (h : HeapMem) (heapEnd : Nat) : (fuel lfree : Nat) → Option Nat
  | 0, _ => none
  | fuel + 1, lfree =>
    if memIsUsed h lfree ∧ lfree ≠ heapEnd then findFree h heapEnd fuel (next h lfree)
    else some lfree

/-- The item at `ptr` is taken: cut to size if the rest can hold an item, and counted. -/
def takeItem (s : SmallMem) (ptr size : Nat) : SmallMem :=
  if size + sizeofStructMem + minSizeAligned ≤ usub (next s.mem ptr) (ptr + sizeofStructMem) then
    let used := s.used + (size + sizeofStructMem)
    { s with
      mem := splitItem s.pool s.memSizeAligned s.mem ptr (ptr + sizeofStructMem + size), used,
             max := if s.max < used then used else s.max }
  else
    let used := s.used + usub (next s.mem ptr) ptr
    { s with used, max := if s.max < used then used else s.max }

def nextFree (s : SmallMem) (ptr : Nat) : Option Nat :=
  if ptr = s.lfree then findFree s.mem s.heapEnd (s.heapEnd + 1) s.lfree else some s.lfree

/-- The rest of `rt_smem_alloc` for the item it found, run by the thread called `self`. -/
def allocItem (self : List Byte) (s : SmallMem) (ptr size : Nat) : Option (SmallMem × Nat) :=
  let s := takeItem s ptr size
  let s := { s with mem := rtSmemSetname (setPoolPtr s.mem ptr (memUsed s.pool)) ptr self }
  match nextFree s ptr with
  | none => none
  | some lfree =>
    if ptr + sizeofStructMem + size ≤ s.heapEnd ∧ (s.heapPtr + ptr) % 4 = 0 then
      some ({ s with lfree }, ptr + sizeofStructMem)
    else none

/-- The size of a block's data for a request: aligned, and no less than MIN_SIZE_ALIGNED. -/
def allocSize (size : Nat) : Nat :=
  if rtAlign size < minSizeAligned then minSizeAligned else rtAlign size

/-- `rt_smem_alloc`; `none` is a failed assertion or a loop that does not end. -/
def rtSmemAlloc (self : List Byte) (s : SmallMem) (size : Nat) : Option (SmallMem × Option Nat) :=
  if size = 0 then some (s, none)
  else
    let size := allocSize size
    if size > s.memSizeAligned then some (s, none)
    else
      match findFit s.mem size (s.memSizeAligned - size) (s.heapEnd + 1) s.lfree with
      | none => none
      | some none => some (s, none)
      | some (some ptr) => (allocItem self s ptr size).map fun r => (r.1, some r.2)

/-- `rt_smem_free`. The heap is the only object of its class, so `MEM_POOL` of an item has to be
its address. -/
def rtSmemFree (s : SmallMem) : Option Nat → Option SmallMem
  | none => some s
  | some rmem =>
    let p := rmem - sizeofStructMem
    if (s.heapPtr + rmem) % 4 = 0 ∧ sizeofStructMem ≤ rmem ∧ memPool s.mem p = s.pool ∧ s.pool ≠ 0 ∧
        memIsUsed s.mem p ∧ rmem < s.heapEnd ∧ memPool s.mem (next s.mem p) = s.pool then
      let mem := rtSmemSetname (setPoolPtr s.mem p (memFreed s.pool)) p blankName
      plugHoles { s with mem, lfree := if p < s.lfree then p else s.lfree,
                         used := usub s.used (usub (next mem p) p) } p
    else none

/-- The end of `rt_smem_realloc` for a block that is to shrink: the item at `ptr` is cut. -/
def shrinkItem (s : SmallMem) (ptr size newsize : Nat) : Option SmallMem :=
  let ptr2 := ptr + sizeofStructMem + newsize
  let mem := splitItem s.pool s.memSizeAligned s.mem ptr ptr2
  plugHoles { s with
    mem, used := usub s.used (size - newsize), lfree := if ptr2 < s.lfree then ptr2 else s.lfree }
    ptr2

def rtSmemRealloc (self : List Byte) (s : SmallMem) (rmem : Option Nat) (newsize : Nat) :
    Option (SmallMem × Option Nat) :=
  let newsize := rtAlign newsize
  if newsize > s.memSizeAligned then some (s, none)
  else if newsize = 0 then (rtSmemFree s rmem).map fun s => (s, none)
  else
    match rmem with
    | none => rtSmemAlloc self s newsize
    | some rmem =>
      if (s.heapPtr + rmem) % 4 = 0 ∧ sizeofStructMem ≤ rmem ∧ rmem < s.heapEnd then
        let ptr := rmem - sizeofStructMem
        let size := usub (usub (next s.mem ptr) ptr) sizeofStructMem
        if size = newsize then some (s, some rmem)
        else if newsize + sizeofStructMem + minSize < size then
          (shrinkItem s ptr size newsize).map fun s => (s, some rmem)
        else
          -- expand memory: a new block, the old bytes, and the old block back
          match rtSmemAlloc self s newsize with
          | none => none
          | some (s, none) => some (s, none)
          | some (s, some nmem) =>
            let bytes := slice s.mem rmem (if size < newsize then size else newsize)
            (rtSmemFree { s with mem := blit s.mem nmem bytes } (some rmem)).map fun s =>
              (s, some nmem)
      else none

/-- The walk of the `memtrace` command over one heap: offset, `MEM_SIZE` and state of each item. -/
def memtraceWalk (s : SmallMem) : (fuel p : Nat) → Option (List (Nat × Nat × Bool))
  | 0, _ => none
  | fuel + 1, p =>
    if p = s.heapEnd then some []
    else (memtraceWalk s fuel (next s.mem p)).map fun items =>
      (p, usub (usub (next s.mem p) p) sizeofStructMem, memIsUsed s.mem p) :: items

def memtrace (s : SmallMem) : Option (List (Nat × Nat × Bool)) := memtraceWalk s (s.heapEnd + 1) 0

/-- The walk of the `memcheck` command over one heap: does it get to the end without a report?
Positions are compared as `int`. -/
def memcheckWalk (s : SmallMem) : (fuel p : Nat) → Option Bool
  | 0, _ => none
  | fuel + 1, p =>
    if p = s.heapEnd then some true
    else if (BitVec.ofNat 32 p).slt 0 ∨ (BitVec.ofNat 32 s.memSizeAligned).slt (BitVec.ofNat 32 p) ∨
        memPool s.mem p ≠ s.pool then some false
    else memcheckWalk s fuel (next s.mem p)

def memcheck (s : SmallMem) : Option Bool := memcheckWalk s (s.heapEnd + 1) 0

end Rk3576.Heap
