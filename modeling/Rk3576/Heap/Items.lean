import Rk3576.Lib.Blocks
import Rk3576.Heap.SmallMem

/-! The items of a heap as a chain of blocks, and what the three edits of item headers make of
such a chain. -/
namespace Rk3576.Heap
open Rk3576.Bytes Rk3576.Words Rk3576.Blocks

def flagOf (pool : Nat) (used : Bool) : Nat := if used then memUsed pool else memFreed pool

theorem memUsed_flag (pool : Nat) : memUsed pool = flagOf pool true := rfl

theorem memFreed_flag (pool : Nat) : memFreed pool = flagOf pool false := rfl

structure Item (pool : Nat) (h : HeapMem) (q p : Nat) (b : Block) : Prop where
  poolPtr : poolPtr h p = flagOf pool b.used
  next : next h p = p + b.size
  prev : prev h p = q

/-- From `p` on the heap holds the items of `bs`, the first with `q` as its `prev`. -/
def Chain (pool : Nat) (h : HeapMem) : (q p : Nat) → List Block → Prop
  | _, _, [] => True
  | q, p, b :: bs => Item pool h q p b ∧ Chain pool h p (p + b.size) bs

def Sized (bs : List Block) : Prop := ∀ b ∈ bs, 40 ≤ b.size ∧ b.size % 4 = 0

def lastStart (q p : Nat) : List Block → Nat
  | [] => q
  | b :: bs => lastStart p (p + b.size) bs

theorem usub_eq {a b : Nat} (h : b ≤ a) : usub a b = a - b := if_pos h

theorem and_memMask (x : Nat) : x &&& memMask = x % 2 ^ 32 / 2 * 2 := by
  apply Nat.eq_of_testBit_eq
  intro i
  have hm : memMask = 2 ^ 1 * (2 ^ 31 - 1) := rfl
  have hr : x % 2 ^ 32 / 2 * 2 = 2 ^ 1 * (x / 2 ^ 1 % 2 ^ 31) := by omega
  rw [Nat.testBit_and, hm, hr]
  simp only [Nat.testBit_two_pow_mul, Nat.testBit_two_pow_sub_one, Nat.testBit_mod_two_pow,
    Nat.testBit_div_two_pow]
  by_cases hi : 1 ≤ i
  · have he : i - 1 + 1 = i := by omega
    simp [hi, he, Bool.and_comm]
  · simp [hi]

section Pool
variable {pool : Nat} (heven : pool % 2 = 0) (hlow : pool < 2 ^ 32)
include heven hlow

theorem memFreed_eq : memFreed pool = pool := by
  rw [memFreed, and_memMask, Nat.or_zero]
  omega

theorem memUsed_eq : memUsed pool = pool + 1 := by
  have hf : (pool &&& memMask) = 2 ^ 1 * (pool / 2) := by
    rw [and_memMask]
    omega
  rw [memUsed, hf, ← Nat.two_pow_add_eq_or_of_lt (by decide)]
  omega

theorem flagOf_lt (u : Bool) : flagOf pool u < 2 ^ 64 := by
  cases u with
  | false =>
    rw [flagOf, if_neg Bool.false_ne_true, memFreed_eq heven hlow]
    omega
  | true =>
    rw [flagOf, if_pos rfl, memUsed_eq heven hlow]
    omega

variable {h : HeapMem} {p : Nat} {u : Bool} (hp : poolPtr h p = flagOf pool u)
include hp

theorem memIsUsed_eq : memIsUsed h p = u := by
  rw [memIsUsed, hp, Nat.and_one_is_mod]
  cases u with
  | false =>
    rw [flagOf, if_neg Bool.false_ne_true, memFreed_eq heven hlow, heven]
    rfl
  | true =>
    rw [flagOf, if_pos rfl, memUsed_eq heven hlow, Nat.succ_mod_two_eq_one_iff.mpr heven]
    rfl

theorem memPool_eq : memPool h p = pool := by
  rw [memPool, hp, and_memMask]
  cases u with
  | false =>
    rw [flagOf, if_neg Bool.false_ne_true, memFreed_eq heven hlow]
    omega
  | true =>
    rw [flagOf, if_pos rfl, memUsed_eq heven hlow]
    omega

end Pool

theorem chain_append {pool : Nat} {h : HeapMem} {q p : Nat} {xs ys : List Block} :
    Chain pool h q p (xs ++ ys) ↔ Chain pool h q p xs ∧
    Chain pool h (lastStart q p xs) (p + total xs) ys := by
  induction xs generalizing q p with
  | nil => simp [Chain, lastStart]
  | cons b xs ih =>
    simp only [List.cons_append, Chain, ih, lastStart, total_cons, and_assoc, Nat.add_assoc]

theorem sized_append {xs ys : List Block} : Sized (xs ++ ys) ↔ Sized xs ∧ Sized ys :=
  List.forall_mem_append

theorem sized_cons {b : Block} {bs : List Block} :
    Sized (b :: bs) ↔ (40 ≤ b.size ∧ b.size % 4 = 0) ∧ Sized bs :=
  List.forall_mem_cons

theorem Sized.total_mod {bs : List Block} (h : Sized bs) : total bs % 4 = 0 := by
  induction bs with
  | nil => rfl
  | cons b bs ih =>
    rw [sized_cons] at h
    have := ih h.2
    rw [total_cons]
    omega

theorem Sized.total_zero_or {bs : List Block} (h : Sized bs) : total bs = 0 ∨ 40 ≤ total bs := by
  cases bs with
  | nil => exact Or.inl rfl
  | cons b bs =>
    have := (sized_cons.mp h).1
    rw [total_cons]
    omega

theorem Sized.length_le {bs : List Block} (h : Sized bs) : bs.length ≤ total bs := by
  induction bs with
  | nil => exact Nat.le_refl 0
  | cons b bs ih =>
    rw [sized_cons] at h
    have := ih h.2
    rw [total_cons, List.length_cons]
    omega

theorem Sized.lead_lt {bs : List Block} (h : Sized bs) (hfree : ¬ ∀ b ∈ bs, b.used = true) :
    lead bs < total bs := by
  induction bs with
  | nil => exact absurd (fun b hb => nomatch hb) hfree
  | cons b bs ih =>
    rw [sized_cons] at h
    rw [total_cons]
    cases hb : b.used with
    | false =>
      have hlead : lead (b :: bs) = 0 := by simp [lead, hb]
      omega
    | true =>
      have hlead : lead (b :: bs) = b.size + lead bs := by simp [lead, hb]
      have := ih h.2 fun hall => hfree (List.forall_mem_cons.mpr ⟨hb, hall⟩)
      omega

theorem Sized.glue {xs ys : List Block} (hx : Sized xs) (hy : Sized ys) : Sized (glue xs ys) := by
  obtain ⟨xs', ys', k, n, rfl, rfl, h⟩ | ⟨h, _⟩ := glue_cases xs ys
  · rw [h]
    rw [sized_append, sized_cons] at hx
    rw [sized_cons] at hy
    refine sized_append.mpr ⟨hx.1, sized_cons.mpr ⟨?_, hy.2⟩⟩
    dsimp only at hx hy ⊢
    omega
  · rw [h]
    exact sized_append.mpr ⟨hx, hy⟩

theorem Item.congr {pool : Nat} {h h' : HeapMem} {q p : Nat} {b : Block} (hi : Item pool h q p b)
    (he : ∀ x, p ≤ x → x < p + 40 → h' x = h x) : Item pool h' q p b where
  poolPtr := (word_congr fun x h₁ h₂ => he x (by omega) (by omega)).trans hi.poolPtr
  next := (word_congr fun x h₁ h₂ => he x (by omega) (by omega)).trans hi.next
  prev := (word_congr fun x h₁ h₂ => he x (by omega) (by omega)).trans hi.prev

theorem Chain.congr {pool : Nat} {h h' : HeapMem} {q p : Nat} {bs : List Block}
    (hc : Chain pool h q p bs)
    (hs : Sized bs) (he : ∀ x, p ≤ x → x < p + total bs → h' x = h x) : Chain pool h' q p bs := by
  induction bs generalizing q p with
  | nil => trivial
  | cons b bs ih =>
    obtain ⟨⟨hb, _⟩, hs'⟩ := sized_cons.mp hs
    rw [total_cons] at he
    refine ⟨hc.1.congr fun x h₁ h₂ => he x h₁ (by omega),
      ih hc.2 hs' fun x h₁ h₂ => he x (by omega) (by omega)⟩

theorem Chain.setHead {pool : Nat} {h h' : HeapMem} {q q' p : Nat} {bs : List Block}
    (hc : Chain pool h q p bs)
    (hs : Sized bs) (he : ∀ x, p ≤ x → x < p + total bs → (x < p + 24 ∨ p + 32 ≤ x) → h' x = h x)
    (hq : bs ≠ [] → prev h' p = q') : Chain pool h' q' p bs := by
  match bs with
  | [] => trivial
  | b :: bs =>
    obtain ⟨⟨hb, _⟩, hs'⟩ := sized_cons.mp hs
    rw [total_cons] at he
    have hrest : Chain pool h' p (p + b.size) bs :=
      hc.2.congr hs' fun x h₁ h₂ => he x (by omega) (by omega) (by omega)
    refine ⟨⟨?_, ?_, hq (List.cons_ne_nil _ _)⟩, hrest⟩
    · exact (word_congr fun x h₁ h₂ => he x (by omega) (by omega) (by omega)).trans hc.1.poolPtr
    · exact (word_congr fun x h₁ h₂ => he x (by omega) (by omega) (by omega)).trans hc.1.next

@[simp] theorem threadName_length (name : List Gmac.Byte) : (threadName name).length = 8 := by
  simp only [threadName, List.length_append, List.length_replicate]
  have hlen : ((name.takeWhile (· ≠ 0)).take 8).length ≤ 8 := List.length_take_le 8 _
  omega

theorem rtSmemSetname_apply {h : HeapMem} {p x : Nat} {name : List Gmac.Byte}
    (hx : x < p + 32 ∨ p + 40 ≤ x) :
    rtSmemSetname h p name x = h x :=
  blit_of_not_mem (by simpa [Nat.add_assoc] using hx)

theorem word_rtSmemSetname {h : HeapMem} {p a : Nat} {name : List Gmac.Byte}
    (ha : a + 8 ≤ p + 32 ∨ p + 40 ≤ a) :
    word (rtSmemSetname h p name) a = word h a :=
  word_congr fun x h₁ h₂ => rtSmemSetname_apply (by omega)

section SplitItem
variable {pool memSize : Nat} {h : HeapMem} {p p2 nx : Nat} (hlow : pool < 2 ^ 32)
  (heven : pool % 2 = 0)
  (hnx : next h p = nx) (h₁ : p + 40 ≤ p2) (h₂ : p2 + 40 ≤ nx) (hbig : nx < 2 ^ 64)
include hlow heven hnx h₁ hbig

theorem splitItem_eq : splitItem pool memSize h p p2 =
      let g := setNext
        (rtSmemSetname (setPrev (setNext (setPoolPtr h p2 pool) p2 nx) p2 p) p2 blankName) p p2
    if nx ≠ memSize + 40 then setPrev g nx p2 else g := by
  have hf : memFreed pool = pool := memFreed_eq heven hlow
  have hread : next (setPoolPtr h p2 pool) p = nx := by
    rw [← hnx]
    exact word_setWord_of_disjoint (by omega)
  have hback : next (setNext
    (rtSmemSetname (setPrev (setNext (setPoolPtr h p2 pool) p2 nx) p2 p) p2 blankName) p p2) p2
      = nx := by
    rw [next, setNext, word_setWord_of_disjoint (by omega), word_rtSmemSetname (by omega), setPrev,
      word_setWord_of_disjoint (by omega), setNext, word_setWord hbig]
  simp only [splitItem, hf, hread, hback, sizeofStructMem]

/-- Below the `prev` of the item that follows, the last write does not show. -/
theorem splitItem_word {a : Nat} (ha : a + 8 ≤ nx) : word (splitItem pool memSize h p p2) a =
    word (setNext (rtSmemSetname (setPrev (setNext (setPoolPtr h p2 pool) p2 nx) p2 p) p2 blankName)
      p p2) a := by
  rw [splitItem_eq hlow heven hnx h₁ hbig]
  dsimp only
  split
  · exact word_setWord_of_disjoint (by omega)
  · rfl

include h₂

theorem splitItem_apply {x : Nat} (hx₁ : x < p + 16 ∨ p + 24 ≤ x) (hx₂ : x < p2 ∨ p2 + 40 ≤ x)
    (hx₃ : nx ≠ memSize + 40 → x < nx + 24 ∨ nx + 32 ≤ x) :
    splitItem pool memSize h p p2 x = h x := by
  have hg : setNext (rtSmemSetname
      (setPrev (setNext (setPoolPtr h p2 pool) p2 nx) p2 p) p2 blankName) p p2 x = h x := by
    rw [setNext, setWord_apply (by omega), rtSmemSetname_apply (by omega), setPrev,
      setWord_apply (by omega), setNext,
      setWord_apply (by omega), setPoolPtr, setWord_apply (by omega)]
  rw [splitItem_eq hlow heven hnx h₁ hbig]
  dsimp only
  split
  · next hne =>
    have := hx₃ hne
    rw [setPrev, setWord_apply (by omega), hg]
  · exact hg

theorem splitItem_next : next (splitItem pool memSize h p p2) p = p2 := by
  rw [next, splitItem_word hlow heven hnx h₁ hbig (by omega), setNext, word_setWord (by omega)]

theorem splitItem_rest : Item pool (splitItem pool memSize h p p2) p p2 ⟨nx - p2, false⟩ := by
  have hw : ∀ a, a + 8 ≤ nx → word (splitItem pool memSize h p p2) a = _ :=
    fun a ha => splitItem_word hlow heven hnx h₁ hbig ha
  refine ⟨?_, ?_, ?_⟩
  · rw [poolPtr, hw _ (by omega), setNext, word_setWord_of_disjoint (by omega),
      word_rtSmemSetname (by omega), setPrev,
      word_setWord_of_disjoint (by omega), setNext, word_setWord_of_disjoint (by omega), setPoolPtr,
      word_setWord (by omega), flagOf, if_neg Bool.false_ne_true, memFreed_eq heven hlow]
  · rw [next, hw _ (by omega), setNext, word_setWord_of_disjoint (by omega),
      word_rtSmemSetname (by omega), setPrev,
      word_setWord_of_disjoint (by omega), setNext, word_setWord hbig]
    dsimp only
    omega
  · rw [prev, hw _ (by omega), setNext, word_setWord_of_disjoint (by omega),
      word_rtSmemSetname (by omega), setPrev, word_setWord (by omega)]

theorem splitItem_prev (hne : nx ≠ memSize + 40) :
    prev (splitItem pool memSize h p p2) nx = p2 := by
  rw [splitItem_eq hlow heven hnx h₁ hbig]
  dsimp only
  rw [if_pos hne]
  exact word_setWord (by omega)

end SplitItem

section CombineItem
variable {h : HeapMem} {a b nx : Nat} (hnx : next h b = nx) (h₁ : a + 40 ≤ b) (h₂ : b + 40 ≤ nx)
  (hbig : nx < 2 ^ 64)
include hnx h₁

theorem combineItem_eq : combineItem h a b = setPrev (setNext (setPoolPtr h b 0) a nx) nx a := by
  have hread : next (setPoolPtr h b 0) b = nx := by
    rw [← hnx]
    exact word_setWord_of_disjoint (by omega)
  have hagain : next (setNext (setPoolPtr h b 0) a nx) b = nx := by
    rw [next, setNext, word_setWord_of_disjoint (by omega)]
    exact hread
  simp only [combineItem, hread, hagain]

theorem combineItem_apply {x : Nat} (hx₁ : x < a + 16 ∨ a + 24 ≤ x) (hx₂ : x < b ∨ b + 8 ≤ x)
    (hx₃ : x < nx + 24 ∨ nx + 32 ≤ x) : combineItem h a b x = h x := by
  rw [combineItem_eq hnx h₁, setPrev, setWord_apply (by omega), setNext,
    setWord_apply (by omega), setPoolPtr, setWord_apply (by omega)]

include h₂ hbig

theorem combineItem_next : next (combineItem h a b) a = nx := by
  rw [combineItem_eq hnx h₁, setPrev, next, word_setWord_of_disjoint (by omega),
    setNext, word_setWord hbig]

theorem combineItem_prev : prev (combineItem h a b) nx = a := by
  rw [combineItem_eq hnx h₁]
  exact word_setWord (by omega)

end CombineItem

/-- The heap up to `heapEnd` is the items of `bs`, with the used end item after them. -/
structure Items (pool heapEnd : Nat) (h : HeapMem) (bs : List Block) : Prop where
  chain : Chain pool h 0 0 bs
  total : total bs = heapEnd
  endItem : poolPtr h heapEnd = flagOf pool true
  sized : Sized bs

/-- A byte of data of a used block; the blocks start at `p`. -/
def UserByte (p : Nat) (bs : List Block) (x : Nat) : Prop :=
  ∃ a k, (a, k) ∈ usedFrom p bs ∧ a + 40 ≤ x ∧ x < a + k

theorem userByte_append {p x : Nat} {xs ys : List Block} :
    UserByte p (xs ++ ys) x ↔ UserByte p xs x ∨ UserByte (p + total xs) ys x := by
  simp only [UserByte, usedFrom_append, List.mem_append, or_and_right, exists_or]

theorem userByte_cons {p x : Nat} {b : Block} {bs : List Block} :
    UserByte p (b :: bs) x ↔ (b.used = true ∧ p + 40 ≤ x ∧ x < p + b.size) ∨
    UserByte (p + b.size) bs x := by
  have h : UserByte p ([b] ++ bs) x ↔ _ := userByte_append
  rw [List.singleton_append, total_cons, total_nil, Nat.add_zero] at h
  rw [h]
  refine or_congr_left ?_
  cases hb : b.used <;> simp [UserByte, usedFrom, hb]

theorem UserByte.bounds {p x : Nat} {bs : List Block} (h : UserByte p bs x) :
    p + 40 ≤ x ∧ x < p + total bs := by
  obtain ⟨a, k, hm, h₁, h₂⟩ := h
  obtain ⟨h₃, h₄⟩ := usedFrom_bounds hm
  omega

/-- Pools as `rt_smem_init` makes them, below the mask of `pool_ptr`. -/
structure PoolOk (pool heapEnd : Nat) : Prop where
  even : pool % 2 = 0
  low : pool < 2 ^ 32
  bound : heapEnd + 40 < 2 ^ 64

section Edits
variable {pool heapEnd : Nat} {h : HeapMem} {pre post : List Block}

theorem Items.mid {b : Block} (hi : Items pool heapEnd h (pre ++ b :: post)) :
    Item pool h (lastStart 0 0 pre) (Blocks.total pre) b ∧
      Chain pool h (Blocks.total pre) (Blocks.total pre + b.size) post ∧
      Blocks.total pre + b.size + Blocks.total post = heapEnd := by
  have hc := hi.chain
  have ht := hi.total
  rw [chain_append, Nat.zero_add] at hc
  rw [total_append, total_cons] at ht
  exact ⟨hc.2.1, hc.2.2, by omega⟩

variable (hp : PoolOk pool heapEnd)
include hp

theorem Items.flag {n v : Nat} {u u' : Bool} (hi : Items pool heapEnd h (pre ++ ⟨n, u⟩ :: post))
    (hv : v = flagOf pool u') (name : List Gmac.Byte) :
    Items pool heapEnd (rtSmemSetname (setPoolPtr h (Blocks.total pre) v) (Blocks.total pre) name)
      (pre ++ ⟨n, u'⟩ :: post) := by
  subst hv
  obtain ⟨hpre, hb, hpost⟩ := sized_append.mp hi.sized |>.imp_right sized_cons.mp
  obtain ⟨hitem, hrest, htot⟩ := hi.mid
  dsimp only at hb htot hrest
  have hout : ∀ x, x < Blocks.total pre ∨ Blocks.total pre + 40 ≤ x →
      rtSmemSetname (setPoolPtr h (Blocks.total pre) (flagOf pool u'))
          (Blocks.total pre) name x = h x := by
    intro x hx
    rw [rtSmemSetname_apply (by omega), setPoolPtr, setWord_apply (by omega)]
  refine ⟨chain_append.mpr ⟨?_, ?_, ?_⟩, by rw [← hi.total]; simp, ?_,
    sized_append.mpr ⟨hpre, sized_cons.mpr ⟨hb, hpost⟩⟩⟩
  · exact (chain_append.mp hi.chain).1.congr hpre fun x _ hx => hout x (by omega)
  · rw [Nat.zero_add]
    refine ⟨?_, ?_, ?_⟩
    · rw [poolPtr, word_rtSmemSetname (by omega), setPoolPtr,
        word_setWord (flagOf_lt hp.even hp.low u')]
    · rw [next, word_rtSmemSetname (by omega), setPoolPtr, word_setWord_of_disjoint (by omega)]
      exact hitem.next
    · rw [prev, word_rtSmemSetname (by omega), setPoolPtr, word_setWord_of_disjoint (by omega)]
      exact hitem.prev
  · rw [Nat.zero_add]
    exact hrest.congr hpost fun x hx _ => hout x (by omega)
  · rw [← hi.endItem]
    exact word_congr fun x hx _ => hout x (by omega)

theorem Items.split {n k memSize : Nat} {u : Bool}
    (hi : Items pool heapEnd h (pre ++ ⟨n, u⟩ :: post))
    (hsize : heapEnd = memSize + 40) (hk : 40 ≤ k) (hk4 : k % 4 = 0) (hn : k + 40 ≤ n) :
    Items pool heapEnd (splitItem pool memSize h (Blocks.total pre) (Blocks.total pre + k))
      (pre ++ ⟨k, u⟩ :: ⟨n - k, false⟩ :: post) := by
  obtain ⟨hpre, hb, hpost⟩ := sized_append.mp hi.sized |>.imp_right sized_cons.mp
  obtain ⟨hitem, hrest, htot⟩ := hi.mid
  have hbound := hp.bound
  have hnext : next h (Blocks.total pre) = Blocks.total pre + n := hitem.next
  dsimp only at hb htot hrest
  generalize hg : splitItem pool memSize h (Blocks.total pre) (Blocks.total pre + k) = g
  have happ : ∀ x, _ → _ → _ → g x = h x := fun x =>
    hg ▸ splitItem_apply hp.low hp.even hnext (by omega) (by omega) (by omega)
  have hnew : Item pool g (Blocks.total pre) (Blocks.total pre + k)
      ⟨Blocks.total pre + n - (Blocks.total pre + k), false⟩ :=
    hg ▸ splitItem_rest hp.low hp.even hnext (by omega) (by omega) (by omega)
  have hcut : next g (Blocks.total pre) = Blocks.total pre + k :=
    hg ▸ splitItem_next hp.low hp.even hnext (by omega) (by omega) (by omega)
  have hback : Blocks.total pre + n ≠ memSize + 40 →
      prev g (Blocks.total pre + n) = Blocks.total pre + k :=
    hg ▸ splitItem_prev hp.low hp.even hnext (by omega) (by omega) (by omega)
  have hrem : Blocks.total pre + n - (Blocks.total pre + k) = n - k := by omega
  have hend : Blocks.total pre + k + (n - k) = Blocks.total pre + n := by omega
  rw [hrem] at hnew
  refine ⟨chain_append.mpr ⟨?_, ?_, ?_, ?_⟩, ?_, ?_, ?_⟩
  · exact (chain_append.mp hi.chain).1.congr hpre fun x _ hx =>
      happ x (by omega) (by omega) (by omega)
  · rw [Nat.zero_add]
    refine ⟨?_, hcut, ?_⟩
    · exact (word_congr fun x h₁ h₂ => happ x (by omega) (by omega) (by omega)).trans hitem.poolPtr
    · exact (word_congr fun x h₁ h₂ => happ x (by omega) (by omega) (by omega)).trans hitem.prev
  · rw [Nat.zero_add]
    exact hnew
  · dsimp only
    rw [Nat.zero_add, hend]
    refine hrest.setHead hpost (fun x h₁ _ h₂ => happ x (by omega) (by omega) (by omega)) fun hne =>
      hback ?_
    -- a block follows, so this is not the end item
    obtain ⟨c, cs, rfl⟩ := List.exists_cons_of_ne_nil hne
    have := (sized_cons.mp hpost).1
    rw [total_cons] at htot
    omega
  · simp only [total_append, total_cons]
    omega
  · have := hpost.total_zero_or
    rw [← hi.endItem]
    exact word_congr fun x h₁ h₂ => happ x (by omega) (by omega) (by omega)
  · refine sized_append.mpr ⟨hpre, sized_cons.mpr ⟨⟨hk, hk4⟩, sized_cons.mpr ⟨?_, hpost⟩⟩⟩
    dsimp only
    omega

theorem Items.combine {m n : Nat} {u v : Bool}
    (hi : Items pool heapEnd h (pre ++ ⟨m, u⟩ :: ⟨n, v⟩ :: post)) :
    Items pool heapEnd (combineItem h (Blocks.total pre) (Blocks.total pre + m))
      (pre ++ ⟨m + n, u⟩ :: post) := by
  obtain ⟨hpre, hm, hn, hpost⟩ := sized_append.mp hi.sized |>.imp_right fun hs =>
    (sized_cons.mp hs).imp_right sized_cons.mp
  obtain ⟨hitem, ⟨hsecond, hrest⟩, htot⟩ := hi.mid
  have hbound := hp.bound
  have hnext : next h (Blocks.total pre + m) = Blocks.total pre + m + n := hsecond.next
  rw [total_cons] at htot
  dsimp only at hm hn htot hrest
  generalize hg : combineItem h (Blocks.total pre) (Blocks.total pre + m) = g
  have happ : ∀ x, _ → _ → _ → g x = h x := fun x => hg ▸ combineItem_apply hnext (by omega)
  have hjoin : next g (Blocks.total pre) = Blocks.total pre + m + n :=
    hg ▸ combineItem_next hnext (by omega) (by omega) (by omega)
  have hback : prev g (Blocks.total pre + m + n) = Blocks.total pre :=
    hg ▸ combineItem_prev hnext (by omega) (by omega) (by omega)
  refine ⟨chain_append.mpr ⟨?_, ?_, ?_⟩, ?_, ?_, ?_⟩
  · exact (chain_append.mp hi.chain).1.congr hpre fun x _ hx =>
      happ x (by omega) (by omega) (by omega)
  · rw [Nat.zero_add]
    refine ⟨?_, hjoin.trans (Nat.add_assoc _ _ _), ?_⟩
    · exact (word_congr fun x h₁ h₂ => happ x (by omega) (by omega) (by omega)).trans hitem.poolPtr
    · exact (word_congr fun x h₁ h₂ => happ x (by omega) (by omega) (by omega)).trans hitem.prev
  · dsimp only
    rw [Nat.zero_add, ← Nat.add_assoc]
    exact hrest.setHead hpost (fun x h₁ _ h₂ => happ x (by omega) (by omega) (by omega))
      fun _ => hback
  · simp only [total_append, total_cons]
    omega
  · have := hpost.total_zero_or
    rw [← hi.endItem]
    exact word_congr fun x h₁ h₂ => happ x (by omega) (by omega) (by omega)
  · refine sized_append.mpr ⟨hpre, sized_cons.mpr ⟨?_, hpost⟩⟩
    dsimp only
    omega

end Edits

section User
variable {pool heapEnd : Nat} {h : HeapMem} {pre post : List Block}

theorem flag_user {p n x : Nat} {v : Nat} {u : Bool} {name : List Gmac.Byte}
    (hp : p = Blocks.total pre)
    (hx : UserByte 0 (pre ++ ⟨n, u⟩ :: post) x) (hn : 40 ≤ n) :
    rtSmemSetname (setPoolPtr h p v) p name x = h x := by
  rw [userByte_append, userByte_cons] at hx
  have hout : x < p ∨ p + 40 ≤ x := by
    rcases hx with hx | ⟨_, hx, _⟩ | hx
    · have := hx.bounds
      omega
    · omega
    · have := hx.bounds
      dsimp only at this
      omega
  rw [rtSmemSetname_apply (by omega), setPoolPtr, setWord_apply (by omega)]

theorem Items.split_user (hp : PoolOk pool heapEnd) {n k m x : Nat} {u u' : Bool}
    (hi : Items pool heapEnd h (pre ++ ⟨n, u⟩ :: post))
    (hk : 40 ≤ k) (hn : k + 40 ≤ n) (hx : UserByte 0 (pre ++ ⟨k, u'⟩ :: ⟨n - k, false⟩ :: post) x) :
    splitItem pool m h (Blocks.total pre) (Blocks.total pre + k) x = h x := by
  obtain ⟨hitem, _, htot⟩ := hi.mid
  have hbound := hp.bound
  have hnext : next h (Blocks.total pre) = Blocks.total pre + n := hitem.next
  dsimp only at htot
  rw [userByte_append, userByte_cons, userByte_cons] at hx
  have hout : x < Blocks.total pre ∨ (Blocks.total pre + 40 ≤ x ∧ x < Blocks.total pre + k) ∨
      Blocks.total pre + n + 40 ≤ x := by
    rcases hx with hx | ⟨_, hx⟩ | ⟨hf, _⟩ | hx
    · have := hx.bounds
      omega
    · dsimp only at hx
      omega
    · cases hf
    · have := hx.bounds
      dsimp only at this
      omega
  exact splitItem_apply hp.low hp.even hnext (by omega) (by omega) (by omega) (by omega)
    (by omega) (by omega)

theorem Items.combine_user {m n x : Nat} {u v : Bool}
    (hi : Items pool heapEnd h (pre ++ ⟨m, u⟩ :: ⟨n, v⟩ :: post))
    (hx : UserByte 0 (pre ++ ⟨m + n, false⟩ :: post) x) :
    combineItem h (Blocks.total pre) (Blocks.total pre + m) x = h x := by
  obtain ⟨_, hm, hn, _⟩ :=
    sized_append.mp hi.sized |>.imp_right fun hs => (sized_cons.mp hs).imp_right sized_cons.mp
  obtain ⟨_, ⟨hsecond, _⟩, _⟩ := hi.mid
  have hnext : next h (Blocks.total pre + m) = Blocks.total pre + m + n := hsecond.next
  dsimp only at hm hn
  rw [userByte_append, userByte_cons] at hx
  have hout : x < Blocks.total pre ∨ Blocks.total pre + m + n + 40 ≤ x := by
    rcases hx with hx | ⟨hf, _⟩ | hx
    · have := hx.bounds
      omega
    · cases hf
    · have := hx.bounds
      dsimp only at this
      omega
  exact combineItem_apply hnext (by omega) (by omega) (by omega) (by omega)

end User

end Rk3576.Heap
