import Rk3576.Lib.Contract
import Rk3576.Heap.Ops

/-! The heap as its callers see it, through `rt_malloc`, `rt_calloc`, `rt_realloc` and `rt_free`.
Each call holds the heap's mutex, so the calls of all threads come one after the other. -/
namespace Rk3576.Heap
open Rk3576.Bytes Rk3576.Words Rk3576.Blocks Rk3576.Run
open Rk3576.Gmac (Byte)

abbrev Known := List (Option Byte)

/-- The blocks the callers hold, by their pointers. -/
abbrev View := Nat → Option Known

structure Session where
  heap : SmallMem
  view : View

inductive HeapOp where
  | rtMalloc (self : List Byte) (size : Nat)
  | rtCalloc (self : List Byte) (count size : Nat)
  | rtRealloc (self : List Byte) (rmem : Option Nat) (newsize : Nat)
  | rtFree (rmem : Option Nat)
  | store (p i : Nat) (b : Byte)

def View.give (v : View) (r : Option Nat) (w : Known) : View :=
  match r with
  | none => v
  | some p => Function.update v p (some w)

def View.drop (v : View) (r : Option Nat) : View :=
  match r with
  | none => v
  | some p => Function.update v p none

def View.known (v : View) (r : Option Nat) : Known := (r.bind v).getD []

def resize (w : Known) (n : Nat) : Known := w.take n ++ List.replicate (n - w.length) none

def callocSize (count size : Nat) : Nat := count * size % 2 ^ 64

/-- A call that asserts or does not return gives `none`. -/
def heapStep (t : Session) : HeapOp → Option Session
  | .rtMalloc self size =>
    (rtSmemAlloc self t.heap size).map fun r => ⟨r.1, t.view.give r.2 (List.replicate size none)⟩
  | .rtCalloc self count size =>
    (rtSmemAlloc self t.heap (callocSize count size)).map fun r =>
      let zeros := List.replicate (callocSize count size) (0 : Byte)
      match r.2 with
      | none => ⟨r.1, t.view⟩
      | some p => ⟨{ r.1 with mem := blit r.1.mem p zeros }, t.view.give (some p) (zeros.map some)⟩
  | .rtRealloc self rmem newsize =>
    (rtSmemRealloc self t.heap rmem newsize).map fun r =>
      if newsize = 0 then ⟨r.1, t.view.drop rmem⟩
      else
        match r.2 with
        | none => ⟨r.1, t.view⟩
        | some q => ⟨r.1, (t.view.drop rmem).give (some q) (resize (t.view.known rmem) newsize)⟩
  | .rtFree rmem => (rtSmemFree t.heap rmem).map fun h => ⟨h, t.view.drop rmem⟩
  | .store p i b =>
    some ⟨{ t.heap with mem := Function.update t.heap.mem (p + i) b },
      Function.update t.view p ((t.view p).map fun w => w.set i (some b))⟩

def Held (v : View) : Option Nat → Prop
  | none => True
  | some p => v p ≠ none

/-- The callers' side: requests whose alignment does not wrap, pointers they hold, stores inside
their blocks. -/
def Allowed (t : Session) : HeapOp → Prop
  | .rtMalloc _ size => size + 3 < 2 ^ 64
  | .rtCalloc _ count size => callocSize count size + 3 < 2 ^ 64
  | .rtRealloc _ rmem newsize => newsize + 3 < 2 ^ 64 ∧ Held t.view rmem
  | .rtFree rmem => Held t.view rmem
  | .store p i _ => ∃ w, t.view p = some w ∧ i < w.length

instance (v : View) : (r : Option Nat) → Decidable (Held v r)
  | none => isTrue trivial
  | some p => inferInstanceAs (Decidable (v p ≠ none))

instance (t : Session) : (op : HeapOp) → Decidable (Allowed t op)
  | .rtMalloc _ size => inferInstanceAs (Decidable (size + 3 < 2 ^ 64))
  | .rtCalloc _ count size => inferInstanceAs (Decidable (callocSize count size + 3 < 2 ^ 64))
  | .rtRealloc _ rmem newsize =>
    inferInstanceAs (Decidable (newsize + 3 < 2 ^ 64 ∧ Held t.view rmem))
  | .rtFree rmem => inferInstanceAs (Decidable (Held t.view rmem))
  | .store p i _ => decidable_of_iff ((t.view p).any fun w => decide (i < w.length))
      (by simp [Option.any_eq_true, Allowed])

/-- The blocks in hand are the used blocks, and hold what was written to them. -/
structure Matches (bs : List Block) (h : HeapMem) (v : View) : Prop where
  live : ∀ p w, v p = some w → w ≠ [] ∧ 40 ≤ p ∧ ∃ k, (p - 40, k) ∈ usedFrom 0 bs ∧
    w.length + 40 ≤ k
  owned : ∀ a k, (a, k) ∈ usedFrom 0 bs → v (a + 40) ≠ none
  known : ∀ p w i b, v p = some w → w[i]? = some (some b) → h (p + i) = b

structure Good (t : Session) (bs : List Block) : Prop where
  holds : Holds t.heap bs
  coalesced : Coalesced bs
  view : Matches bs t.heap.mem t.view

theorem Sized.used_size {p a k : Nat} {bs : List Block} (hs : Sized bs)
    (h : (a, k) ∈ usedFrom p bs) : 40 ≤ k := by
  obtain ⟨pre, post, rfl, _⟩ := exists_of_mem_usedFrom h
  exact (sized_cons.mp (sized_append.mp hs).2).1.1

theorem Matches.userByte {bs : List Block} {h : HeapMem} {v : View} (hm : Matches bs h v)
    {p i : Nat} {w : Known} (hp : v p = some w) (hi : i < w.length) : UserByte 0 bs (p + i) := by
  obtain ⟨_, hp40, k, hk, hlen⟩ := hm.live p w hp
  exact ⟨p - 40, k, hk, by omega, by omega⟩

theorem Matches.congr {bs : List Block} {h h' : HeapMem} {v : View} (hm : Matches bs h v)
    (he : ∀ x, UserByte 0 bs x → h' x = h x) : Matches bs h' v where
  live := hm.live
  owned := hm.owned
  known p w i b hp hb :=
    (he _ (hm.userByte hp (List.getElem?_eq_some_iff.mp hb).1)).trans (hm.known p w i b hp hb)

theorem Chain.congr_user {pool q p : Nat} {h h' : HeapMem} {bs : List Block}
    (hc : Chain pool h q p bs) (hs : Sized bs)
    (he : ∀ x, p ≤ x → ¬ UserByte p bs x → h' x = h x) : Chain pool h' q p bs := by
  induction bs generalizing q p with
  | nil => trivial
  | cons b bs ih =>
    obtain ⟨⟨hb, _⟩, hs'⟩ := sized_cons.mp hs
    refine ⟨hc.1.congr fun x h₁ h₂ => he x h₁ ?_, ih hc.2 hs' fun x h₁ h₂ => he x (by omega) ?_⟩
    · rw [userByte_cons]
      rintro (⟨_, h₃, _⟩ | h₃)
      · omega
      · have := h₃.bounds
        omega
    · rw [userByte_cons]
      rintro (⟨_, _, h₃⟩ | h₃)
      · omega
      · exact h₂ h₃

/-- Headers are not data: the heap stays the same heap when only data is written. -/
theorem Holds.write {s : SmallMem} {bs : List Block} (h : Holds s bs) {g : HeapMem}
    (he : ∀ x, ¬ UserByte 0 bs x → g x = s.mem x) : Holds { s with mem := g } bs where
  items :=
    { chain := h.items.chain.congr_user h.items.sized fun x _ hx => he x hx
      total := h.items.total
      endItem := by
        rw [← h.items.endItem]
        refine word_congr fun x h₁ _ => he x fun hx => ?_
        have hb := hx.bounds
        have ht := h.items.total
        dsimp only at h₁
        omega
      sized := h.items.sized }
  pool := h.pool
  poolPos := h.poolPos
  size := h.size
  aligned := h.aligned
  lfree := h.lfree
  used := h.used
  peak := h.peak

theorem userByte_mono {bs bs' : List Block} (h : ∀ e ∈ usedFrom 0 bs, e ∈ usedFrom 0 bs') {x : Nat}
    (hx : UserByte 0 bs x) : UserByte 0 bs' x := by
  obtain ⟨a, k, hm, hx'⟩ := hx
  exact ⟨a, k, h _ hm, hx'⟩

theorem usedFrom_taken (pre post : List Block) {n size : Nat} (hfit : size + 40 ≤ n) :
    ∃ k, size + 40 ≤ k ∧ usedFrom 0 (pre ++ (taken n size ++ post)) =
      usedFrom 0 pre ++ (total pre, k) :: usedFrom (total pre + n) post := by
  rw [taken]
  split
  · refine ⟨size + 40, Nat.le_refl _, ?_⟩
    have hend : total pre + (size + 40) + (n - (size + 40)) = total pre + n := by omega
    simp [usedFrom, hend]
  · exact ⟨n, hfit, by simp [usedFrom]⟩

theorem usedFrom_freed (pre post : List Block) (n : Nat) :
    usedFrom 0 (glue pre (glue [⟨n, false⟩] post)) =
      usedFrom 0 pre ++ usedFrom (total pre + n) post := by
  rw [usedFrom_glue, usedFrom_append, usedFrom_glue, Nat.zero_add]
  simp [usedFrom]

theorem coalesced_taken {pre post : List Block} {n size : Nat}
    (h : Coalesced (pre ++ ⟨n, false⟩ :: post)) :
    Coalesced (pre ++ (taken n size ++ post)) := by
  rw [Coalesced, List.isChain_append, List.isChain_cons] at h
  obtain ⟨hpre, ⟨hhead, hpost⟩, _⟩ := h
  rw [Coalesced, List.isChain_append, taken]
  split
  · exact ⟨hpre, List.isChain_cons.mpr ⟨by simp, List.isChain_cons.mpr ⟨hhead, hpost⟩⟩, by simp⟩
  · exact ⟨hpre, List.isChain_cons.mpr ⟨by simp, hpost⟩, by simp⟩

theorem coalesced_freed {pre post : List Block} {n : Nat}
    (h : Coalesced (pre ++ ⟨n, true⟩ :: post)) :
    Coalesced (glue pre (glue [⟨n, false⟩] post)) := by
  rw [Coalesced, List.isChain_append, List.isChain_cons] at h
  exact coalesced_glue h.1 (coalesced_glue (List.isChain_singleton _) h.2.1.2)

theorem coalesced_shrunk {pre post : List Block} {n k m : Nat}
    (h : Coalesced (pre ++ ⟨n, true⟩ :: post)) :
    Coalesced (pre ++ ⟨k, true⟩ :: glue [⟨m, false⟩] post) := by
  rw [Coalesced, List.isChain_append, List.isChain_cons] at h
  rw [Coalesced, List.isChain_append, List.isChain_cons]
  exact ⟨h.1, ⟨by simp, coalesced_glue (List.isChain_singleton _) h.2.1.2⟩, by simp⟩

theorem ne_of_mem_used {pre post : List Block} {n : Nat} (hs : Sized pre)
    (hn : 0 < n) {e : Nat × Nat}
    (he : e ∈ usedFrom 0 pre ++ usedFrom (total pre + n) post) : e.1 ≠ total pre := by
  rcases List.mem_append.mp he with hm | hm
  · have h₁ := usedFrom_bounds (a := e.1) (k := e.2) hm
    have h₂ := hs.used_size (a := e.1) (k := e.2) hm
    omega
  · have h₁ := usedFrom_bounds (a := e.1) (k := e.2) hm
    omega

theorem mem_without {pre post : List Block} {n : Nat} (hpre : Sized pre)
    (hn : 0 < n) (e : Nat × Nat) :
    e ∈ usedFrom 0 pre ++ usedFrom (total pre + n) post ↔
      e ∈ usedFrom 0 (pre ++ ⟨n, true⟩ :: post) ∧ e.1 ≠ total pre := by
  have hold : usedFrom 0 (pre ++ ⟨n, true⟩ :: post) =
      usedFrom 0 pre ++ (total pre, n) :: usedFrom (total pre + n) post := by
    simp [usedFrom]
  rw [hold]
  refine ⟨fun he => ⟨?_, ne_of_mem_used hpre hn he⟩, ?_⟩
  · exact List.Sublist.subset (List.Sublist.append_left (List.sublist_cons_self _ _) _) he
  · rintro ⟨he, hne⟩
    rw [List.mem_append, List.mem_cons] at he
    rw [List.mem_append]
    rcases he with he | rfl | he
    · exact Or.inl he
    · exact absurd rfl hne
    · exact Or.inr he

theorem mem_used_iff {bs : List Block} (hs : Sized bs) {a k : Nat} (hm : (a, k) ∈ usedFrom 0 bs)
    (e : Nat × Nat) :
    e ∈ usedFrom 0 bs ↔ (e ∈ usedFrom 0 bs ∧ e.1 ≠ a) ∨ e = (a, k) := by
  constructor
  · intro he
    by_cases hea : e.1 = a
    · obtain ⟨pre, post, rfl, ha⟩ := exists_of_mem_usedFrom hm
      obtain ⟨hpre, ⟨hk, _⟩, _⟩ := (sized_append.mp hs).imp_right sized_cons.mp
      rw [Nat.zero_add] at ha
      have hold : usedFrom 0 (pre ++ ⟨k, true⟩ :: post) =
          usedFrom 0 pre ++ (total pre, k) :: usedFrom (total pre + k) post := by
        simp [usedFrom]
      have hother : e ∉ usedFrom 0 pre ++ usedFrom (total pre + k) post := fun h =>
        ne_of_mem_used hpre (Nat.lt_of_lt_of_le (by decide) hk) h (hea.trans ha)
      rw [hold, List.mem_append, List.mem_cons] at he
      rcases he with he | he | he
      · exact absurd (List.mem_append_left _ he) hother
      · rw [ha]
        exact Or.inr he
      · exact absurd (List.mem_append_right _ he) hother
    · exact Or.inl ⟨he, hea⟩
  · rintro (he | rfl)
    · exact he.1
    · exact hm

theorem usedFrom_disjoint {p : Nat} {bs : List Block} {e f : Nat × Nat} (he : e ∈ usedFrom p bs)
    (hf : f ∈ usedFrom p bs) (hne : e.1 ≠ f.1) : e.1 + e.2 ≤ f.1 ∨ f.1 + f.2 ≤ e.1 := by
  have hpair : (usedFrom p bs).Pairwise fun x y => x.1 + x.2 ≤ y.1 ∨ y.1 + y.2 ≤ x.1 :=
    (usedFrom_pairwise p bs).imp Or.inl
  have hsymm : Std.Symm fun x y : Nat × Nat => x.1 + x.2 ≤ y.1 ∨ y.1 + y.2 ≤ x.1 :=
    ⟨fun _ _ => Or.symm⟩
  exact hpair.forall he hf fun h => hne (congrArg Prod.fst h)

structure NewBlock (bs bs' : List Block) (a k : Nat) : Prop where
  old : ∀ e ∈ usedFrom 0 bs, e ∈ usedFrom 0 bs'
  fresh : ∀ e ∈ usedFrom 0 bs, e.1 ≠ a
  new : (a, k) ∈ usedFrom 0 bs'
  all : ∀ e ∈ usedFrom 0 bs', e ∈ usedFrom 0 bs ∨ e = (a, k)

theorem NewBlock.outside {bs bs' : List Block} {a k x : Nat} (hn : NewBlock bs bs' a k)
    (hx : UserByte 0 bs x) :
    x < a ∨ a + k ≤ x := by
  obtain ⟨b, l, hm, h₁, h₂⟩ := hx
  have hdis := usedFrom_disjoint (hn.old _ hm) hn.new (hn.fresh _ hm)
  dsimp only at hdis
  omega

section Calls
variable {s : SmallMem} {bs : List Block} (h : Holds s bs) (hc : Coalesced bs)
include h hc

theorem rtSmemAlloc_new (self : List Byte) {size : Nat} (hsize : size ≠ 0) :
    rtSmemAlloc self s size = some (s, none) ∨
      ∃ s' bs' a k, rtSmemAlloc self s size = some (s', some (a + 40)) ∧ Outcome s s' bs' ∧
      Coalesced bs' ∧
      allocSize size + 40 ≤ k ∧ NewBlock bs bs' a k := by
  obtain ⟨_, hnone⟩ | ⟨pre, n, post, s', rfl, hfit, _, hs', hout⟩ := rtSmemAlloc_cases self h hsize
  · exact Or.inl hnone
  · obtain ⟨k, hk, hused⟩ := usedFrom_taken pre post hfit
    have hold : usedFrom 0 (pre ++ ⟨n, false⟩ :: post) =
        usedFrom 0 pre ++ usedFrom (total pre + n) post := by
      simp [usedFrom]
    refine Or.inr ⟨s', _, total pre, k, hs', hout, coalesced_taken hc, hk, ?_, ?_, ?_, ?_⟩
    · intro e he
      rw [hold] at he
      rw [hused]
      exact List.Sublist.subset (List.Sublist.append_left (List.sublist_cons_self _ _) _) he
    · intro e he
      rw [hold] at he
      exact ne_of_mem_used (sized_append.mp h.items.sized).1 (by omega) he
    · rw [hused]
      exact List.mem_append_right _ List.mem_cons_self
    · intro e he
      rw [hused, List.mem_append, List.mem_cons] at he
      rw [hold, List.mem_append]
      rcases he with he | he | he
      · exact Or.inl (Or.inl he)
      · exact Or.inr he
      · exact Or.inl (Or.inr he)

theorem rtSmemFree_old {a k : Nat} (hm : (a, k) ∈ usedFrom 0 bs) (hk : 40 < k) :
    ∃ s' bs', rtSmemFree s (some (a + 40)) = some s' ∧ Outcome s s' bs' ∧ Coalesced bs' ∧
      ∀ e, e ∈ usedFrom 0 bs' ↔ e ∈ usedFrom 0 bs ∧ e.1 ≠ a := by
  obtain ⟨pre, post, rfl, ha⟩ := exists_of_mem_usedFrom hm
  rw [Nat.zero_add] at ha
  obtain ⟨s', hs', hout⟩ := rtSmemFree_outcome h hk
  rw [ha]
  refine ⟨s', _, hs', hout, coalesced_freed hc, fun e => ?_⟩
  rw [usedFrom_freed]
  exact mem_without (sized_append.mp h.items.sized).1 (by omega) e

theorem shrinkItem_old {a k newsize : Nat} (hm : (a, k) ∈ usedFrom 0 bs) (hmod : newsize % 4 = 0)
    (hlt : newsize + 40 + 24 < k - 40) :
    ∃ s' bs', shrinkItem s a (k - 40) newsize = some s' ∧ Outcome s s' bs' ∧ Coalesced bs' ∧
      ∀ e, e ∈ usedFrom 0 bs' ↔ (e ∈ usedFrom 0 bs ∧ e.1 ≠ a) ∨ e = (a, newsize + 40) := by
  obtain ⟨pre, post, rfl, ha⟩ := exists_of_mem_usedFrom hm
  rw [Nat.zero_add] at ha
  obtain ⟨s', hs', hout⟩ := shrinkItem_outcome h hmod hlt
  rw [ha]
  refine ⟨s', _, hs', hout, coalesced_shrunk hc, fun e => ?_⟩
  have hend : total pre + (newsize + 40) + (k - (newsize + 40)) = total pre + k := by omega
  have hused : usedFrom 0 (pre ++ ⟨newsize + 40, true⟩ :: glue [⟨k - (newsize + 40), false⟩] post) =
      usedFrom 0 pre ++ (total pre, newsize + 40) :: usedFrom (total pre + k) post := by
    simp [usedFrom, usedFrom_glue, hend]
  rw [hused, ← mem_without (sized_append.mp h.items.sized).1 (by omega), List.mem_append,
    List.mem_cons, List.mem_append]
  constructor
  · rintro (he | he | he)
    · exact Or.inl (Or.inl he)
    · exact Or.inr he
    · exact Or.inl (Or.inr he)
  · rintro ((he | he) | he)
    · exact Or.inl he
    · exact Or.inr (Or.inr he)
    · exact Or.inr (Or.inl he)

end Calls

theorem Matches.give {bs bs' : List Block} {h : HeapMem} {v : View} (hm : Matches bs h v)
    {a k : Nat} {w : Known}
    (hsub : ∀ e ∈ usedFrom 0 bs, e ∈ usedFrom 0 bs') (hnew : (a, k) ∈ usedFrom 0 bs')
    (hall : ∀ e ∈ usedFrom 0 bs', e ∈ usedFrom 0 bs ∨ e = (a, k)) (hc : w ≠ [])
    (hlen : w.length + 40 ≤ k)
    (hknown : ∀ i b, w[i]? = some (some b) → h (a + 40 + i) = b) :
    Matches bs' h (v.give (some (a + 40)) w) where
  live p d hp := by
    rw [View.give, Function.update_apply] at hp
    split at hp
    · next he =>
      obtain rfl := Option.some.inj hp
      exact ⟨hc, by omega, k, by rwa [he, Nat.add_sub_cancel], hlen⟩
    · obtain ⟨h₁, h₂, k', h₃, h₄⟩ := hm.live p d hp
      exact ⟨h₁, h₂, k', hsub _ h₃, h₄⟩
  owned a' k' hmem := by
    rw [View.give, Function.update_apply]
    split
    · exact Option.some_ne_none _
    · next hne =>
      rcases hall _ hmem with hold | he
      · exact hm.owned a' k' hold
      · exact absurd (congrArg (· + 40) (Prod.mk.inj he).1) hne
  known p d i b hp hb := by
    rw [View.give, Function.update_apply] at hp
    split at hp
    · next he =>
      obtain rfl := Option.some.inj hp
      rw [he]
      exact hknown i b hb
    · exact hm.known p d i b hp hb

theorem Matches.drop {bs bs' : List Block} {h : HeapMem} {v : View} (hm : Matches bs h v) {a : Nat}
    (hiff : ∀ e, e ∈ usedFrom 0 bs' ↔ e ∈ usedFrom 0 bs ∧ e.1 ≠ a) :
    Matches bs' h (v.drop (some (a + 40))) where
  live p d hp := by
    rw [View.drop, Function.update_apply] at hp
    split at hp
    · cases hp
    · next hne =>
      obtain ⟨h₁, h₂, k, h₃, h₄⟩ := hm.live p d hp
      exact ⟨h₁, h₂, k, (hiff _).mpr ⟨h₃, by dsimp only; omega⟩, h₄⟩
  owned a' k hmem := by
    obtain ⟨hold, hne⟩ := (hiff _).mp hmem
    rw [View.drop, Function.update_of_ne (by dsimp only at hne; omega)]
    exact hm.owned a' k hold
  known p d i b hp hb := by
    rw [View.drop, Function.update_apply] at hp
    split at hp
    · cases hp
    · exact hm.known p d i b hp hb

theorem rtAlign_bounds {n : Nat} (h : n + 3 < 2 ^ 64) :
    n ≤ rtAlign n ∧ rtAlign n ≤ n + 3 ∧ rtAlign n % 4 = 0 := by
  rw [rtAlign, Nat.mod_eq_of_lt h]
  omega

theorem rtAlign_le_allocSize (n : Nat) : rtAlign n ≤ allocSize n := by
  rw [allocSize]
  split
  · next h => exact Nat.le_of_lt h
  · exact Nat.le_refl _

theorem le_allocSize {n : Nat} (h : n + 3 < 2 ^ 64) : n ≤ allocSize n :=
  Nat.le_trans (rtAlign_bounds h).1 (rtAlign_le_allocSize n)

theorem rtAlign_rtAlign {n : Nat} (h : rtAlign n + 3 < 2 ^ 64) :
    rtAlign (rtAlign n) = rtAlign n := by
  have hmod : rtAlign n % 4 = 0 := by
    rw [rtAlign]
    omega
  generalize rtAlign n = k at *
  rw [rtAlign, Nat.mod_eq_of_lt h]
  omega

theorem good_give {s s' : SmallMem} {bs bs' : List Block} {v : View} {a k : Nat}
    {w : Known} {g : HeapMem}
    (hout : Outcome s s' bs') (hco : Coalesced bs') (hnew : NewBlock bs bs' a k)
    (hm : Matches bs s.mem v)
    (hg : ∀ x, x < a + 40 ∨ a + k ≤ x → g x = s'.mem x) (hc : w ≠ []) (hlen : w.length + 40 ≤ k)
    (hknown : ∀ i b, w[i]? = some (some b) → g (a + 40 + i) = b) :
    Good ⟨{ s' with mem := g }, v.give (some (a + 40)) w⟩ bs' where
  holds := by
    refine hout.holds.write fun x hx => hg x ?_
    by_contra hin
    exact hx ⟨a, k, hnew.new, by omega, by omega⟩
  coalesced := hco
  view := by
    refine Matches.give (hm.congr fun x hx => ?_) hnew.old hnew.new hnew.all hc hlen hknown
    have hside := hnew.outside hx
    exact (hg x (by omega)).trans (hout.user x (userByte_mono hnew.old hx))

theorem good_free {t : Session} {bs : List Block} (ht : Good t bs) {r : Option Nat}
    (hr : Held t.view r) :
    ∃ h' bs', rtSmemFree t.heap r = some h' ∧ Good ⟨h', t.view.drop r⟩ bs' := by
  cases r with
  | none => exact ⟨t.heap, bs, rfl, ht⟩
  | some p =>
    obtain ⟨w, hc⟩ := Option.ne_none_iff_exists'.mp hr
    obtain ⟨hne, hp, k, hk, hlen⟩ := ht.view.live p w hc
    have hpos := List.length_pos_iff.mpr hne
    obtain ⟨s', bs', hs', hout, hco, hiff⟩ := rtSmemFree_old ht.holds ht.coalesced hk (by omega)
    rw [Nat.sub_add_cancel hp] at hs'
    refine ⟨s', bs', hs', hout.holds, hco, ?_⟩
    have hdrop := ht.view.drop hiff
    rw [Nat.sub_add_cancel hp] at hdrop
    exact hdrop.congr fun x hx => hout.user x hx

theorem good_alloc {t : Session} {bs : List Block} (ht : Good t bs) (self : List Byte)
    {size request : Nat}
    (hsize : size ≠ 0) (hle : size ≤ request) (hrequest : request ≤ allocSize request) :
    rtSmemAlloc self t.heap request = some (t.heap, none) ∨
      ∃ s' q bs', rtSmemAlloc self t.heap request = some (s', some q) ∧
      Good ⟨s', t.view.give (some q) (List.replicate size none)⟩ bs' := by
  obtain hnone | ⟨s', bs', a, k, hs', hout, hco, hk, hnew⟩ :=
    rtSmemAlloc_new ht.holds ht.coalesced self
      (Nat.ne_of_gt (Nat.lt_of_lt_of_le (Nat.pos_of_ne_zero hsize) hle))
  · exact Or.inl hnone
  · refine Or.inr ⟨s', a + 40, bs', hs', good_give hout hco hnew ht.view (fun _ _ => rfl) ?_ ?_ ?_⟩
    · simpa [List.replicate_eq_nil_iff] using hsize
    · rw [List.length_replicate]
      omega
    · intro i b hb
      simp [List.getElem?_replicate] at hb

theorem good_malloc {t : Session} {bs : List Block} (ht : Good t bs) (self : List Byte) {size : Nat}
    (hsize : size + 3 < 2 ^ 64) :
    ∃ t' bs', heapStep t (.rtMalloc self size) = some t' ∧ Good t' bs' := by
  rw [heapStep]
  by_cases hz : size = 0
  · rw [rtSmemAlloc, if_pos hz]
    exact ⟨t, bs, rfl, ht⟩
  · obtain hnone | ⟨s', q, bs', hs', hgood⟩ :=
      good_alloc ht self hz (Nat.le_refl size) (le_allocSize hsize)
    · rw [hnone]
      exact ⟨t, bs, rfl, ht⟩
    · rw [hs']
      exact ⟨_, bs', rfl, hgood⟩

theorem good_calloc {t : Session} {bs : List Block} (ht : Good t bs) (self : List Byte)
    {count size : Nat} (hsize : callocSize count size + 3 < 2 ^ 64) :
    ∃ t' bs', heapStep t (.rtCalloc self count size) = some t' ∧ Good t' bs' := by
  rw [heapStep]
  generalize callocSize count size = n at *
  by_cases hz : n = 0
  · rw [rtSmemAlloc, if_pos hz]
    exact ⟨t, bs, rfl, ht⟩
  · obtain hnone | ⟨s', bs', a, k, hs', hout, hco, hk, hnew⟩ :=
      rtSmemAlloc_new ht.holds ht.coalesced self hz
    · rw [hnone]
      exact ⟨t, bs, rfl, ht⟩
    · have := le_allocSize hsize
      rw [hs']
      refine ⟨_, bs', rfl, good_give hout hco hnew ht.view ?_ ?_ ?_ ?_⟩
      · intro x hx
        exact blit_of_not_mem (by rw [List.length_replicate]; omega)
      · simpa [List.replicate_eq_nil_iff] using hz
      · rw [List.length_map, List.length_replicate]
        omega
      · intro i b hb
        obtain ⟨hi, hb'⟩ := List.getElem?_eq_some_iff.mp hb
        rw [List.length_map] at hi
        rw [blit_of_mem hi]
        simpa using hb'

theorem Matches.disjoint {bs : List Block} {h : HeapMem} {v : View} (hm : Matches bs h v)
    {p q : Nat} {w d : Known}
    (hp : v p = some w) (hq : v q = some d) (hne : p ≠ q) :
    p + w.length ≤ q ∨ q + d.length ≤ p := by
  obtain ⟨_, hp40, k, hk, hlen⟩ := hm.live p w hp
  obtain ⟨_, hq40, l, hl, hlen'⟩ := hm.live q d hq
  have hdis := usedFrom_disjoint hk hl (by dsimp only; omega)
  dsimp only at hdis
  omega

theorem Matches.store {bs : List Block} {h : HeapMem} {v : View} (hm : Matches bs h v)
    {p i : Nat} {w : Known} (hp : v p = some w) (hi : i < w.length) (b : Byte) :
    Matches bs (Function.update h (p + i) b) (Function.update v p (some (w.set i (some b)))) where
  live q d hq := by
    rw [Function.update_apply] at hq
    split at hq
    · next he =>
      obtain rfl := Option.some.inj hq
      obtain ⟨hne, hlive⟩ := hm.live p w hp
      rw [he, List.length_set]
      exact ⟨by simpa using hne, hlive⟩
    · exact hm.live q d hq
  owned a k hmem := by
    rw [Function.update_apply]
    split
    · exact Option.some_ne_none _
    · exact hm.owned a k hmem
  known q d j b' hq hb' := by
    rw [Function.update_apply] at hq
    split at hq
    · next he =>
      obtain rfl := Option.some.inj hq
      rw [List.getElem?_set] at hb'
      rw [he, Function.update_apply]
      by_cases hij : i = j
      · rw [if_pos hij, if_pos (hij ▸ hi)] at hb'
        rw [if_pos (by omega)]
        exact Option.some.inj (Option.some.inj hb')
      · rw [if_neg hij] at hb'
        rw [if_neg (by omega)]
        exact hm.known p w j b' hp hb'
    · next hne =>
      have hj := (List.getElem?_eq_some_iff.mp hb').1
      have hdis := hm.disjoint hq hp hne
      rw [Function.update_of_ne (by omega)]
      exact hm.known q d j b' hq hb'

theorem good_store {t : Session} {bs : List Block} (ht : Good t bs) {p i : Nat}
    {b : Byte} {w : Known} (hp : t.view p = some w) (hi : i < w.length) :
    ∃ t' bs', heapStep t (.store p i b) = some t' ∧ Good t' bs' := by
  have huser := ht.view.userByte hp hi
  rw [heapStep, hp]
  refine ⟨_, bs, rfl, ?_, ht.coalesced, ht.view.store hp hi b⟩
  refine ht.holds.write fun x hx => Function.update_of_ne ?_ _ _
  rintro rfl
  exact hx huser

theorem resize_known {w : Known} {n i : Nat} {b : Byte} (h : (resize w n)[i]? = some (some b)) :
    i < n ∧ i < w.length ∧ w[i]? = some (some b) := by
  rw [resize] at h
  rcases Nat.lt_or_ge i (w.take n).length with hi | hi
  · rw [List.getElem?_append_left hi, List.getElem?_take] at h
    rw [List.length_take] at hi
    split at h
    · exact ⟨by omega, by omega, h⟩
    · cases h
  · rw [List.getElem?_append_right hi] at h
    simp [List.getElem?_replicate] at h

@[simp] theorem resize_length (w : Known) (n : Nat) : (resize w n).length = n := by
  rw [resize, List.length_append, List.length_take, List.length_replicate]
  omega

theorem Matches.resized {bs bs' : List Block} {h h' : HeapMem} {v : View} (hm : Matches bs h v)
    {a k newsize : Nat} {w : Known}
    (hv : v (a + 40) = some w)
    (hiff : ∀ e, e ∈ usedFrom 0 bs' ↔ (e ∈ usedFrom 0 bs ∧ e.1 ≠ a) ∨ e = (a, k))
    (huser : ∀ x, UserByte 0 bs' x → h' x = h x) (hn : newsize ≠ 0) (hlen : newsize + 40 ≤ k) :
    Matches bs' h' ((v.drop (some (a + 40))).give (some (a + 40)) (resize w newsize)) := by
  have hview : (v.drop (some (a + 40))).give (some (a + 40)) (resize w newsize) =
      Function.update v (a + 40) (some (resize w newsize)) := Function.update_idem _ _ _
  have hnew : (a, k) ∈ usedFrom 0 bs' := (hiff _).mpr (Or.inr rfl)
  rw [hview]
  refine ⟨fun q d hq => ?_, fun a' k' hmem => ?_, fun q d i b hq hb => ?_⟩
  · rw [Function.update_apply] at hq
    split at hq
    · next he =>
      obtain rfl := Option.some.inj hq
      refine ⟨fun hnil => hn ?_, by omega, k, by rwa [he, Nat.add_sub_cancel],
        by rwa [resize_length]⟩
      rw [← resize_length w newsize, hnil, List.length_nil]
    · obtain ⟨h₁, h₂, l, h₃, h₄⟩ := hm.live q d hq
      exact ⟨h₁, h₂, l, (hiff _).mpr (Or.inl ⟨h₃, by dsimp only; omega⟩), h₄⟩
  · rw [Function.update_apply]
    split
    · exact Option.some_ne_none _
    · next hne =>
      rcases (hiff _).mp hmem with ⟨hold, _⟩ | he
      · exact hm.owned a' k' hold
      · exact absurd (congrArg (· + 40) (Prod.mk.inj he).1) hne
  · rw [Function.update_apply] at hq
    split at hq
    · next he =>
      obtain rfl := Option.some.inj hq
      obtain ⟨hi, _, hb'⟩ := resize_known hb
      rw [he, huser _ ⟨a, k, hnew, by omega, by omega⟩]
      exact hm.known _ w i b hv hb'
    · next hne =>
      have hi := (List.getElem?_eq_some_iff.mp hb).1
      obtain ⟨_, h₂, l, h₃, h₄⟩ := hm.live q d hq
      have hin : UserByte 0 bs' (q + i) :=
        ⟨q - 40, l, (hiff _).mpr (Or.inl ⟨h₃, by dsimp only; omega⟩), by omega, by omega⟩
      rw [huser _ hin]
      exact hm.known q d i b hq hb

theorem Holds.realloc_reads {s : SmallMem} {bs : List Block} (h : Holds s bs) {a k : Nat}
    (hm : (a, k) ∈ usedFrom 0 bs) (hk : 40 < k) : usub (usub (next s.mem a) a) 40 = k - 40 ∧
      (s.heapPtr + (a + 40)) % 4 = 0 ∧ 40 ≤ a + 40 ∧ a + 40 < s.heapEnd := by
  obtain ⟨pre, post, rfl, ha⟩ := exists_of_mem_usedFrom hm
  have hnext : next s.mem (total pre) = total pre + k := h.next_eq
  have htot := h.items.mid.2.2
  have hmod := (sized_append.mp h.items.sized).1.total_mod
  have halign := h.aligned
  dsimp only at htot
  rw [Nat.zero_add] at ha
  have hinner : usub (total pre + k) (total pre) = k := by
    rw [usub_eq (by omega), Nat.add_sub_cancel_left]
  rw [ha, hnext, hinner, usub_eq (by omega)]
  refine ⟨rfl, ?_, ?_, ?_⟩ <;> omega

/-- The block moves: a new one, the bytes copied, and the old one back. -/
theorem good_move {t : Session} {bs : List Block} (ht : Good t bs) (self : List Byte)
    {a k n newsize : Nat} {w : Known}
    (hv : t.view (a + 40) = some w) (hk : (a, k) ∈ usedFrom 0 bs) (hlen : w.length + 40 ≤ k)
    (hn : newsize ≠ 0) (hle : newsize ≤ n) (halloc : n ≤ allocSize n) :
    (rtSmemAlloc self t.heap n = some (t.heap, none)) ∨
      ∃ s q s' bs', rtSmemAlloc self t.heap n = some (s, some q) ∧
      rtSmemFree { s with
        mem := blit s.mem q (slice s.mem (a + 40) (if k - 40 < n then k - 40 else n)) }
        (some (a + 40)) =
        some s' ∧
      Good ⟨s', (t.view.drop (some (a + 40))).give (some q) (resize w newsize)⟩ bs' := by
  obtain hnone | ⟨s, bs₁, b, l, hs, hout, hco, hl, hnew⟩ :=
    rtSmemAlloc_new ht.holds ht.coalesced self
      (Nat.ne_of_gt (Nat.lt_of_lt_of_le (Nat.pos_of_ne_zero hn) hle))
  · exact Or.inl hnone
  · refine Or.inr ⟨s, b + 40, ?_⟩
    generalize hm : (if k - 40 < n then k - 40 else n) = m
    have hm₁ : m ≤ k - 40 ∧ m ≤ n ∧ (m = k - 40 ∨ m = n) := by
      split at hm <;> omega
    -- the copy is in hand beside the old block
    have hcopy : Good ⟨{ s with mem := blit s.mem (b + 40) (slice s.mem (a + 40) m) },
        t.view.give (some (b + 40)) (resize w newsize)⟩ bs₁ := by
      refine good_give hout hco hnew ht.view
        (fun x hx => blit_of_not_mem (by rw [slice_length]; omega)) ?_
        (by rw [resize_length]; omega) ?_
      · intro hnil
        exact hn (by rw [← resize_length w newsize, hnil, List.length_nil])
      · intro i x hx
        obtain ⟨hi, hi', hx'⟩ := resize_known hx
        have him : i < (slice s.mem (a + 40) m).length := by
          rw [slice_length]
          omega
        have huser : UserByte 0 bs₁ (a + 40 + i) := ⟨a, k, hnew.old _ hk, by omega, by omega⟩
        rw [blit_of_mem him]
        simp only [slice, List.getElem_map, List.getElem_range]
        rw [hout.user _ huser]
        exact ht.view.known _ w i x hv hx'
    have hne : b + 40 ≠ a + 40 := fun he => hnew.fresh _ hk (by dsimp only; omega)
    have hheld : Held (t.view.give (some (b + 40)) (resize w newsize)) (some (a + 40)) := by
      rw [Held, View.give, Function.update_of_ne hne.symm, hv]
      exact Option.some_ne_none w
    obtain ⟨s', bs', hs', hgood⟩ := good_free hcopy hheld
    refine ⟨s', bs', hs, hs', ?_⟩
    have hview : (t.view.give (some (b + 40)) (resize w newsize)).drop (some (a + 40)) =
        (t.view.drop (some (a + 40))).give (some (b + 40)) (resize w newsize) :=
      Function.update_comm hne _ _ _
    rwa [hview] at hgood

theorem good_realloc {t : Session} {bs : List Block} (ht : Good t bs) (self : List Byte)
    {a newsize : Nat} {w : Known}
    (hv : t.view (a + 40) = some w) (hn : newsize ≠ 0) (hbound : newsize + 3 < 2 ^ 64) :
    (rtSmemRealloc self t.heap (some (a + 40)) newsize = some (t.heap, none)) ∨
      ∃ s' q bs', rtSmemRealloc self t.heap (some (a + 40)) newsize = some (s', some q) ∧
      Good ⟨s', (t.view.drop (some (a + 40))).give (some q) (resize w newsize)⟩ bs' := by
  obtain ⟨hle, _, hmod⟩ := rtAlign_bounds hbound
  obtain ⟨hne, _, k, hk, hlen⟩ := ht.view.live _ w hv
  have hpos := List.length_pos_iff.mpr hne
  rw [Nat.add_sub_cancel] at hk
  obtain ⟨hsz, hcheck⟩ := ht.holds.realloc_reads hk (by omega)
  simp only [rtSmemRealloc, sizeofStructMem, minSize, Nat.add_sub_cancel, hsz]
  by_cases hbig : rtAlign newsize > t.heap.memSizeAligned
  · rw [if_pos hbig]
    exact Or.inl rfl
  rw [if_neg hbig, if_neg (by omega), if_pos hcheck]
  by_cases heq : k - 40 = rtAlign newsize
  · rw [if_pos heq]
    refine Or.inr ⟨t.heap, a + 40, bs, rfl, ht.holds, ht.coalesced, ?_⟩
    exact ht.view.resized hv (mem_used_iff ht.holds.items.sized hk) (fun _ _ => rfl) hn (by omega)
  rw [if_neg heq]
  by_cases hshrink : rtAlign newsize + 40 + 24 < k - 40
  · obtain ⟨s', bs', hs', hout, hco, hiff⟩ := shrinkItem_old ht.holds ht.coalesced hk hmod hshrink
    rw [if_pos hshrink, hs']
    exact Or.inr ⟨s', a + 40, bs', rfl, hout.holds, hco,
      ht.view.resized hv hiff hout.user hn (by omega)⟩
  rw [if_neg hshrink]
  have hsmall := ht.holds.pool.bound
  have hsize := ht.holds.size
  have halloc := rtAlign_le_allocSize (rtAlign newsize)
  rw [rtAlign_rtAlign (by omega)] at halloc
  obtain hnone | ⟨s, q, s', bs', hs, hs', hgood⟩ := good_move ht self hv hk hlen hn hle halloc
  · rw [hnone]
    exact Or.inl rfl
  · rw [hs]
    dsimp only
    rw [hs']
    exact Or.inr ⟨s', q, bs', rfl, hgood⟩

/-- Every call the contract allows returns, and keeps the callers' picture right. -/
theorem good_step {t : Session} {bs : List Block} (ht : Good t bs) {op : HeapOp}
    (hop : Allowed t op) :
    ∃ t' bs', heapStep t op = some t' ∧ Good t' bs' := by
  cases op with
  | rtMalloc self size => exact good_malloc ht self hop
  | rtCalloc self count size => exact good_calloc ht self hop
  | rtFree rmem =>
    obtain ⟨h', bs', hs', hgood⟩ := good_free ht hop
    exact ⟨_, bs', by rw [heapStep, hs']; rfl, hgood⟩
  | store p i b =>
    obtain ⟨w, hp, hi⟩ := hop
    exact good_store ht hp hi
  | rtRealloc self rmem newsize =>
    obtain ⟨hbound, hheld⟩ := hop
    rw [heapStep]
    by_cases hz : newsize = 0
    · obtain ⟨h', bs', hs', hgood⟩ := good_free ht hheld
      have halign : rtAlign newsize = 0 := by
        rw [hz]
        rfl
      simp only [rtSmemRealloc, halign, if_pos hz, hs']
      exact ⟨_, bs', rfl, hgood⟩
    · cases rmem with
      | none =>
        obtain ⟨hle, _, _⟩ := rtAlign_bounds hbound
        have hne : rtAlign newsize ≠ 0 := by omega
        by_cases hbig : rtAlign newsize > t.heap.memSizeAligned
        · simp only [rtSmemRealloc, if_pos hbig, if_neg hz]
          exact ⟨t, bs, rfl, ht⟩
        · have hsmall := ht.holds.pool.bound
          have hsize := ht.holds.size
          have halloc := rtAlign_le_allocSize (rtAlign newsize)
          rw [rtAlign_rtAlign (by omega)] at halloc
          simp only [rtSmemRealloc, if_neg hbig, if_neg hne, if_neg hz]
          obtain hnone | ⟨s', q, bs', hs', hgood⟩ := good_alloc ht self hz hle halloc
          · rw [hnone]
            exact ⟨t, bs, rfl, ht⟩
          · rw [hs']
            refine ⟨_, bs', rfl, ?_⟩
            simpa [View.drop, View.known, resize] using hgood
      | some p =>
        obtain ⟨w, hc⟩ := Option.ne_none_iff_exists'.mp hheld
        obtain ⟨a, rfl⟩ : ∃ a, p = a + 40 := ⟨p - 40, by have := (ht.view.live p w hc).2.1; omega⟩
        obtain hnone | ⟨s', q, bs', hs', hgood⟩ := good_realloc ht self hc hz hbound
        · rw [hnone]
          refine ⟨t, bs, ?_, ht⟩
          simp [hz]
        · rw [hs']
          refine ⟨_, bs', rfl, ?_⟩
          simpa [hz, View.known, hc] using hgood

end Rk3576.Heap
