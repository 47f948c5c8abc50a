import Mathlib.Algebra.Order.BigOperators.Group.List
import Mathlib.Algebra.Order.Ring.Nat
import Mathlib.Data.List.Chain

/-! An interval cut into consecutive blocks, each used or free. The list of blocks is the whole
description: a block's offset is the total of those before it. -/
namespace Rk3576.Blocks

structure Block where
  size : Nat
  used : Bool
  deriving DecidableEq

def total (bs : List Block) : Nat := (bs.map Block.size).sum

def usedTotal (bs : List Block) : Nat := total (bs.filter Block.used)

/-- Where the first free block starts; the end of the interval if there is none. -/
def lead (bs : List Block) : Nat := total (bs.takeWhile Block.used)

def Coalesced (bs : List Block) : Prop := bs.IsChain fun a b => a.used = true ∨ b.used = true

def usedFrom (p : Nat) : List Block → List (Nat × Nat)
  | [] => []
  | b :: bs => if b.used then (p, b.size) :: usedFrom (p + b.size) bs else usedFrom (p + b.size) bs

def firstFit (w p : Nat) : List Block → Option Nat
  | [] => none
  | b :: bs => if b.used = false ∧ w ≤ b.size then some p else firstFit w (p + b.size) bs

/-- Two lists put together, with the two blocks at the seam made one if both are free. -/
def glue (xs ys : List Block) : List Block :=
  match xs.getLast?, ys with
  | some ⟨k, false⟩, ⟨n, false⟩ :: ys => xs.dropLast ++ ⟨k + n, false⟩ :: ys
  | _, ys => xs ++ ys

@[simp] theorem total_nil : total [] = 0 := rfl

@[simp] theorem total_cons (b : Block) (bs : List Block) : total (b :: bs) = b.size + total bs := by
  simp [total]

@[simp] theorem total_append (xs ys : List Block) : total (xs ++ ys) = total xs + total ys := by
  simp [total]

@[simp] theorem usedTotal_nil : usedTotal [] = 0 := rfl

@[simp] theorem usedTotal_used (n : Nat) (bs : List Block) :
    usedTotal (⟨n, true⟩ :: bs) = n + usedTotal bs := by
  simp [usedTotal]

@[simp] theorem usedTotal_free (n : Nat) (bs : List Block) :
    usedTotal (⟨n, false⟩ :: bs) = usedTotal bs := by
  simp [usedTotal]

@[simp] theorem usedTotal_append (xs ys : List Block) :
    usedTotal (xs ++ ys) = usedTotal xs + usedTotal ys := by
  simp [usedTotal]

theorem size_le_total {b : Block} {bs : List Block} (h : b ∈ bs) : b.size ≤ total bs :=
  List.single_le_sum (fun _ _ => Nat.zero_le _) b.size (List.mem_map_of_mem h)

theorem usedTotal_le_total (bs : List Block) : usedTotal bs ≤ total bs := by
  induction bs with
  | nil => exact Nat.le_refl 0
  | cons b bs ih =>
    obtain ⟨n, u⟩ := b
    cases u with
    | false =>
      rw [usedTotal_free, total_cons]
      exact Nat.le_add_left_of_le ih
    | true =>
      rw [usedTotal_used, total_cons]
      exact Nat.add_le_add_left ih n

theorem lead_le_total (bs : List Block) : lead bs ≤ total bs := by
  conv_rhs => rw [← List.takeWhile_append_dropWhile (p := Block.used) (l := bs)]
  rw [total_append]
  exact Nat.le_add_right _ _

theorem lead_append (xs ys : List Block) :
    lead (xs ++ ys) = if ∀ b ∈ xs, b.used = true then total xs + lead ys else lead xs := by
  induction xs with
  | nil => simp [lead]
  | cons b xs ih =>
    cases hb : b.used with
    | false => simp [lead, hb]
    | true =>
      have hcons : ∀ zs, lead (b :: zs) = b.size + lead zs := fun zs => by simp [lead, hb]
      rw [List.cons_append, hcons, ih, hcons, total_cons]
      simp only [List.forall_mem_cons, hb, true_and]
      split
      · rw [Nat.add_assoc]
      · rfl

theorem lead_of_used {bs : List Block} (h : ∀ b ∈ bs, b.used = true) : lead bs = total bs := by
  have := lead_append bs []
  rw [List.append_nil, if_pos h] at this
  exact this

theorem lead_append_free (xs ys : List Block) (n : Nat) :
    lead (xs ++ ⟨n, false⟩ :: ys) = lead xs := by
  rw [lead_append]
  split
  · next h => rw [lead_of_used h]; rfl
  · rfl

@[simp] theorem glue_nil_left (ys : List Block) : glue [] ys = ys := rfl

@[simp] theorem glue_nil_right (xs : List Block) : glue xs [] = xs := by
  simp [glue]

theorem glue_free (xs ys : List Block) (k n : Nat) :
    glue (xs ++ [⟨k, false⟩]) (⟨n, false⟩ :: ys) = xs ++ ⟨k + n, false⟩ :: ys := by
  simp [glue]

theorem glue_used_left (xs ys : List Block) (k : Nat) :
    glue (xs ++ [⟨k, true⟩]) ys = xs ++ ⟨k, true⟩ :: ys := by
  simp [glue]

theorem glue_used_right (xs ys : List Block) (n : Nat) :
    glue xs (⟨n, true⟩ :: ys) = xs ++ ⟨n, true⟩ :: ys := by
  simp [glue]

theorem glue_cases (xs ys : List Block) :
    (∃ xs' ys' k n, xs = xs' ++ [⟨k, false⟩] ∧ ys = ⟨n, false⟩ :: ys' ∧
      glue xs ys = xs' ++ ⟨k + n, false⟩ :: ys') ∨
    (glue xs ys = xs ++ ys ∧ ∀ a ∈ xs.getLast?, ∀ b ∈ ys.head?, a.used = true ∨ b.used = true) := by
  rcases List.eq_nil_or_concat xs with rfl | ⟨xs', ⟨k, u⟩, rfl⟩
  · exact Or.inr ⟨rfl, by simp⟩
  · rw [List.concat_eq_append]
    cases u with
    | true => exact Or.inr ⟨by simp [glue_used_left], by simp⟩
    | false =>
      match ys with
      | [] => exact Or.inr ⟨by simp, by simp⟩
      | ⟨n, true⟩ :: ys' => exact Or.inr ⟨glue_used_right _ _ _, by simp⟩
      | ⟨n, false⟩ :: ys' => exact Or.inl ⟨xs', ys', k, n, rfl, rfl, glue_free _ _ _ _⟩

@[simp] theorem total_glue (xs ys : List Block) : total (glue xs ys) = total xs + total ys := by
  obtain ⟨xs', ys', k, n, rfl, rfl, h⟩ | ⟨h, _⟩ := glue_cases xs ys
  · rw [h]
    simp only [total_append, total_cons, total_nil]
    omega
  · rw [h, total_append]

@[simp] theorem usedTotal_glue (xs ys : List Block) :
    usedTotal (glue xs ys) = usedTotal xs + usedTotal ys := by
  obtain ⟨xs', ys', k, n, rfl, rfl, h⟩ | ⟨h, _⟩ := glue_cases xs ys
  · rw [h]
    simp
  · rw [h, usedTotal_append]

theorem coalesced_glue {xs ys : List Block} (hx : Coalesced xs) (hy : Coalesced ys) :
    Coalesced (glue xs ys) := by
  obtain ⟨xs', ys', k, n, rfl, rfl, h⟩ | ⟨h, hseam⟩ := glue_cases xs ys
  · rw [h, Coalesced, List.isChain_append]
    rw [Coalesced, List.isChain_append] at hx
    obtain ⟨hx', _, hk⟩ := hx
    refine ⟨hx', ?_, ?_⟩
    · rw [Coalesced, List.isChain_cons] at hy
      exact List.isChain_cons.mpr hy
    · simpa using hk
  · rw [h, Coalesced, List.isChain_append]
    exact ⟨hx, hy, hseam⟩

theorem eq_single_of_free {bs : List Block} (hc : Coalesced bs) (hfree : ∀ b ∈ bs, b.used = false)
    (hne : bs ≠ []) :
    bs = [⟨total bs, false⟩] := by
  obtain ⟨b, bs, rfl⟩ := List.exists_cons_of_ne_nil hne
  cases bs with
  | nil =>
    have hb := hfree b List.mem_cons_self
    rw [total_cons, total_nil, Nat.add_zero, ← hb]
  | cons c bs =>
    have hpair := (List.isChain_cons_cons.mp hc).1
    rw [hfree b (by simp), hfree c (by simp)] at hpair
    exact absurd hpair (by simp)

@[simp] theorem usedFrom_append (p : Nat) (xs ys : List Block) :
    usedFrom p (xs ++ ys) = usedFrom p xs ++ usedFrom (p + total xs) ys := by
  induction xs generalizing p with
  | nil => rfl
  | cons b xs ih =>
    simp only [List.cons_append, usedFrom, ih, total_cons, Nat.add_assoc]
    split <;> rfl

theorem usedFrom_glue (p : Nat) (xs ys : List Block) :
    usedFrom p (glue xs ys) = usedFrom p (xs ++ ys) := by
  obtain ⟨xs', ys', k, n, rfl, rfl, h⟩ | ⟨h, _⟩ := glue_cases xs ys
  · rw [h]
    simp [usedFrom, Nat.add_assoc]
  · rw [h]

theorem usedFrom_bounds {p a k : Nat} {bs : List Block} (h : (a, k) ∈ usedFrom p bs) :
    p ≤ a ∧ a + k ≤ p + total bs := by
  induction bs generalizing p with
  | nil => cases h
  | cons b bs ih =>
    have hrest : (a, k) ∈ usedFrom (p + b.size) bs → p ≤ a ∧ a + k ≤ p + total (b :: bs) := by
      intro hm
      obtain ⟨h₁, h₂⟩ := ih hm
      rw [total_cons]
      omega
    rw [usedFrom] at h
    split at h
    · rcases List.mem_cons.mp h with he | hm
      · obtain ⟨rfl, rfl⟩ := Prod.mk.inj he
        rw [total_cons]
        omega
      · exact hrest hm
    · exact hrest h

theorem exists_of_mem_usedFrom {p a k : Nat} {bs : List Block} (h : (a, k) ∈ usedFrom p bs) :
    ∃ pre post, bs = pre ++ ⟨k, true⟩ :: post ∧ a = p + total pre := by
  induction bs generalizing p with
  | nil => cases h
  | cons b bs ih =>
    have hrest : (a, k) ∈ usedFrom (p + b.size) bs →
        ∃ pre post, b :: bs = pre ++ ⟨k, true⟩ :: post ∧ a = p + total pre := by
      intro hm
      obtain ⟨pre, post, rfl, ha⟩ := ih hm
      exact ⟨b :: pre, post, rfl, by rw [total_cons]; omega⟩
    rw [usedFrom] at h
    split at h
    · next hu =>
      rcases List.mem_cons.mp h with he | hm
      · obtain ⟨rfl, rfl⟩ := Prod.mk.inj he
        exact ⟨[], bs, by rw [← hu]; rfl, rfl⟩
      · exact hrest hm
    · exact hrest h

theorem usedFrom_pairwise (p : Nat) (bs : List Block) :
    (usedFrom p bs).Pairwise fun x y => x.1 + x.2 ≤ y.1 := by
  induction bs generalizing p with
  | nil => exact List.Pairwise.nil
  | cons b bs ih =>
    rw [usedFrom]
    split
    · refine List.pairwise_cons.mpr ⟨?_, ih _⟩
      intro y hy
      exact (usedFrom_bounds (a := y.1) (k := y.2) hy).1
    · exact ih _

/-- What first fit finds is a free block that is large enough, with no such block before it. -/
theorem firstFit_eq_some {w p a : Nat} {bs : List Block} (h : firstFit w p bs = some a) :
    ∃ pre n post, bs = pre ++ ⟨n, false⟩ :: post ∧ a = p + total pre ∧ w ≤ n ∧
      ∀ b ∈ pre, b.used = false → b.size < w := by
  induction bs generalizing p with
  | nil => cases h
  | cons b bs ih =>
    rw [firstFit] at h
    split at h
    · next hb =>
      obtain rfl : p = a := Option.some.inj h
      refine ⟨[], b.size, bs, by rw [← hb.1]; rfl, rfl, hb.2, ?_⟩
      intro c hc
      cases hc
    · next hb =>
      obtain ⟨pre, n, post, rfl, ha, hw, hpre⟩ := ih h
      refine ⟨b :: pre, n, post, rfl, by rw [total_cons]; omega, hw, ?_⟩
      intro c hc hfree
      rcases List.mem_cons.mp hc with rfl | hc'
      · exact Nat.lt_of_not_le fun hle => hb ⟨hfree, hle⟩
      · exact hpre c hc' hfree

theorem firstFit_eq_none {w p : Nat} {bs : List Block} :
    firstFit w p bs = none ↔ ∀ b ∈ bs, b.used = false → b.size < w := by
  induction bs generalizing p with
  | nil => simp [firstFit]
  | cons b bs ih =>
    rw [firstFit, List.forall_mem_cons]
    split
    · next hb =>
      refine iff_of_false (Option.some_ne_none p) ?_
      intro hall
      exact Nat.not_lt_of_le hb.2 (hall.1 hb.1)
    · next hb =>
      rw [ih]
      refine ⟨fun hbs => ⟨fun hf => Nat.lt_of_not_le fun hle => hb ⟨hf, hle⟩, hbs⟩, And.right⟩

theorem mem_size_lt {w : Nat} {bs : List Block} (h : total bs < w) :
    ∀ b ∈ bs, b.used = false → b.size < w :=
  fun _ hb _ => Nat.lt_of_le_of_lt (size_le_total hb) h

theorem firstFit_dropWhile (w p : Nat) (bs : List Block) :
    firstFit w (p + lead bs) (bs.dropWhile Block.used) = firstFit w p bs := by
  induction bs generalizing p with
  | nil => rfl
  | cons b bs ih =>
    cases hb : b.used with
    | false => simp [lead, hb]
    | true =>
      have hskip : firstFit w p (b :: bs) = firstFit w (p + b.size) bs := by simp [firstFit, hb]
      have hlead : lead (b :: bs) = b.size + lead bs := by simp [lead, hb]
      rw [hskip, ← ih (p + b.size), hlead, List.dropWhile_cons, if_pos hb, Nat.add_assoc]

end Rk3576.Blocks
