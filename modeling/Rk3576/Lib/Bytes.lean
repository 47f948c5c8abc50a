import Mathlib.Logic.Function.Basic
import Mathlib.Data.List.Basic

/-! Flat memories: reading and writing runs of cells. -/
namespace Rk3576.Bytes
variable {β : Type*}

def slice (m : Nat → β) (o n : Nat) : List β := (List.range n).map fun k => m (o + k)

def blit (m : Nat → β) (o : Nat) (l : List β) : Nat → β :=
  fun a => if a < o then m a else (l[a - o]?).getD (m a)

@[simp] theorem slice_length (m : Nat → β) (o n : Nat) : (slice m o n).length = n := by
  simp [slice]

@[simp] theorem slice_zero (m : Nat → β) (o : Nat) : slice m o 0 = [] := rfl

theorem slice_succ (m : Nat → β) (o n : Nat) :
    slice m o (n + 1) = slice m o n ++ [m (o + n)] := by
  simp [slice, List.range_succ]

theorem slice_congr {m m' : Nat → β} {o n : Nat} (h : ∀ a, o ≤ a → a < o + n → m a = m' a) :
    slice m o n = slice m' o n := by
  apply List.map_congr_left
  intro k hk
  exact h (o + k) (Nat.le_add_right o k) (Nat.add_lt_add_left (List.mem_range.mp hk) o)

theorem slice_update {m : Nat → β} {o n a : Nat} (b : β) (h : a < o ∨ o + n ≤ a) :
    slice (Function.update m a b) o n = slice m o n := by
  apply slice_congr
  intro c hc hc'
  have hne : c ≠ a := by omega
  exact Function.update_of_ne hne b m

theorem blit_of_not_mem {m : Nat → β} {o a : Nat} {l : List β} (h : a < o ∨ o + l.length ≤ a) :
    blit m o l a = m a := by
  unfold blit
  split
  · rfl
  · rw [List.getElem?_eq_none (by omega)]
    rfl

theorem blit_of_mem {m : Nat → β} {o k : Nat} {l : List β} (h : k < l.length) :
    blit m o l (o + k) = l[k] := by
  have hge : ¬ o + k < o := by omega
  simp [blit, hge, h]

theorem slice_blit_disjoint {m : Nat → β} {o n p : Nat} {l : List β}
    (h : o + n ≤ p ∨ p + l.length ≤ o) : slice (blit m p l) o n = slice m o n := by
  apply slice_congr
  intro a ha ha'
  exact blit_of_not_mem (by omega)

theorem slice_blit {m : Nat → β} {o : Nat} (l : List β) :
    slice (blit m o l) o l.length = l := by
  apply List.ext_getElem (by simp)
  intro k h₁ h₂
  simpa [slice] using blit_of_mem (m := m) (o := o) h₂

end Rk3576.Bytes
