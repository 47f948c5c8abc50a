import Mathlib.Logic.Function.Basic

/-! A window of consecutive tickets laid over a ring of `n` flags. Ticket `j` lives in
slot `j % n`; the tickets from `lo` up to `hi` have their flag down, the others of the
window up. -/
namespace Rk3576.RingWindow

theorem ticket_eq {n lo i j : Nat} (hi : lo ≤ i) (hi' : i < lo + n) (hj : lo ≤ j) (hj' : j < lo + n)
    (h : i % n = j % n) : i = j := by
  have hi := Nat.div_add_mod i n
  have hj := Nat.div_add_mod j n
  have hq : i / n = j / n := by
    by_contra hne
    cases Nat.lt_or_gt_of_ne hne with
    | inl hlt =>
      have hm := Nat.mul_le_mul_left n (Nat.succ_le_of_lt hlt)
      rw [Nat.mul_succ] at hm
      omega
    | inr hgt =>
      have hm := Nat.mul_le_mul_left n (Nat.succ_le_of_lt hgt)
      rw [Nat.mul_succ] at hm
      omega
  rw [← hi, ← hj, hq, h]

structure Window (n lo hi : Nat) (own : Nat → Bool) : Prop where
  le : lo ≤ hi
  cap : hi ≤ lo + n
  own : ∀ j, lo ≤ j → j < lo + n → own (j % n) = decide (hi ≤ j)

variable {n lo hi : Nat} {own : Nat → Bool}

theorem Window.init (hown : ∀ i, i < n → own i = true) : Window n 0 0 own where
  le := Nat.le_refl 0
  cap := Nat.zero_le _
  own j _ hj := by
    have hlt : j < n := by omega
    rw [Nat.mod_eq_of_lt hlt, hown j hlt]
    simp

theorem Window.lt_of_own (h : Window n lo hi own) (hn : 0 < n) (ho : own (hi % n) = true) :
    hi < lo + n := by
  by_contra hge
  have heq : hi = lo + n := by have := h.cap; omega
  have hlo := h.own lo (Nat.le_refl lo) (by omega)
  rw [heq, Nat.add_mod_right, hlo] at ho
  have := of_decide_eq_true ho
  omega

theorem Window.lt_of_not_own (h : Window n lo hi own) (hn : 0 < n) (ho : own (lo % n) = false) :
    lo < hi := by
  rw [h.own lo (Nat.le_refl lo) (by omega)] at ho
  have := of_decide_eq_false ho
  omega

theorem Window.fill (h : Window n lo hi own) (hlt : hi < lo + n) :
    Window n lo (hi + 1) (Function.update own (hi % n) false) where
  le := Nat.le_succ_of_le h.le
  cap := hlt
  own j hj hj' := by
    by_cases he : j = hi
    · subst he
      simp
    · have hne : j % n ≠ hi % n := fun hm => he (ticket_eq hj hj' h.le hlt hm)
      rw [Function.update_of_ne hne, h.own j hj hj']
      simp only [decide_eq_decide]
      omega

theorem Window.release (h : Window n lo hi own) (hlt : lo < hi) :
    Window n (lo + 1) hi (Function.update own (lo % n) true) where
  le := hlt
  cap := by have := h.cap; omega
  own j hj hj' := by
    by_cases he : j = lo + n
    · have hcap := h.cap
      rw [he, Nat.add_mod_right, Function.update_self]
      simp only [true_eq_decide_iff]
      exact hcap
    · have hlt' : j < lo + n := by omega
      have hne : j % n ≠ lo % n := fun hm => by
        have := ticket_eq (by omega) hlt' (Nat.le_refl lo) (by omega) hm
        omega
      rw [Function.update_of_ne hne, h.own j (by omega) hlt']

end Rk3576.RingWindow
