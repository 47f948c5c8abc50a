import Mathlib.Logic.Function.Basic
import Mathlib.Data.List.Basic
import Mathlib.Data.Nat.ModEq

/-! A ring of `n` cells read from `start` on: the `count` items in it, oldest first. -/
namespace Rk3576.Ring
variable {α : Type*}

def items (buf : Nat → α) (n start count : Nat) : List α :=
  (List.range count).map fun k => buf ((start + k) % n)

def succ (n i : Nat) : Nat := if i + 1 ≥ n then 0 else i + 1

theorem succ_eq {n i : Nat} (h : i < n) : succ n i = (i + 1) % n := by
  rw [succ]
  split
  · have he : i + 1 = n := by omega
    rw [he, Nat.mod_self]
  · rw [Nat.mod_eq_of_lt (by omega)]

theorem succ_lt {n i : Nat} (h : 0 < n) : succ n i < n := by
  rw [succ]
  split <;> omega

@[simp] theorem items_length (buf : Nat → α) (n start count : Nat) :
    (items buf n start count).length = count := by
  simp [items]

@[simp] theorem items_zero (buf : Nat → α) (n start : Nat) : items buf n start 0 = [] := rfl

theorem items_congr {buf buf' : Nat → α} {n start count : Nat}
    (h : ∀ k, k < count → buf ((start + k) % n) = buf' ((start + k) % n)) :
    items buf n start count = items buf' n start count := by
  apply List.map_congr_left
  intro k hk
  exact h k (List.mem_range.mp hk)

theorem items_pop (buf : Nat → α) {n start : Nat} (count : Nat) (h : start < n) :
    items buf n start (count + 1) = buf start :: items buf n (succ n start) count := by
  rw [items, List.range_succ_eq_map, List.map_cons, List.map_map, Nat.add_zero,
    Nat.mod_eq_of_lt h, succ_eq h]
  congr 1
  apply List.map_congr_left
  intro k _
  have hk : (start + 1 + k) % n = (start + (k + 1)) % n := by
    rw [Nat.add_assoc, Nat.add_comm 1 k]
  rw [Function.comp_apply, Nat.mod_add_mod, hk]

theorem slot_ne {n start j k : Nat} (hj : j < n) (hk : k < n) (hne : j ≠ k) :
    (start + j) % n ≠ (start + k) % n := by
  intro h
  have hmod : j ≡ k [MOD n] := Nat.ModEq.add_left_cancel' start h
  rw [Nat.ModEq, Nat.mod_eq_of_lt hj, Nat.mod_eq_of_lt hk] at hmod
  exact hne hmod

theorem items_push (buf : Nat → α) {n start count : Nat} (h : count < n) (a : α) :
    items (Function.update buf ((start + count) % n) a) n start (count + 1) =
      items buf n start count ++ [a] := by
  have hold : items (Function.update buf ((start + count) % n) a) n start count =
      items buf n start count := by
    apply items_congr
    intro k hk
    exact Function.update_of_ne (slot_ne (by omega) h (by omega)) _ _
  rw [items, List.range_succ, List.map_append, List.map_singleton, Function.update_self]
  exact congrArg (· ++ [a]) hold

theorem items_unshift (buf : Nat → α) {n start prev count : Nat} (hp : prev < n)
    (hs : succ n prev = start) (h : count < n)
    (a : α) :
    items (Function.update buf prev a) n prev (count + 1) = a :: items buf n start count := by
  rw [items_pop _ _ hp, hs, Function.update_self]
  congr 1
  apply items_congr
  intro k hk
  have hslot : (start + k) % n = (prev + (k + 1)) % n := by
    rw [← hs, succ_eq hp, Nat.mod_add_mod]
    congr 1
    omega
  have hne : (prev + (k + 1)) % n ≠ prev % n := slot_ne (by omega) (k := 0) (by omega) (by omega)
  rw [Nat.mod_eq_of_lt hp] at hne
  rw [hslot]
  exact Function.update_of_ne hne _ _

end Rk3576.Ring
