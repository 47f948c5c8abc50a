import Mathlib.Data.List.Basic

/-! The changes of a sampled signal: a sample is reported when its value differs from that of
the one before it. A sample may carry more than the value that is compared. -/
namespace Rk3576.Edges
variable {α β : Type*}

def last (x : α) (ys : List α) : α := ys.getLast?.getD x

@[simp] theorem last_nil (x : α) : last x [] = x := rfl

@[simp] theorem last_snoc (x y : α) (ys : List α) : last x (ys ++ [y]) = y := by
  simp [last]

theorem last_cons (x y : α) (ys : List α) : last x (y :: ys) = last y ys := by
  cases ys with
  | nil => rfl
  | cons z zs => simp [last, List.getLast?_cons]

variable [DecidableEq α] (f : β → α)

def edges : α → List β → List β
  | _, [] => []
  | x, y :: ys => if f y = x then edges x ys else y :: edges (f y) ys

theorem edges_snoc (x : α) (y : β) (ys : List β) :
    edges f x (ys ++ [y]) = edges f x ys ++ if f y = last x (ys.map f) then [] else [y] := by
  induction ys generalizing x with
  | nil => by_cases h : f y = x <;> simp [edges, h]
  | cons z zs ih =>
    rw [List.cons_append, List.map_cons, last_cons]
    by_cases h : f z = x
    · subst h
      simp only [edges, if_true, ih]
    · simp only [edges, h, if_false, ih, List.cons_append]

theorem edges_alternate (x : α) (ys : List β) : (x :: (edges f x ys).map f).IsChain (· ≠ ·) := by
  induction ys generalizing x with
  | nil => exact .singleton x
  | cons y ys ih =>
    by_cases h : f y = x
    · simpa only [edges, h, if_true] using ih x
    · simp only [edges, h, if_false]
      exact .cons_cons (fun he => h he.symm) (ih (f y))

end Rk3576.Edges
