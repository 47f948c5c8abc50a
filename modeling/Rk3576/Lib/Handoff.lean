import Mathlib.Logic.Function.Basic

/-! One slot at a time is handed from a producer to a consumer around a ring of `n`
slots. The producer fills the slot at its own index, raises the slot's flag, waits for
the consumer to lower it, and only then advances; the consumer keeps an index of its own. -/
namespace Rk3576.Handoff

inductive Phase where
  | free | armed | sent
  deriving DecidableEq, Repr

structure Ring where
  phase : Phase
  index : Nat
  engine : Nat
  own : Nat → Bool

/-- The steps of the protocol. A producer that gives up waiting is not among them. -/
inductive Step (n : Nat) : Ring → Ring → Prop
  | stay (r : Ring) : Step n r r
  | arm (r : Ring) (h : r.phase = .free) :
      Step n r { r with phase := .armed, own := Function.update r.own r.index true }
  | complete (r : Ring) (h : r.own r.engine = true) :
      Step n r { r with own := Function.update r.own r.engine false, engine := (r.engine + 1) % n }
  | observe (r : Ring) (h : r.phase = .armed) (hc : r.own r.index = false) :
      Step n r { r with phase := .sent }
  | advance (r : Ring) (h : r.phase = .sent) :
      Step n r { r with phase := .free, index := (r.index + 1) % n }

/-- The two indices differ only while the slot has been taken and not yet acknowledged. -/
structure Sync (n : Nat) (r : Ring) : Prop where
  index_lt : r.index < n
  others : ∀ i, i < n → i ≠ r.index → r.own i = false
  idle : r.own r.index = false → r.phase = .free → r.engine = r.index
  owned : r.own r.index = true → r.phase = .armed ∧ r.engine = r.index
  taken : r.own r.index = false → r.phase ≠ .free → r.engine = (r.index + 1) % n

theorem Sync.engine_lt {n : Nat} {r : Ring} (h : Sync n r) : r.engine < n := by
  have hn : 0 < n := Nat.lt_of_le_of_lt (Nat.zero_le _) h.index_lt
  cases ho : r.own r.index with
  | true => rw [(h.owned ho).2]; exact h.index_lt
  | false =>
    by_cases hp : r.phase = .free
    · rw [h.idle ho hp]; exact h.index_lt
    · rw [h.taken ho hp]; exact Nat.mod_lt _ hn

/-- The consumer only ever takes the slot the producer stands at. -/
theorem Sync.engine_eq_of_own {n : Nat} {r : Ring} (h : Sync n r)
    (ho : r.own r.engine = true) : r.engine = r.index := by
  by_contra hne
  rw [h.others r.engine h.engine_lt hne] at ho
  exact Bool.false_ne_true ho

theorem Sync.step {n : Nat} {r r' : Ring} (h : Sync n r) (hs : Step n r r') : Sync n r' := by
  cases hs with
  | stay => exact h
  | arm hp =>
    have ho : r.own r.index = false := by
      cases ho : r.own r.index with
      | false => rfl
      | true => simp [(h.owned ho).1] at hp
    refine ⟨h.index_lt, fun i hi hne => ?_, by simp, fun _ => ⟨rfl, h.idle ho hp⟩, by simp⟩
    simpa [Function.update_of_ne hne] using h.others i hi hne
  | complete ho =>
    have he := h.engine_eq_of_own ho
    have ha : r.phase = .armed := (h.owned (he ▸ ho)).1
    refine ⟨h.index_lt, fun i hi hne => ?_, by simp [ha], by simp [he], fun _ _ => by rw [he]⟩
    have hne' : i ≠ r.engine := by rw [he]; exact hne
    simpa [Function.update_of_ne hne'] using h.others i hi hne
  | observe hp hc =>
    refine ⟨h.index_lt, h.others, by simp, by simp [hc], fun _ _ => ?_⟩
    exact h.taken hc (by simp [hp])
  | advance hp =>
    have hn : 0 < n := Nat.lt_of_le_of_lt (Nat.zero_le _) h.index_lt
    have hc : r.own r.index = false := by
      cases ho : r.own r.index with
      | false => rfl
      | true => simp [(h.owned ho).1] at hp
    have hall : ∀ i, i < n → r.own i = false := by
      intro i hi
      by_cases hne : i = r.index
      · rw [hne]; exact hc
      · exact h.others i hi hne
    have hnext : r.own ((r.index + 1) % n) = false := hall _ (Nat.mod_lt _ hn)
    exact ⟨Nat.mod_lt _ hn, fun i hi _ => hall i hi, fun _ _ => h.taken hc (by simp [hp]),
      by simp [hnext], by simp⟩

end Rk3576.Handoff
