import Rk3576.Lib.Run

/-! Runs of a machine whose user keeps to a contract: before each action the contract's condition
holds in the state reached so far. The machine may get stuck, and the rule shows it does not. -/
namespace Rk3576.Run
variable {S A : Type*} (step : S → A → Option S) (pre : S → A → Prop)

def Respects : S → List A → Prop
  | _, [] => True
  | s, a :: as => pre s a ∧ ∀ t, step s a = some t → Respects t as

variable {step pre}

instance decidableRespects [∀ s a, Decidable (pre s a)] :
    (s : S) → (as : List A) → Decidable (Respects step pre s as)
  | _, [] => isTrue trivial
  | s, a :: as =>
    match h : step s a with
    | none => decidable_of_iff (pre s a) (by simp [Respects, h])
    | some t =>
      have : Decidable (Respects step pre t as) := decidableRespects t as
      decidable_of_iff (pre s a ∧ Respects step pre t as) (by simp [Respects, h])

/-- Under the contract an invariant that every allowed action can be taken in, and keeps, takes
every run to its end. -/
theorem runs_of_respects {I : S → Prop}
    (hs : ∀ s a, I s → pre s a → ∃ t, step s a = some t ∧ I t) {s : S}
    (h : I s) {as : List A} (hr : Respects step pre s as) : ∃ t, runs step s as = some t ∧ I t := by
  induction as generalizing s with
  | nil => exact ⟨s, rfl, h⟩
  | cons a as ih =>
    obtain ⟨t, ht, hI⟩ := hs s a h hr.1
    obtain ⟨u, hu, hIu⟩ := ih hI (hr.2 t ht)
    exact ⟨u, runs_cons.mpr ⟨t, ht, hu⟩, hIu⟩

end Rk3576.Run
