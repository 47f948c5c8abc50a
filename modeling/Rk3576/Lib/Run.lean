import Mathlib.Logic.Function.Basic
import Mathlib.Data.List.Induction

/-! Finite runs of a partial step function. The actions carry all the
nondeterminism, so a run is a list of actions and an interleaving is an order of
that list. Nothing here knows what the states are. -/
namespace Rk3576.Run
variable {S A : Type*} (step : S → A → Option S)

def runs : S → List A → Option S
  | s, [] => some s
  | s, a :: as => (step s a).bind fun t => runs t as

/-- Every step of the run satisfies `ok`, seen as (state before, action, state after). -/
def Along (ok : S → A → S → Prop) : S → List A → Prop
  | _, [] => True
  | s, a :: as =>
    match step s a with
    | none => True
    | some t => ok s a t ∧ Along ok t as

instance decidableAlong (ok : S → A → S → Prop) [∀ s a t, Decidable (ok s a t)] :
    (s : S) → (as : List A) → Decidable (Along step ok s as)
  | _, [] => isTrue trivial
  | s, a :: as =>
    match h : step s a with
    | none => isTrue (by simp [Along, h])
    | some t =>
      have : Decidable (Along step ok t as) := decidableAlong ok t as
      decidable_of_iff (ok s a t ∧ Along step ok t as) (by simp [Along, h])

variable {step} {ok : S → A → S → Prop}

theorem runs_cons {s t : S} {a : A} {as : List A} :
    runs step s (a :: as) = some t ↔ ∃ u, step s a = some u ∧ runs step u as = some t := by
  simp [runs, Option.bind_eq_some_iff]

theorem runs_append {s t : S} {as bs : List A} :
    runs step s (as ++ bs) = some t ↔ ∃ u, runs step s as = some u ∧ runs step u bs = some t := by
  induction as generalizing s with
  | nil => simp [runs]
  | cons a as ih =>
    simp only [List.cons_append, runs_cons, ih]
    constructor
    · rintro ⟨u, hu, v, hv, ht⟩
      exact ⟨v, ⟨u, hu, hv⟩, ht⟩
    · rintro ⟨v, ⟨u, hu, hv⟩, ht⟩
      exact ⟨u, hu, v, hv, ht⟩

theorem along_cons {s t : S} {a : A} {as : List A} (h : step s a = some t) :
    Along step ok s (a :: as) ↔ ok s a t ∧ Along step ok t as := by
  simp [Along, h]

theorem along_append {s t : S} {as bs : List A} (hr : runs step s as = some t) :
    Along step ok s (as ++ bs) ↔ Along step ok s as ∧ Along step ok t bs := by
  induction as generalizing s with
  | nil =>
    obtain rfl : s = t := by simpa [runs] using hr
    simp [Along]
  | cons a as ih =>
    obtain ⟨u, hu, hr'⟩ := runs_cons.mp hr
    rw [List.cons_append, along_cons hu, along_cons hu, ih hr', and_assoc]

theorem along_snoc {s t u : S} {a : A} {as : List A}
    (hr : runs step s as = some t) (hs : step t a = some u) :
    Along step ok s (as ++ [a]) ↔ Along step ok s as ∧ ok t a u := by
  rw [along_append hr, along_cons hs]
  simp [Along]

theorem along_and {ok' : S → A → S → Prop} {s : S} {as : List A} (h : Along step ok s as)
    (h' : Along step ok' s as) : Along step (fun s a t => ok s a t ∧ ok' s a t) s as := by
  induction as generalizing s with
  | nil => trivial
  | cons a as ih =>
    cases ha : step s a with
    | none => simp [Along, ha]
    | some t =>
      rw [along_cons ha] at h h' ⊢
      exact ⟨⟨h.1, h'.1⟩, ih h.2 h'.2⟩

theorem along_of_forall {P : A → Prop} {as : List A} (h : ∀ a ∈ as, P a) (s : S) :
    Along step (fun _ a _ => P a) s as := by
  induction as generalizing s with
  | nil => trivial
  | cons a as ih =>
    cases ha : step s a with
    | none => simp [Along, ha]
    | some t =>
      rw [along_cons ha]
      exact ⟨h a List.mem_cons_self, ih (fun b hb => h b (List.mem_cons_of_mem a hb)) t⟩

theorem runs_induction {s : S} {motive : List A → S → Prop} (nil : motive [] s)
    (snoc : ∀ as t a u, runs step s as = some t → motive as t → step t a = some u →
      motive (as ++ [a]) u) {as : List A} {t : S} (h : runs step s as = some t) :
    motive as t := by
  induction as using List.reverseRecOn generalizing t with
  | nil =>
    obtain rfl : s = t := by simpa [runs] using h
    exact nil
  | append_singleton as a ih =>
    obtain ⟨u, hu, ha⟩ := runs_append.mp h
    obtain ⟨v, hv, hr⟩ := runs_cons.mp ha
    obtain rfl : v = t := by simpa [runs] using hr
    exact snoc as u a v hu (ih hu) hv

/-- What every step preserves, every run preserves. -/
theorem runs_invariant {I : S → Prop}
    (hs : ∀ s a t, I s → step s a = some t → I t) {s t : S} {as : List A}
    (h : I s) (hr : runs step s as = some t) : I t :=
  runs_induction (motive := fun _ t => I t) h (fun _ u a v _ hu hv => hs u a v hu hv) hr

/-- What every step that meets `ok` preserves, every run whose steps all meet `ok` preserves. -/
theorem runs_invariant_along {I : S → Prop}
    (hs : ∀ s a t, I s → ok s a t → step s a = some t → I t) {s t : S} {as : List A}
    (h : I s) (ha : Along step ok s as) (hr : runs step s as = some t) : I t := by
  induction as generalizing s with
  | nil =>
    obtain rfl : s = t := by simpa [runs] using hr
    exact h
  | cons a as ih =>
    obtain ⟨u, hu, hr'⟩ := runs_cons.mp hr
    obtain ⟨ho, ha'⟩ := (along_cons hu).mp ha
    exact ih (hs s a u h ho hu) ha' hr'

theorem along_of_invariant_along {ok' : S → A → S → Prop} {I : S → Prop}
    (hs : ∀ s a t, I s → ok' s a t → step s a = some t → I t ∧ ok s a t) {s : S} (h : I s)
    {as : List A} (ha : Along step ok' s as) : Along step ok s as := by
  induction as generalizing s with
  | nil => trivial
  | cons a as ih =>
    cases hstep : step s a with
    | none => simp [Along, hstep]
    | some t =>
      rw [along_cons hstep] at ha ⊢
      obtain ⟨ht, ho⟩ := hs s a t h ha.1 hstep
      exact ⟨ho, ih ht ha.2⟩

/-- Two machines driven by the same actions, related as long as the second meets `ok'`. A step
meets `ok` in the first exactly if it meets `ok'` in the second. -/
theorem along_iff_of_lockstep {T : Type*} {step' : T → A → Option T} {ok' : T → A → T → Prop}
    {R : S → T → Prop} (hs : ∀ s t a, R s t → ∃ s' t', step s a = some s' ∧ step' t a = some t' ∧
      (ok s a s' ↔ ok' t a t') ∧ (ok' t a t' → R s' t')) {s : S} {t : T} (h : R s t) (as : List A) :
    Along step ok s as ↔ Along step' ok' t as := by
  induction as generalizing s t with
  | nil => exact Iff.rfl
  | cons a as ih =>
    obtain ⟨s', t', hs1, ht1, hok, hR⟩ := hs s t a h
    rw [along_cons hs1, along_cons ht1, hok]
    exact and_congr_right fun ho => ih (hR ho)

end Rk3576.Run
