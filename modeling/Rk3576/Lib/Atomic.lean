import Mathlib.Logic.Function.Basic

/-! Programs cut into atomic steps over a shared state: what holds at every point of a run, and
two programs whose steps are interleaved in any order. -/
namespace Rk3576.Atomic
universe u
variable {S : Type u} {V : Type*}

/-- A step updates the state; what comes after it may depend on the state it found. -/
inductive Prog (S : Type u) where
  | done
  | act (upd : S → S) (next : S → Prog S)

namespace Prog

def upd (f : S → S) (p : Prog S) : Prog S := .act f fun _ => p

def read (n : S → Prog S) : Prog S := .act id n

def seq : Prog S → Prog S → Prog S
  | .done, q => q
  | .act f n, q => .act f fun s => (n s).seq q

def seqs : List (Prog S) → Prog S
  | [] => .done
  | p :: ps => p.seq (seqs ps)

def run : Prog S → S → S
  | .done, s => s
  | .act f n, s => (n s).run (f s)

/-- The property holds at every point of the run, before each step and at the end. -/
def Always (I : S → Prop) : Prog S → S → Prop
  | .done, s => I s
  | .act f n, s => I s ∧ (n s).Always I (f s)

@[simp] theorem run_done (s : S) : (done : Prog S).run s = s := rfl
@[simp] theorem run_upd (f : S → S) (p : Prog S) (s : S) : (upd f p).run s = p.run (f s) := rfl
@[simp] theorem run_read (n : S → Prog S) (s : S) : (read n).run s = (n s).run s := rfl

theorem run_seq (p q : Prog S) (s : S) : (p.seq q).run s = q.run (p.run s) := by
  induction p generalizing s with
  | done => rfl
  | act f n ih => exact ih s (f s)

theorem always_mono {I J : S → Prop} (hij : ∀ s, I s → J s) (p : Prog S) (s : S)
    (h : p.Always I s) :
    p.Always J s := by
  induction p generalizing s with
  | done => exact hij s h
  | act f n ih => exact ⟨hij s h.1, ih s (f s) h.2⟩

theorem always_run {I : S → Prop} (p : Prog S) (s : S) (h : p.Always I s) : I (p.run s) := by
  induction p generalizing s with
  | done => exact h
  | act f n ih => exact ih s (f s) h.2

theorem always_seq {I : S → Prop} (p q : Prog S) (s : S) (hp : p.Always I s)
    (hq : q.Always I (p.run s)) : (p.seq q).Always I s := by
  induction p generalizing s with
  | done => exact hq
  | act f n ih => exact ⟨hp.1, ih s (f s) hp.2 hq⟩

theorem always_seqs {A : Type*} {I : S → Prop} (call : A → Prog S)
    (hc : ∀ a s, I s → (call a).Always I s) (as : List A) (s : S) (hs : I s) :
    (seqs (as.map call)).Always I s := by
  induction as generalizing s with
  | nil => exact hs
  | cons a as ih =>
    have ha := hc a s hs
    exact always_seq _ _ s ha (ih _ (always_run _ s ha))

instance decidableAlways (I : S → Prop) [DecidablePred I] :
    (p : Prog S) → (s : S) → Decidable (p.Always I s)
  | .done, s => inferInstanceAs (Decidable (I s))
  | .act f n, s =>
    have : Decidable ((n s).Always I (f s)) := decidableAlways I (n s) (f s)
    inferInstanceAs (Decidable (I s ∧ (n s).Always I (f s)))

/-- `I` holds at every point of the run and `Q` at its end. -/
def Keeps (I Q : S → Prop) : Prog S → S → Prop
  | .done, s => I s ∧ Q s
  | .act f n, s => I s ∧ (n s).Keeps I Q (f s)

section Keeps
variable {I Q : S → Prop} {s : S}

theorem keeps_iff {p : Prog S} : p.Keeps I Q s ↔ p.Always I s ∧ Q (p.run s) := by
  induction p generalizing s with
  | done => exact Iff.rfl
  | act f n ih => exact (and_congr_right fun _ => ih s).trans and_assoc.symm

theorem keeps_upd {f : S → S} {p : Prog S} :
    (upd f p).Keeps I Q s ↔ I s ∧ p.Keeps I Q (f s) := Iff.rfl

theorem keeps_read {n : S → Prog S} : (read n).Keeps I Q s ↔ I s ∧ (n s).Keeps I Q s := Iff.rfl

theorem keeps_seq {p q : Prog S} (h : p.Keeps I (q.Keeps I Q) s) : (p.seq q).Keeps I Q s := by
  induction p generalizing s with
  | done => exact h.2
  | act f n ih => exact ⟨h.1, ih s h.2⟩

theorem keeps_mono {R : S → Prop} {p : Prog S} (hq : ∀ t, Q t → R t) (h : p.Keeps I Q s) :
    p.Keeps I R s := by
  rw [keeps_iff] at h ⊢
  exact ⟨h.1, hq _ h.2⟩

end Keeps

/-- The program ends after at most `n` steps, whatever it reads. -/
def Within : Nat → Prog S → Prop
  | _, .done => True
  | 0, .act _ _ => False
  | n + 1, .act _ next => ∀ s, (next s).Within n

theorem within_mono {p : Prog S} {m n : Nat} (h : p.Within m) (hmn : m ≤ n) : p.Within n := by
  induction p generalizing m n with
  | done => cases n <;> trivial
  | act f next ih =>
    cases m with
    | zero => exact h.elim
    | succ m =>
      obtain ⟨k, rfl⟩ : ∃ k, n = k + 1 := ⟨n - 1, by omega⟩
      exact fun s => ih s (h s) (by omega)

theorem within_seq {p q : Prog S} {m n : Nat} (hp : p.Within m) (hq : q.Within n) :
    (p.seq q).Within (n + m) := by
  induction p generalizing m with
  | done => exact within_mono hq (Nat.le_add_right n m)
  | act f next ih =>
    cases m with
    | zero => exact hp.elim
    | succ m => exact fun s => ih s (hp s)

theorem within_seqs {A : Type*} {call : A → Prog S} {k : Nat} (hc : ∀ a, (call a).Within k)
    (as : List A) :
    (seqs (as.map call)).Within (k * as.length) := by
  induction as with
  | nil => cases k * List.length ([] : List A) <;> trivial
  | cons a as ih =>
    rw [List.length_cons, Nat.mul_succ]
    exact within_seq (hc a) ih

def solo : Nat → Prog S → S → Prog S × S
  | n + 1, .act f next, s => solo n (next s) (f s)
  | _, p, s => (p, s)

theorem solo_done (n : Nat) (s : S) : solo n .done s = (.done, s) := by
  cases n <;> rfl

theorem solo_within {n : Nat} {p : Prog S} (h : p.Within n) (s : S) : (solo n p s).1 = .done := by
  induction n generalizing p s with
  | zero =>
    cases p with
    | done => rfl
    | act f next => exact h.elim
  | succ n ih =>
    cases p with
    | done => rfl
    | act f next => exact ih (h s) (f s)

theorem solo_run {n : Nat} {p : Prog S} {s : S} (h : (solo n p s).1 = .done) :
    (solo n p s).2 = p.run s := by
  induction n generalizing p s with
  | zero =>
    cases p with
    | done => rfl
    | act f next => cases h
  | succ n ih =>
    cases p with
    | done => rfl
    | act f next => exact ih h

/-- Steps act on the part of the state that `v` shows, and read no more than that. -/
def Local (v : S → V) : Prog S → Prop
  | .done => True
  | .act f n => ∀ s, (∀ t, v s = v t → v (f s) = v (f t) ∧ n s = n t) ∧ (n s).Local v

/-- Steps leave the part of the state that `v` shows. -/
def Silent (v : S → V) : Prog S → Prop
  | .done => True
  | .act f n => ∀ s, v (f s) = v s ∧ (n s).Silent v

theorem local_seq {v : S → V} {p q : Prog S} (hp : p.Local v) (hq : q.Local v) :
    (p.seq q).Local v := by
  induction p with
  | done => exact hq
  | act f n ih =>
    intro s
    refine ⟨fun t ht => ?_, ih s (hp s).2⟩
    obtain ⟨hf, hn⟩ := (hp s).1 t ht
    exact ⟨hf, congrArg (Prog.seq · q) hn⟩

theorem silent_seq {v : S → V} {p q : Prog S} (hp : p.Silent v) (hq : q.Silent v) :
    (p.seq q).Silent v := by
  induction p with
  | done => exact hq
  | act f n ih => exact fun s => ⟨(hp s).1, ih s (hp s).2⟩

theorem local_seqs {A : Type*} {v : S → V} {call : A → Prog S} {as : List A}
    (h : ∀ a ∈ as, (call a).Local v) : (seqs (as.map call)).Local v := by
  induction as with
  | nil => trivial
  | cons a as ih =>
    exact local_seq (h a List.mem_cons_self) (ih fun b hb => h b (List.mem_cons_of_mem a hb))

theorem silent_seqs {A : Type*} {v : S → V} {call : A → Prog S} {as : List A}
    (h : ∀ a ∈ as, (call a).Silent v) : (seqs (as.map call)).Silent v := by
  induction as with
  | nil => trivial
  | cons a as ih =>
    exact silent_seq (h a List.mem_cons_self) (ih fun b hb => h b (List.mem_cons_of_mem a hb))

/-- A property of what the steps leave alone holds throughout. -/
theorem silent_keeps {v : S → V} {I : S → Prop} (hI : ∀ s t, v s = v t → I s → I t)
    {p : Prog S} (h : p.Silent v) {s : S} (hs : I s) : p.Keeps I (fun t => v t = v s) s := by
  induction p generalizing s with
  | done => exact ⟨hs, rfl⟩
  | act f n ih =>
    have hv := (h s).1
    refine ⟨hs, keeps_mono (fun t ht => ht.trans hv) (ih s (h s).2 (hI s (f s) hv.symm hs))⟩

end Prog

structure Pair (S : Type u) where
  left : Prog S
  right : Prog S
  state : S

namespace Pair

/-- One step of the program whose turn it is, nothing if that program has ended. -/
def turn (x : Pair S) : Bool → Pair S
  | true =>
    match x.left with
    | .done => x
    | .act f n => { x with left := n x.state, state := f x.state }
  | false =>
    match x.right with
    | .done => x
    | .act f n => { x with right := n x.state, state := f x.state }

def interleave : List Bool → Pair S → Pair S
  | [], x => x
  | b :: bs, x => interleave bs (x.turn b)

def swap (x : Pair S) : Pair S := ⟨x.right, x.left, x.state⟩

theorem turn_swap (x : Pair S) (b : Bool) : (x.turn b).swap = x.swap.turn (!b) := by
  cases x with
  | mk p q s => cases b <;> cases p <;> cases q <;> rfl

theorem interleave_swap (bs : List Bool) (x : Pair S) :
    (interleave bs x).swap = interleave (bs.map not) x.swap := by
  induction bs generalizing x with
  | nil => rfl
  | cons b bs ih => rw [interleave, ih, turn_swap]; rfl

/-- Whatever the schedule, a program that acts on what `v` shows does, beside one that leaves
that alone, exactly what it does by itself. -/
theorem interleave_left {v : S → V} {p q : Prog S} (hp : p.Local v) (hq : q.Silent v) {s t : S}
    (hst : v s = v t) (bs : List Bool) :
    (interleave bs ⟨p, q, s⟩).left = (Prog.solo (bs.count true) p t).1 ∧
      v (interleave bs ⟨p, q, s⟩).state = v (Prog.solo (bs.count true) p t).2 := by
  induction bs generalizing p q s t with
  | nil =>
    cases p with
    | done => exact ⟨rfl, hst⟩
    | act f n => exact ⟨rfl, hst⟩
  | cons b bs ih =>
    cases b with
    | true =>
      rw [List.count_cons_self]
      cases p with
      | done =>
        have h := ih (p := .done) hp hq hst
        rw [Prog.solo_done] at h ⊢
        exact h
      | act f n =>
        obtain ⟨hf, hn⟩ := (hp s).1 t hst
        have h := ih (hp s).2 hq hf
        have hsolo :
            Prog.solo (bs.count true + 1) (.act f n) t = Prog.solo (bs.count true) (n s) (f t) := by
          rw [hn]
          rfl
        rw [hsolo]
        exact h
    | false =>
      rw [List.count_cons_of_ne (by decide)]
      cases q with
      | done => exact ih hp hq hst
      | act f n => exact ih hp (hq s).2 ((hq s).1.trans hst)

theorem interleave_ends {v : S → V} {p q : Prog S} (hp : p.Local v) (hq : q.Silent v)
    (s : S) {bs : List Bool}
    {n : Nat} (hw : p.Within n) (hb : n ≤ bs.count true) :
    (interleave bs ⟨p, q, s⟩).left = .done := by
  rw [(interleave_left hp hq rfl bs).1]
  exact Prog.solo_within (Prog.within_mono hw hb) s

theorem interleave_run {v : S → V} {p q : Prog S} (hp : p.Local v) (hq : q.Silent v)
    (s : S) {bs : List Bool}
    (hd : (interleave bs ⟨p, q, s⟩).left = .done) :
    v (interleave bs ⟨p, q, s⟩).state = v (p.run s) := by
  obtain ⟨hl, hv⟩ := interleave_left hp hq (rfl : v s = v s) bs
  rw [hv, Prog.solo_run (hl ▸ hd)]

end Pair

section Components
universe w
variable {I : Type*} {C : Type w} [DecidableEq I] (view : S → I → C)

def Changes (f : S → S) (i : I) (F : C → C) : Prop :=
  ∀ s, view (f s) = Function.update (view s) i (F (view s i))

/-- Step by step the first program does to component `i` what the second does to a state that is
that component, and it reads nothing else. -/
def Tracks (i : I) : Prog S → Prog C → Prop
  | .done, .done => True
  | .act f n, .act F N =>
    Changes view f i F ∧ ∀ s, Tracks i (n s) (N (view s i)) ∧ ∀ t, view s i = view t i → n s = n t
  | _, _ => False

variable {view} {i : I}

theorem changes_of_parts {f : S → S} {F : C → C} (hi : ∀ s, view (f s) i = F (view s i))
    (ho : ∀ s j, j ≠ i → view (f s) j = view s j) : Changes view f i F := by
  intro s
  funext j
  by_cases h : j = i
  · subst h
    rw [Function.update_self, hi]
  · rw [Function.update_of_ne h, ho s j h]

theorem tracks_done : Tracks view i .done .done := trivial

theorem tracks_upd {f : S → S} {F : C → C} {p : Prog S} {a : Prog C} (hf : Changes view f i F)
    (hp : Tracks view i p a) : Tracks view i (.upd f p) (.upd F a) :=
  ⟨hf, fun _ => ⟨hp, fun _ _ => rfl⟩⟩

theorem tracks_read {n : S → Prog S} {N : C → Prog C} (hn : ∀ s, Tracks view i (n s) (N (view s i)))
    (hr : ∀ s t, view s i = view t i → n s = n t) : Tracks view i (.read n) (.read N) := by
  refine ⟨fun s => ?_, fun s => ⟨hn s, hr s⟩⟩
  exact (Function.update_eq_self i (view s)).symm

theorem tracks_run {p : Prog S} {a : Prog C} (h : Tracks view i p a) (s : S) :
    view (p.run s) = Function.update (view s) i (a.run (view s i)) := by
  induction p generalizing a s with
  | done =>
    cases a with
    | done => exact (Function.update_eq_self i (view s)).symm
    | act F N => exact h.elim
  | act f n ih =>
    cases a with
    | done => exact h.elim
    | act F N =>
      have hs := ih s (h.2 s).1 (f s)
      rw [h.1 s, Function.update_self, Function.update_idem] at hs
      exact hs

/-- What holds of every component, with the tracked one watched at each point. -/
theorem tracks_always {p : Prog S} {a : Prog C} (h : Tracks view i p a) {J : C → Prop} (s : S)
    (ha : a.Always J (view s i)) (ho : ∀ j, j ≠ i → J (view s j)) :
    p.Always (fun t => ∀ j, J (view t j)) s := by
  have hall : ∀ {t : S}, J (view t i) → (∀ j, j ≠ i → J (view t j)) → ∀ j, J (view t j) := by
    intro t hi ho j
    by_cases hj : j = i
    · exact hj ▸ hi
    · exact ho j hj
  induction p generalizing a s with
  | done =>
    cases a with
    | done => exact hall ha ho
    | act F N => exact h.elim
  | act f n ih =>
    cases a with
    | done => exact h.elim
    | act F N =>
      refine ⟨hall ha.1 ho, ih s (h.2 s).1 (f s) ?_ fun j hj => ?_⟩
      · rw [h.1 s, Function.update_self]
        exact ha.2
      · rw [h.1 s, Function.update_of_ne hj]
        exact ho j hj

def viewOn (view : S → I → C) (P : I → Prop) (s : S) : {i // P i} → C := fun j => view s j

theorem tracks_local {p : Prog S} {a : Prog C} (h : Tracks view i p a) {P : I → Prop} (hi : P i) :
    p.Local (viewOn view P) := by
  induction p generalizing a with
  | done => trivial
  | act f n ih =>
    cases a with
    | done => exact h.elim
    | act F N =>
      refine fun s => ⟨fun t hv => ?_, ih s (h.2 s).1⟩
      have hview : ∀ j, P j → view s j = view t j := fun j hj => congrFun hv ⟨j, hj⟩
      refine ⟨funext fun j => ?_, (h.2 s).2 t (hview i hi)⟩
      simp only [viewOn, h.1 s, h.1 t, hview i hi]
      by_cases hj : j.val = i
      · rw [hj, Function.update_self, Function.update_self]
      · rw [Function.update_of_ne hj, Function.update_of_ne hj, hview j j.2]

theorem tracks_silent {p : Prog S} {a : Prog C} (h : Tracks view i p a) {P : I → Prop} (hi : ¬P i) :
    p.Silent (viewOn view P) := by
  induction p generalizing a with
  | done => trivial
  | act f n ih =>
    cases a with
    | done => exact h.elim
    | act F N =>
      refine fun s => ⟨funext fun j => ?_, ih s (h.2 s).1⟩
      have hj : j.val ≠ i := fun he => hi (he ▸ j.2)
      simp only [viewOn, h.1 s, Function.update_of_ne hj]

end Components
end Rk3576.Atomic
