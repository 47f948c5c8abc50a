import Mathlib.Algebra.Group.Nat.Defs
import Mathlib.Data.Nat.Find
import Mathlib.Logic.Function.Iterate

/-! Loops that poll a condition until a deadline, and deadlines on a counter of `w` bits that
wraps. -/
namespace Rk3576.Poll
variable {S : Type*} {w : Nat}

/-- The deadline is now or past, by the sign of the difference. -/
def reached (now timeout : BitVec w) : Bool := decide (0 ≤ (now - timeout).toInt)

/-- Poll while busy, and give up once the clock shows the deadline. The Boolean tells whether the
condition was met; `none` means more rounds than `fuel`. -/
def poll (busy : S → Bool × S) (clock : S → BitVec w × S) (timeout : BitVec w) :
    Nat → S → Option (Bool × S)
  | 0, _ => none
  | fuel + 1, s =>
    let b := busy s
    if b.1 then
      let c := clock b.2
      if reached c.1 timeout then some (false, c.2) else poll busy clock timeout fuel c.2
    else some (true, b.2)

def round (busy : S → Bool × S) (clock : S → BitVec w × S) (s : S) : S := (clock (busy s).2).2

section Loop
variable {busy : S → Bool × S} {clock : S → BitVec w × S} {timeout : BitVec w}

/-- What the loop sees in its rounds: the condition is `B`, the clock is `T`. -/
structure Sees (busy : S → Bool × S) (clock : S → BitVec w × S) (s : S) (B : Nat → Bool)
    (T : Nat → BitVec w) :
    Prop where
  cond : ∀ j, (busy ((round busy clock)^[j] s)).1 = B j
  time : ∀ j, (clock (busy ((round busy clock)^[j] s)).2).1 = T j

theorem Sees.next {s : S} {B : Nat → Bool} {T : Nat → BitVec w} (h : Sees busy clock s B T) :
    Sees busy clock (round busy clock s) (fun j => B (j + 1)) fun j => T (j + 1) where
  cond j := h.cond (j + 1)
  time j := h.time (j + 1)

theorem poll_succ {s : S} {B : Nat → Bool} {T : Nat → BitVec w} (h : Sees busy clock s B T)
    (fuel : Nat) :
    poll busy clock timeout (fuel + 1) s =
      if B 0 then
        if reached (T 0) timeout then some (false, round busy clock s)
        else poll busy clock timeout fuel (round busy clock s)
      else some (true, (busy s).2) := by
  have hb : (busy s).1 = B 0 := h.cond 0
  have hc : (clock (busy s).2).1 = T 0 := h.time 0
  simp only [poll, hb, hc, round]

structure Ends (B : Nat → Bool) (T : Nat → BitVec w) (timeout : BitVec w) (k : Nat)
    (ok : Bool) : Prop where
  before : ∀ j < k, B j = true ∧ reached (T j) timeout = false
  at_busy : B k = !ok
  at_late : ok = false → reached (T k) timeout = true

theorem poll_some {s : S} {B : Nat → Bool} {T : Nat → BitVec w} (h : Sees busy clock s B T)
    {fuel : Nat} {ok : Bool} {t : S} (hp : poll busy clock timeout fuel s = some (ok, t)) :
    ∃ k, Ends B T timeout k ok ∧
      t = if ok then (busy ((round busy clock)^[k] s)).2 else (round busy clock)^[k + 1] s := by
  induction fuel generalizing s B T with
  | zero => cases hp
  | succ fuel ih =>
    rw [poll_succ h] at hp
    cases hb : B 0 with
    | false =>
      rw [hb] at hp
      obtain ⟨rfl, rfl⟩ : true = ok ∧ (busy s).2 = t := by simpa using hp
      exact ⟨0, ⟨fun j hj => absurd hj (Nat.not_lt_zero j), hb, fun hn => by cases hn⟩, rfl⟩
    | true =>
      rw [hb, if_pos rfl] at hp
      cases hr : reached (T 0) timeout with
      | true =>
        rw [hr] at hp
        obtain ⟨rfl, rfl⟩ : false = ok ∧ round busy clock s = t := by simpa using hp
        exact ⟨0, ⟨fun j hj => absurd hj (Nat.not_lt_zero j), hb, fun _ => hr⟩, rfl⟩
      | false =>
        rw [hr] at hp
        obtain ⟨k, hk, ht⟩ := ih h.next hp
        refine ⟨k + 1, ⟨fun j hj => ?_, hk.at_busy, hk.at_late⟩, ht⟩
        cases j with
        | zero => exact ⟨hb, hr⟩
        | succ j => exact hk.before j (Nat.lt_of_succ_lt_succ hj)

/-- A loop returns once some round meets the condition or the deadline, whatever the fuel beyond
that round. -/
theorem poll_returns {s : S} {B : Nat → Bool} {T : Nat → BitVec w}
    (h : Sees busy clock s B T) {k : Nat} (hk : B k = false ∨ reached (T k) timeout = true) :
    ∃ r, ∀ fuel, k < fuel → poll busy clock timeout fuel s = some r := by
  induction k generalizing s B T with
  | zero =>
    refine ⟨if B 0 then (false, round busy clock s) else (true, (busy s).2), fun fuel hf => ?_⟩
    obtain ⟨n, rfl⟩ := Nat.exists_eq_succ_of_ne_zero (Nat.ne_of_gt hf)
    rw [poll_succ h]
    cases hb : B 0 with
    | false => rfl
    | true =>
      have hr := hk.resolve_left (by rw [hb]; exact Bool.noConfusion)
      simp only [hr, if_true]
  | succ k ih =>
    obtain ⟨r, hr⟩ := ih h.next hk
    refine ⟨if B 0 then if reached (T 0) timeout then (false, round busy clock s) else r
      else (true, (busy s).2),
      fun fuel hf => ?_⟩
    obtain ⟨n, rfl⟩ :=
      Nat.exists_eq_succ_of_ne_zero (Nat.ne_of_gt (Nat.lt_of_le_of_lt (Nat.zero_le _) hf))
    rw [poll_succ h, hr n (Nat.lt_of_succ_lt_succ hf)]
    split
    · split <;> rfl
    · rfl

end Loop

/-- Successive readings never go back, by the sign of the difference, and again and again move. -/
structure Advancing (tick : Nat → BitVec w) : Prop where
  forward : ∀ k, 0 ≤ (tick (k + 1) - tick k).toInt
  again : ∀ k, ∃ m, k ≤ m ∧ tick (m + 1) ≠ tick m

def elapsed (tick : Nat → BitVec w) (k : Nat) : Nat → Nat
  | 0 => 0
  | n + 1 => elapsed tick k n + (tick (k + n + 1) - tick (k + n)).toNat

theorem tick_elapsed (tick : Nat → BitVec w) (k n : Nat) :
    tick (k + n) = tick k + BitVec.ofNat w (elapsed tick k n) := by
  induction n with
  | zero => simp [elapsed]
  | succ n ih =>
    rw [elapsed, BitVec.ofNat_add, BitVec.ofNat_toNat, BitVec.setWidth_eq, ← BitVec.add_assoc,
      ← ih, BitVec.add_comm, BitVec.sub_add_cancel]
    rfl

theorem elapsed_le (tick : Nat → BitVec w) (k : Nat) {m n : Nat} (h : m ≤ n) :
    elapsed tick k m ≤ elapsed tick k n := by
  induction h with
  | refl => exact Nat.le_refl _
  | step _ ih => exact Nat.le_trans ih (Nat.le_add_right _ _)

theorem elapsed_unbounded {tick : Nat → BitVec w} (h : Advancing tick) (k b : Nat) :
    ∃ n, b ≤ elapsed tick k n := by
  induction b with
  | zero => exact ⟨0, Nat.zero_le _⟩
  | succ b ih =>
    obtain ⟨n, hn⟩ := ih
    obtain ⟨m, hm, hne⟩ := h.again (k + n)
    obtain ⟨d, rfl⟩ := Nat.exists_eq_add_of_le hm
    have hpos : 0 < (tick (k + (n + d) + 1) - tick (k + (n + d))).toNat := by
      rw [Nat.pos_iff_ne_zero, ← Nat.add_assoc k n d]
      intro hz
      apply hne
      have hsub := BitVec.eq_of_toNat_eq (y := 0#w) (hz.trans (BitVec.toNat_ofNat 0 w).symm)
      rw [BitVec.sub_eq_iff_eq_add.mp hsub, BitVec.zero_add]
    refine ⟨n + d + 1, ?_⟩
    have hle := elapsed_le tick k (Nat.le_add_right n d)
    rw [elapsed]
    omega

theorem nonneg_iff (x : BitVec w) : 0 ≤ x.toInt ↔ 2 * x.toNat < 2 ^ w := by
  have hlt : x.toNat < 2 ^ w := x.isLt
  rw [BitVec.toInt_eq_toNat_cond]
  split
  · next h => exact iff_of_true (Int.natCast_nonneg _) h
  · next h =>
    refine iff_of_false ?_ h
    have hcast : (x.toNat : Int) < ((2 ^ w : Nat) : Int) := Int.ofNat_lt.mpr hlt
    omega

/-- A wrapping counter that keeps advancing shows every deadline: it cannot step over the half
of its range in which the deadline counts as past. -/
theorem exists_reached {tick : Nat → BitVec w} (h : Advancing tick) (k : Nat) (wait : BitVec w) :
    ∃ n, reached (tick (k + 1 + n)) (tick k + wait) = true := by
  have hex := elapsed_unbounded h k wait.toNat
  have hspec := Nat.find_spec hex
  cases hn : Nat.find hex with
  | zero =>
    rw [hn] at hspec
    have hwait : wait = 0#w :=
      BitVec.eq_of_toNat_eq ((Nat.le_zero.mp hspec).trans (BitVec.toNat_ofNat 0 w).symm)
    refine ⟨0, decide_eq_true ?_⟩
    rw [hwait, BitVec.add_zero]
    exact h.forward k
  | succ m =>
    rw [hn] at hspec
    have hlt : elapsed tick k m < wait.toNat := Nat.lt_of_not_le (Nat.find_min hex (by omega))
    have hstep := (nonneg_iff _).mp (h.forward (k + m))
    rw [elapsed] at hspec
    obtain ⟨d, hd⟩ := Nat.exists_eq_add_of_le hspec
    have hdiff : tick (k + 1 + m) - (tick k + wait) = BitVec.ofNat w d := by
      have he : elapsed tick k (m + 1) = wait.toNat + d := hd
      rw [Nat.add_right_comm k 1 m, Nat.add_assoc k m 1, tick_elapsed tick k (m + 1),
        he, BitVec.ofNat_add,
        BitVec.ofNat_toNat, BitVec.setWidth_eq, ← BitVec.add_assoc, BitVec.add_comm,
        BitVec.add_sub_cancel]
    refine ⟨m, decide_eq_true ((nonneg_iff _).mpr ?_)⟩
    have hmod : d % 2 ^ w ≤ d := Nat.mod_le d (2 ^ w)
    rw [hdiff, BitVec.toNat_ofNat]
    omega

end Rk3576.Poll
