import Mathlib.Data.List.Nodup
import Mathlib.Logic.Function.Basic
import Rk3576.Lib.Run
import Rk3576.Ipc.Object

/-! The ready queue of `scheduler.c` on one processor, with RT_THREAD_PRIORITY_MAX 32: a list of
ready threads for each priority, and a word that has a bit for each list with a thread in it. -/
namespace Rk3576.Kernel
open Rk3576.Run Rk3576.Ipc

/-- `__lowest_bit_bitmap`: sixteen rows that differ in their first entry. -/
def lowestBitBitmap : List Nat :=
  [0, 4, 5, 4, 6, 4, 5, 4, 7, 4, 5, 4, 6, 4, 5, 4].flatMap fun n =>
    n :: [0, 1, 0, 2, 0, 1, 0, 3, 0, 1, 0, 2, 0, 1, 0]

def rtFfs (value : BitVec 32) : Nat :=
  if value = 0 then 0
  else if value &&& 0xff ≠ 0 then lowestBitBitmap.getD (value &&& 0xff).toNat 0 + 1
  else if value &&& 0xff00 ≠ 0 then lowestBitBitmap.getD ((value &&& 0xff00) >>> 8).toNat 0 + 9
  else if value &&& 0xff0000 ≠ 0 then
    lowestBitBitmap.getD ((value &&& 0xff0000) >>> 16).toNat 0 + 17
  else lowestBitBitmap.getD ((value &&& 0xff000000) >>> 24).toNat 0 + 25

inductive ThreadStat where
  | ready
  | suspend
  | running
  deriving DecidableEq

/-- `group` is `rt_thread_ready_priority_group`, `table` is `rt_thread_priority_table`, and `yield`
is the bit RT_THREAD_STAT_YIELD of each thread. -/
structure Sched where
  group : BitVec 32
  table : Nat → List Tid
  stat : Tid → ThreadStat
  yield : Tid → Bool
  current : Tid
  lockNest : BitVec 16

section Sched
variable (prio : Tid → Nat)

def rtScheduleInsertThread (w : Sched) (t : Tid) : Sched :=
  if t = w.current then { w with stat := Function.update w.stat t .running }
  else
    { w with
      stat := Function.update w.stat t .ready
      table := Function.update w.table (prio t) (if w.yield t then w.table (prio t) ++ [t]
        else t :: w.table (prio t))
      group := w.group ||| 1#32 <<< prio t }

def rtScheduleRemoveThread (w : Sched) (t : Tid) : Sched :=
  let l := (w.table (prio t)).erase t
  { w with
    table := Function.update w.table (prio t) l
    group := if l = [] then w.group &&& ~~~(1#32 <<< prio t) else w.group }

def Sched.setRunning (w : Sched) (t : Tid) : Sched :=
  { w with stat := Function.update w.stat t .running }

/-- `rt_schedule`; `none` if it takes a thread from an empty list. -/
def rtSchedule (w : Sched) : Option Sched :=
  if w.lockNest = 0 ∧ w.group ≠ 0 then
    match w.table (rtFfs w.group - 1) with
    | [] => none
    | first :: _ =>
      let running := w.stat w.current = .running
      let stays := running ∧ (prio w.current < rtFfs w.group - 1 ∨
        (prio w.current = rtFfs w.group - 1 ∧ w.yield w.current = false))
      let next := if stays then w.current else first
      let v := if running then { w with yield := Function.update w.yield w.current false } else w
      if next ≠ w.current then
        let v := { v with current := next }
        let v := if running then rtScheduleInsertThread prio v w.current else v
        some ((rtScheduleRemoveThread prio v next).setRunning next)
      else some ((rtScheduleRemoveThread prio v w.current).setRunning w.current)
  else some w

inductive SchedAction where
  | resume (t : Tid)
  | suspend
  | expire
  | schedule
  | enterCritical
  | exitCritical

/-- `rt_thread_resume`, `rt_thread_suspend` of the thread itself, `rt_enter_critical`, and up to
their calls of `rt_schedule` the end of a time slice, `rt_thread_yield` and `rt_exit_critical`. -/
def schedStep (w : Sched) : SchedAction → Option Sched
  | .resume t => if w.stat t = .suspend then some (rtScheduleInsertThread prio w t) else some w
  | .suspend =>
    if w.stat w.current = .suspend then some w
    else
      let v := rtScheduleRemoveThread prio w w.current
      some { v with stat := Function.update v.stat v.current .suspend }
  | .expire => some { w with yield := Function.update w.yield w.current true }
  | .schedule => rtSchedule prio w
  | .enterCritical => some { w with lockNest := w.lockNest + 1 }
  | .exitCritical =>
    let nest := w.lockNest - 1
    some { w with lockNest := if nest.sle 0 then 0 else nest }

end Sched

def schedInit (first : Tid) : Sched :=
  ⟨0, fun _ => [], Function.update (fun _ => .suspend) first .running, fun _ => false, first, 0⟩

def Lowest (v : BitVec 32) (k : Nat) : Prop := v.getLsbD k = true ∧ ∀ j < k, v.getLsbD j = false

theorem bitmap_lowest : ∀ n : Fin 256, n.val ≠ 0 →
      lowestBitBitmap.getD n.val 0 < 8 ∧ n.val.testBit (lowestBitBitmap.getD n.val 0) = true ∧
      ∀ j : Fin 8, j.val < lowestBitBitmap.getD n.val 0 → n.val.testBit j.val = false := by
  decide +kernel

theorem byte_lowest {v x : BitVec 32} {s : Nat}
    (hx : ∀ j, x.getLsbD j = (decide (j < 8) && v.getLsbD (s + j)))
    (hne : x ≠ 0) (hlow : ∀ j < s, v.getLsbD j = false) :
    Lowest v (lowestBitBitmap.getD x.toNat 0 + s) := by
  have hlt : x.toNat < 256 := by
    refine Nat.lt_pow_two_of_testBit (n := 8) x.toNat fun j hj => ?_
    have hxj := hx j
    rwa [decide_eq_false (by omega), Bool.false_and, ← BitVec.testBit_toNat] at hxj
  have hne' : x.toNat ≠ 0 := fun h0 => hne (BitVec.eq_of_toNat_eq h0)
  obtain ⟨hb, hset, hclear⟩ := bitmap_lowest ⟨x.toNat, hlt⟩ hne'
  dsimp only at hb hset hclear
  refine ⟨?_, fun j hj => ?_⟩
  · have hxk := hx (lowestBitBitmap.getD x.toNat 0)
    rw [← BitVec.testBit_toNat, hset, decide_eq_true hb, Bool.true_and] at hxk
    rw [Nat.add_comm]
    exact hxk.symm
  · by_cases hjs : j < s
    · exact hlow j hjs
    · have hxj := hx (j - s)
      have h8 : j - s < 8 := by omega
      rw [← BitVec.testBit_toNat, hclear ⟨j - s, h8⟩ (by dsimp only; omega), decide_eq_true h8,
        Bool.true_and, Nat.add_sub_cancel' (by omega)] at hxj
      exact hxj.symm

theorem byteMask (j : Nat) : (0xff#32).getLsbD j = decide (j < 8) := by
  by_cases h32 : j < 32
  · have hall : ∀ j : Fin 32, (0xff#32).getLsbD j.val = decide (j.val < 8) := by decide
    exact hall ⟨j, h32⟩
  · rw [BitVec.getLsbD_of_ge _ _ (by omega), decide_eq_false (by omega)]

theorem masked_byte (v : BitVec 32) (s : Nat) (hs : s ≤ 24) (j : Nat) :
    ((v &&& (0xff#32 <<< s)) >>> s).getLsbD j = (decide (j < 8) && v.getLsbD (s + j)) := by
  rw [BitVec.getLsbD_ushiftRight, BitVec.getLsbD_and, BitVec.getLsbD_shiftLeft,
    Nat.add_sub_cancel_left, byteMask, decide_eq_false (by omega : ¬ s + j < s)]
  by_cases hj : j < 8
  · rw [decide_eq_true hj, decide_eq_true (by omega : s + j < 32)]
    simp
  · rw [decide_eq_false hj]
    simp

theorem masked_zero {v : BitVec 32} {s : Nat} (hs : s ≤ 24) (h : v &&& (0xff#32 <<< s) = 0)
    {j : Nat} (hj : s ≤ j) (hj8 : j < s + 8) : v.getLsbD j = false := by
  have hbyte := masked_byte v s hs (j - s)
  rw [h, decide_eq_true (by omega), Bool.true_and, Nat.add_sub_cancel' hj] at hbyte
  rw [← hbyte]
  simp

theorem shifted_ne {v : BitVec 32} {s : Nat} (hs : s ≤ 24) (h : v &&& (0xff#32 <<< s) ≠ 0) :
    (v &&& (0xff#32 <<< s)) >>> s ≠ 0 := by
  intro hz
  apply h
  apply BitVec.eq_of_getLsbD_eq
  intro j hj
  by_cases hbyte : s ≤ j ∧ j < s + 8
  · have hm := masked_byte v s hs (j - s)
    rw [hz, decide_eq_true (by omega), Bool.true_and, Nat.add_sub_cancel' hbyte.1] at hm
    rw [BitVec.getLsbD_and, ← hm]
    simp
  · rw [BitVec.getLsbD_and, BitVec.getLsbD_shiftLeft]
    by_cases hlow : j < s
    · rw [decide_eq_true hlow]
      simp
    · rw [byteMask, decide_eq_false (by omega : ¬ j - s < 8)]
      simp

theorem rtFfs_lowest {v : BitVec 32} (h : v ≠ 0) : Lowest v (rtFfs v - 1) := by
  have e0 : (0xff : BitVec 32) = 0xff#32 <<< 0 := rfl
  have e1 : (0xff00 : BitVec 32) = 0xff#32 <<< 8 := rfl
  have e2 : (0xff0000 : BitVec 32) = 0xff#32 <<< 16 := rfl
  have e3 : (0xff000000 : BitVec 32) = 0xff#32 <<< 24 := rfl
  rw [rtFfs, if_neg h, e0, e1, e2, e3]
  by_cases h0 : v &&& 0xff#32 <<< 0 = 0
  · have hz0 : ∀ j < 8, v.getLsbD j = false :=
      fun j hj => masked_zero (by decide) h0 (Nat.zero_le j) (by omega)
    rw [if_neg (not_not.mpr h0)]
    by_cases h1 : v &&& 0xff#32 <<< 8 = 0
    · have hz1 : ∀ j < 16, v.getLsbD j = false := fun j hj => by
        by_cases hj8 : j < 8
        · exact hz0 j hj8
        · exact masked_zero (by decide) h1 (by omega) (by omega)
      rw [if_neg (not_not.mpr h1)]
      by_cases h2 : v &&& 0xff#32 <<< 16 = 0
      · have hz2 : ∀ j < 24, v.getLsbD j = false := fun j hj => by
          by_cases hj16 : j < 16
          · exact hz1 j hj16
          · exact masked_zero (by decide) h2 (by omega) (by omega)
        rw [if_neg (not_not.mpr h2)]
        have h3 : v &&& 0xff#32 <<< 24 ≠ 0 := by
          intro h3
          apply h
          apply BitVec.eq_of_getLsbD_eq
          intro j hj
          by_cases hj24 : j < 24
          · rw [hz2 j hj24]
            simp
          · rw [masked_zero (by decide) h3 (by omega) (by omega)]
            simp
        exact byte_lowest (masked_byte v 24 (by decide)) (shifted_ne (by decide) h3) hz2
      · rw [if_pos h2]
        exact byte_lowest (masked_byte v 16 (by decide)) (shifted_ne (by decide) h2) hz1
    · rw [if_pos h1]
      exact byte_lowest (masked_byte v 8 (by decide)) (shifted_ne (by decide) h1) hz0
  · rw [if_pos h0]
    have hbyte := masked_byte v 0 (by decide)
    simp only [BitVec.ushiftRight_zero] at hbyte
    exact byte_lowest hbyte h0 fun j hj => absurd hj (Nat.not_lt_zero j)

section Queue
variable {prio : Tid → Nat} (hprio : ∀ t, prio t < 32)

/-- The lists hold exactly the ready threads, each in the list of its priority, and the word has a
bit for each list that is not empty. -/
structure QueueInv (prio : Tid → Nat) (w : Sched) : Prop where
  group : ∀ p, p < 32 → (w.group.getLsbD p = true ↔ w.table p ≠ [])
  table : ∀ p t, t ∈ w.table p → prio t = p ∧ w.stat t = .ready
  nodup : ∀ p, (w.table p).Nodup
  ready : ∀ t, w.stat t = .ready → t ∈ w.table (prio t)

/-- The current thread is in no list, and no other thread runs. -/
structure SchedInv (prio : Tid → Nat) (w : Sched) : Prop extends QueueInv prio w where
  current : w.stat w.current ≠ .ready
  running : ∀ t, w.stat t = .running → t = w.current

theorem one_shift {p : Nat} (hp : p < 32) (q : Nat) : (1#32 <<< q).getLsbD p = decide (p = q) := by
  rw [BitVec.getLsbD_shiftLeft, decide_eq_true hp, Bool.true_and, BitVec.getLsbD_one]
  by_cases hq : p < q
  · rw [decide_eq_true hq, decide_eq_false (by omega : ¬ p = q)]
    rfl
  · rw [decide_eq_false hq]
    by_cases heq : p = q
    · rw [decide_eq_true heq, decide_eq_true (by omega : p - q = 0)]
      rfl
    · rw [decide_eq_false heq, decide_eq_false (by omega : ¬ p - q = 0)]
      rfl

theorem set_bit {g : BitVec 32} {p : Nat} (hp : p < 32) (q : Nat) :
    (g ||| 1#32 <<< q).getLsbD p = (g.getLsbD p || decide (p = q)) := by
  rw [BitVec.getLsbD_or, one_shift hp]

theorem clear_bit {g : BitVec 32} {p : Nat} (hp : p < 32) (q : Nat) :
    (g &&& ~~~(1#32 <<< q)).getLsbD p = (g.getLsbD p && !decide (p = q)) := by
  rw [BitVec.getLsbD_and, BitVec.getLsbD_not, one_shift hp, decide_eq_true hp, Bool.true_and]

theorem QueueInv.setStat {w : Sched} (h : QueueInv prio w) {t : Tid} {x : ThreadStat}
    (ht : w.stat t ≠ .ready)
    (hx : x ≠ .ready) : QueueInv prio { w with stat := Function.update w.stat t x } where
  group := h.group
  table p u hu := by
    obtain ⟨h1, h2⟩ := h.table p u hu
    have hut : u ≠ t := fun he => ht (he ▸ h2)
    refine ⟨h1, ?_⟩
    dsimp only
    rw [Function.update_of_ne hut, h2]
  nodup := h.nodup
  ready u hu := by
    dsimp only at hu
    by_cases hut : u = t
    · rw [hut, Function.update_self] at hu
      exact absurd hu hx
    · rw [Function.update_of_ne hut] at hu
      exact h.ready u hu

theorem QueueInv.insert {w : Sched} (h : QueueInv prio w) {t : Tid} (ht : w.stat t ≠ .ready)
    (hcur : t ≠ w.current) :
    QueueInv prio (rtScheduleInsertThread prio w t) := by
  have hnot : ∀ p, t ∉ w.table p := fun p hmem => ht (h.table p t hmem).2
  rw [rtScheduleInsertThread, if_neg hcur]
  generalize hl : (if w.yield t then w.table (prio t) ++ [t] else t :: w.table (prio t)) = l
  have hperm : l.Perm (t :: w.table (prio t)) := by
    rw [← hl]
    split
    · exact List.perm_append_singleton t _
    · exact List.Perm.refl _
  refine ⟨fun p hp => ?_, fun p u hu => ?_, fun p => ?_, fun u hu => ?_⟩
  · dsimp only
    rw [set_bit hp, Bool.or_eq_true, h.group p hp, decide_eq_true_eq]
    by_cases hpt : p = prio t
    · subst hpt
      rw [Function.update_self]
      exact ⟨fun _ hnil => (by rw [hnil] at hperm; cases hperm.nil_eq), fun _ => Or.inr rfl⟩
    · rw [Function.update_of_ne hpt]
      exact or_iff_left hpt
  · dsimp only at hu ⊢
    by_cases hut : u = t
    · subst hut
      rw [Function.update_self]
      refine ⟨?_, rfl⟩
      by_cases hpt : p = prio u
      · exact hpt.symm
      · rw [Function.update_of_ne hpt] at hu
        exact absurd hu (hnot p)
    · rw [Function.update_of_ne hut]
      by_cases hpt : p = prio t
      · rw [hpt, Function.update_self, hperm.mem_iff, List.mem_cons] at hu
        rw [hpt]
        exact h.table _ u (hu.resolve_left hut)
      · rw [Function.update_of_ne hpt] at hu
        exact h.table p u hu
  · dsimp only
    by_cases hpt : p = prio t
    · rw [hpt, Function.update_self]
      exact hperm.nodup_iff.mpr (List.nodup_cons.mpr ⟨hnot _, h.nodup _⟩)
    · rw [Function.update_of_ne hpt]
      exact h.nodup p
  · dsimp only at hu ⊢
    by_cases hut : u = t
    · subst hut
      rw [Function.update_self, hperm.mem_iff]
      exact List.mem_cons_self
    · rw [Function.update_of_ne hut] at hu
      have hmem := h.ready u hu
      by_cases hpt : prio u = prio t
      · rw [hpt, Function.update_self, hperm.mem_iff]
        exact List.mem_cons_of_mem t (hpt ▸ hmem)
      · rwa [Function.update_of_ne hpt]

theorem QueueInv.remove {w : Sched} (h : QueueInv prio w) (t : Tid) {x : ThreadStat}
    (hx : x ≠ .ready) :
    QueueInv prio { rtScheduleRemoveThread prio w t with stat := Function.update w.stat t x } := by
  rw [rtScheduleRemoveThread]
  dsimp only
  refine ⟨fun p hp => ?_, fun p u hu => ?_, fun p => ?_, fun u hu => ?_⟩
  · dsimp only
    by_cases hpt : p = prio t
    · subst hpt
      rw [Function.update_self]
      split
      · next hnil =>
        rw [clear_bit hp, hnil]
        simp
      · next hnil =>
        rw [h.group _ hp]
        refine ⟨fun _ => hnil, fun _ hempty => hnil ?_⟩
        rw [hempty]
        rfl
    · rw [Function.update_of_ne hpt, ← h.group p hp]
      split
      · rw [clear_bit hp, decide_eq_false hpt]
        simp
      · exact Iff.rfl
  · dsimp only at hu ⊢
    have hmem : u ∈ w.table p ∧ u ≠ t := by
      by_cases hpt : p = prio t
      · rw [hpt, Function.update_self] at hu
        rw [hpt]
        exact ⟨List.mem_of_mem_erase hu, fun hut => (h.nodup _).not_mem_erase (hut ▸ hu)⟩
      · rw [Function.update_of_ne hpt] at hu
        refine ⟨hu, fun hut => hpt ?_⟩
        rw [← (h.table p u hu).1, hut]
    rw [Function.update_of_ne hmem.2]
    exact h.table p u hmem.1
  · dsimp only
    by_cases hpt : p = prio t
    · rw [hpt, Function.update_self]
      exact (h.nodup _).erase t
    · rw [Function.update_of_ne hpt]
      exact h.nodup p
  · dsimp only at hu ⊢
    by_cases hut : u = t
    · rw [hut, Function.update_self] at hu
      exact absurd hu hx
    · rw [Function.update_of_ne hut] at hu
      have hmem := h.ready u hu
      by_cases hpt : prio u = prio t
      · rw [hpt] at hmem ⊢
        rw [Function.update_self]
        exact (List.mem_erase_of_ne hut).mpr hmem
      · rwa [Function.update_of_ne hpt]

/-- `rt_schedule` does not fail, and leaves the highest priority of all ready threads to the current
one, which runs unless nobody is ready. -/
structure Picked (prio : Tid → Nat) (w : Sched) : Prop where
  highest : ∀ t, w.stat t = .ready → prio w.current ≤ prio t
  runs : w.stat w.current = .running ∨ ∀ t, w.stat t ≠ .ready

include hprio in
theorem QueueInv.lowest {w : Sched} (h : QueueInv prio w) {k : Nat}
    (hk : Lowest w.group k) {t : Tid} (ht : w.stat t = .ready) : k ≤ prio t := by
  by_contra hlt
  have hset := (h.group (prio t) (hprio t)).mpr (List.ne_nil_of_mem (h.ready t ht))
  rw [hk.2 (prio t) (by omega)] at hset
  cases hset

section Schedule
variable {w : Sched} {first : Tid} {rest : List Tid}

/-- The current thread goes on if no ready thread is above it, nor beside it when its time is up. -/
abbrev Stays (prio : Tid → Nat) (w : Sched) : Prop :=
  prio w.current < rtFfs w.group - 1 ∨
  (prio w.current = rtFfs w.group - 1 ∧ w.yield w.current = false)

theorem rtSchedule_stays (hgo : w.lockNest = 0 ∧ w.group ≠ 0)
    (htab : w.table (rtFfs w.group - 1) = first :: rest)
    (hrun : w.stat w.current = .running) (hstay : Stays prio w) :
    rtSchedule prio w =
      some ((rtScheduleRemoveThread prio { w with yield := Function.update w.yield w.current false }
      w.current).setRunning w.current) := by
  have hnext :
      (if w.stat w.current = .running ∧ Stays prio w then w.current else first) = w.current :=
    if_pos ⟨hrun, hstay⟩
  rw [rtSchedule, if_pos hgo, htab]
  dsimp only
  rw [hnext, if_neg (not_not.mpr rfl), if_pos hrun]

theorem rtSchedule_preempts (hgo : w.lockNest = 0 ∧ w.group ≠ 0)
    (htab : w.table (rtFfs w.group - 1) = first :: rest)
    (hrun : w.stat w.current = .running) (hstay : ¬ Stays prio w) (hfc : first ≠ w.current) :
    rtSchedule prio w = some ((rtScheduleRemoveThread prio (rtScheduleInsertThread prio
      { w with yield := Function.update w.yield w.current false, current := first } w.current)
        first).setRunning first) := by
  have hnext : (if w.stat w.current = .running ∧ Stays prio w then w.current else first) = first :=
    if_neg fun hc => hstay hc.2
  rw [rtSchedule, if_pos hgo, htab]
  dsimp only
  rw [hnext, if_pos hfc, if_pos hrun, if_pos hrun]

theorem rtSchedule_takes (hgo : w.lockNest = 0 ∧ w.group ≠ 0)
    (htab : w.table (rtFfs w.group - 1) = first :: rest)
    (hrun : w.stat w.current ≠ .running) (hfc : first ≠ w.current) :
    rtSchedule prio w =
      some ((rtScheduleRemoveThread prio { w with current := first } first).setRunning first) := by
  have hnext : (if w.stat w.current = .running ∧ Stays prio w then w.current else first) = first :=
    if_neg fun hc => hrun hc.1
  rw [rtSchedule, if_pos hgo, htab]
  dsimp only
  rw [hnext, if_pos hfc, if_neg hrun, if_neg hrun]

end Schedule

/-- A thread that has become the current one leaves its list and runs. -/
theorem QueueInv.setRunning {u : Sched} (h : QueueInv prio u)
    (hrun : ∀ t, u.stat t = .running → t = u.current) :
    SchedInv prio ((rtScheduleRemoveThread prio u u.current).setRunning u.current) := by
  refine ⟨h.remove u.current (by decide), ?_, fun t ht => ?_⟩
  · change Function.update u.stat u.current .running u.current ≠ .ready
    rw [Function.update_self]
    decide
  · change Function.update u.stat u.current .running t = .running at ht
    change t = u.current
    by_contra htc
    rw [Function.update_of_ne htc] at ht
    exact htc (hrun t ht)

theorem Picked.setRunning {u : Sched}
    (hall : ∀ t, t ≠ u.current → u.stat t = .ready → prio u.current ≤ prio t) :
    Picked prio ((rtScheduleRemoveThread prio u u.current).setRunning u.current) := by
  refine ⟨fun t ht => ?_, Or.inl (Function.update_self _ _ _)⟩
  change Function.update u.stat u.current .running t = .ready at ht
  change prio u.current ≤ prio t
  by_cases htc : t = u.current
  · exact Nat.le_of_eq (congrArg prio htc.symm)
  · rw [Function.update_of_ne htc] at ht
    exact hall t htc ht

include hprio in
theorem QueueInv.group_ne {w : Sched} (h : QueueInv prio w) {t : Tid} (ht : w.stat t = .ready) :
    w.group ≠ 0 := by
  intro hzero
  have hset := (h.group (prio t) (hprio t)).mpr (List.ne_nil_of_mem (h.ready t ht))
  rw [hzero] at hset
  simp at hset

include hprio in
theorem SchedInv.schedule {w : Sched} (h : SchedInv prio w) :
    ∃ w', rtSchedule prio w = some w' ∧ SchedInv prio w' ∧ (w.lockNest = 0 → Picked prio w') := by
  by_cases hgo : w.lockNest = 0 ∧ w.group ≠ 0
  swap
  · have hnone : w.lockNest = 0 → ∀ t, w.stat t ≠ .ready :=
      fun hlock t ht => hgo ⟨hlock, h.toQueueInv.group_ne hprio ht⟩
    refine ⟨w, by rw [rtSchedule, if_neg hgo], h,
      fun hlock => ⟨fun t ht => absurd ht (hnone hlock t), ?_⟩⟩
    exact Or.inr (hnone hlock)
  have hlow := rtFfs_lowest hgo.2
  have hne := (h.group _ (BitVec.lt_of_getLsbD hlow.1)).mp hlow.1
  have hall : ∀ t, w.stat t = .ready → rtFfs w.group - 1 ≤ prio t :=
    fun t ht => h.toQueueInv.lowest hprio hlow ht
  obtain ⟨first, rest, htab⟩ := List.exists_cons_of_ne_nil hne
  obtain ⟨hfp, hfr⟩ := h.table _ first (htab ▸ List.mem_cons_self)
  have hfc : first ≠ w.current := fun he => h.current (he ▸ hfr)
  by_cases hrun : w.stat w.current = .running
  · by_cases hstay : Stays prio w
    · -- the current thread goes on
      have hq : QueueInv prio { w with yield := Function.update w.yield w.current false } :=
        ⟨h.group, h.table, h.nodup, h.ready⟩
      refine ⟨_, rtSchedule_stays hgo htab hrun hstay, hq.setRunning h.running,
        fun _ => Picked.setRunning ?_⟩
      intro t _ ht
      have hle := hall t ht
      rw [Stays] at hstay
      dsimp only
      omega
    · -- the first thread of the highest list takes over, the current one goes back into its list
      refine ⟨_, rtSchedule_preempts hgo htab hrun hstay hfc, ?_⟩
      have hback : prio first ≤ prio w.current := by
        rw [Stays] at hstay
        omega
      have hq : QueueInv prio { w with
          yield := Function.update w.yield w.current false, current := first } :=
        ⟨h.group, h.table, h.nodup, h.ready⟩
      have hins := hq.insert h.current hfc.symm
      rw [rtScheduleInsertThread, if_neg hfc.symm] at hins ⊢
      refine ⟨hins.setRunning fun t ht => ?_, fun _ => Picked.setRunning fun t _ ht => ?_⟩
      · dsimp only at ht
        by_cases htc : t = w.current
        · rw [htc, Function.update_self] at ht
          cases ht
        · rw [Function.update_of_ne htc] at ht
          exact absurd (h.running t ht) htc
      · dsimp only at ht ⊢
        by_cases htc : t = w.current
        · rw [htc]
          exact hback
        · rw [Function.update_of_ne htc] at ht
          rw [hfp]
          exact hall t ht
  · -- the current thread has suspended itself
    have hq : QueueInv prio { w with current := first } := ⟨h.group, h.table, h.nodup, h.ready⟩
    refine ⟨_, rtSchedule_takes hgo htab hrun hfc, hq.setRunning fun t ht => ?_,
      fun _ => Picked.setRunning ?_⟩
    · exact absurd (h.running t ht ▸ ht) hrun
    · intro t _ ht
      dsimp only
      rw [hfp]
      exact hall t ht

include hprio in
theorem schedStep_inv {w : Sched} (h : SchedInv prio w) (a : SchedAction) :
    ∃ w', schedStep prio w a = some w' ∧ SchedInv prio w' := by
  cases a with
  | schedule =>
    obtain ⟨w', hw, hinv, -⟩ := h.schedule hprio
    exact ⟨w', hw, hinv⟩
  | expire => exact ⟨_, rfl, ⟨h.group, h.table, h.nodup, h.ready⟩, h.current, h.running⟩
  | enterCritical => exact ⟨_, rfl, ⟨h.group, h.table, h.nodup, h.ready⟩, h.current, h.running⟩
  | exitCritical => exact ⟨_, rfl, ⟨h.group, h.table, h.nodup, h.ready⟩, h.current, h.running⟩
  | suspend =>
    rw [schedStep]
    split
    · exact ⟨w, rfl, h⟩
    · refine ⟨_, rfl, h.toQueueInv.remove w.current (by decide), ?_, fun t ht => ?_⟩
      · change Function.update w.stat w.current .suspend w.current ≠ .ready
        rw [Function.update_self]
        decide
      · change Function.update w.stat w.current .suspend t = .running at ht
        change t = w.current
        by_contra htc
        rw [Function.update_of_ne htc] at ht
        exact htc (h.running t ht)
  | resume t =>
    rw [schedStep]
    split
    · next hs =>
      have hnr : w.stat t ≠ .ready := by
        rw [hs]
        decide
      refine ⟨_, rfl, ?_⟩
      by_cases htc : t = w.current
      · rw [rtScheduleInsertThread, if_pos htc]
        refine ⟨h.toQueueInv.setStat hnr (by decide), ?_, fun u hu => ?_⟩
        · dsimp only
          rw [htc, Function.update_self]
          decide
        · dsimp only at hu ⊢
          by_cases hut : u = t
          · exact hut.trans htc
          · rw [Function.update_of_ne hut] at hu
            exact h.running u hu
      · refine ⟨h.toQueueInv.insert hnr htc, ?_, fun u hu => ?_⟩
        · rw [rtScheduleInsertThread, if_neg htc]
          dsimp only
          rw [Function.update_of_ne (Ne.symm htc)]
          exact h.current
        · rw [rtScheduleInsertThread, if_neg htc] at hu ⊢
          dsimp only at hu ⊢
          by_cases hut : u = t
          · rw [hut, Function.update_self] at hu
            cases hu
          · rw [Function.update_of_ne hut] at hu
            exact h.running u hu
    · exact ⟨w, rfl, h⟩

theorem schedInit_inv (first : Tid) : SchedInv prio (schedInit first) where
  group p hp := by simp [schedInit]
  table p t ht := by simp [schedInit] at ht
  nodup p := List.nodup_nil
  ready t ht := by
    rw [schedInit] at ht
    dsimp only at ht
    by_cases htf : t = first
    · rw [htf, Function.update_self] at ht
      cases ht
    · rw [Function.update_of_ne htf] at ht
      cases ht
  current := by
    rw [schedInit]
    dsimp only
    rw [Function.update_self]
    decide
  running t ht := by
    by_contra htf
    rw [schedInit] at ht htf
    dsimp only at ht htf
    rw [Function.update_of_ne htf] at ht
    cases ht

include hprio in
theorem schedRun_inv {w : Sched} (h : SchedInv prio w) (as : List SchedAction) :
    ∃ w', runs (schedStep prio) w as = some w' ∧ SchedInv prio w' := by
  induction as generalizing w with
  | nil => exact ⟨w, rfl, h⟩
  | cons a as ih =>
    obtain ⟨u, hu, hinv⟩ := schedStep_inv hprio h a
    obtain ⟨w', hw, hinv'⟩ := ih hinv
    exact ⟨w', runs_cons.mpr ⟨u, hu, hw⟩, hinv'⟩

include hprio in
/-- Threads suspend themselves, are resumed, use up their time, yield, and lock the scheduler in any
order. The lists and the word always say which threads are ready, no two threads run, `rt_schedule`
never finds an empty list, and when the scheduler is not locked it leaves the processor to a thread
that no ready thread has a higher priority than. -/
theorem sched_highest (first : Tid) (as : List SchedAction) :
    ∃ w, runs (schedStep prio) (schedInit first) as = some w ∧ SchedInv prio w ∧
      ∃ w', rtSchedule prio w = some w' ∧ (w.lockNest = 0 → Picked prio w') := by
  obtain ⟨w, hw, h⟩ := schedRun_inv hprio (schedInit_inv first) as
  obtain ⟨w', hw', -, hpick⟩ := h.schedule hprio
  exact ⟨w, hw, h, w', hw', hpick⟩

/-- A thread of higher priority is resumed while the scheduler is locked. -/
theorem sched_highest_locked :
    ∃ w w', runs (schedStep fun t => 10 - t % 4) (schedInit 0) [.enterCritical, .resume 1,
      .schedule, .resume 2, .exitCritical] =
        some w ∧ w.current = 0 ∧ rtSchedule (fun t => 10 - t % 4) w = some w' ∧ w'.current = 2 ∧
      Picked (fun t => 10 - t % 4) w' := by
  have hprio : ∀ t : Tid, 10 - t % 4 < 32 :=
    fun t => Nat.lt_of_le_of_lt (Nat.sub_le 10 (t % 4)) (by decide)
  obtain ⟨w, hw, -, w', hw', hpick⟩ :=
    sched_highest hprio 0 [.enterCritical, .resume 1, .schedule, .resume 2, .exitCritical]
  obtain ⟨v, hv, hcur, hlock, hnext⟩ : ∃ v, runs (schedStep fun t => 10 - t % 4) (schedInit 0)
      [.enterCritical, .resume 1, .schedule, .resume 2, .exitCritical] = some v ∧ v.current = 0 ∧
      v.lockNest = 0 ∧
      (rtSchedule (fun t => 10 - t % 4) v).map Sched.current = some 2 :=
        ⟨_, rfl, rfl, rfl, by decide⟩
  obtain rfl := Option.some.inj (hw.symm.trans hv)
  rw [hw'] at hnext
  exact ⟨w, w', hw, hcur, hw', Option.some.inj hnext, hpick hlock⟩

/-- Nothing happens to threads of priority `p` or above but that they use up their time. -/
def Undisturbed (prio : Tid → Nat) (p : Nat) : SchedAction → Prop
  | .suspend => False
  | .resume t => p < prio t
  | _ => True

/-- Two threads `a` and `b` take turns before the threads of `rest`. -/
structure TakeTurns (prio : Tid → Nat) (a b : Tid) (rest : List Tid) (w : Sched) :
    Prop extends SchedInv prio w where
  runs : w.stat w.current = .running
  higher : ∀ p < prio a, w.table p = []
  turn : (w.current = a ∧ w.table (prio a) = b :: rest) ∨
    (w.current = b ∧ w.table (prio a) = a :: rest)

theorem TakeTurns.symm {a b : Tid} {rest : List Tid} {w : Sched} (hab : prio a = prio b)
    (h : TakeTurns prio a b rest w) :
    TakeTurns prio b a rest w := by
  refine ⟨h.toSchedInv, h.runs, hab ▸ h.higher, ?_⟩
  rw [← hab]
  exact h.turn.symm

theorem Lowest.unique {v : BitVec 32} {j k : Nat} (hj : Lowest v j) (hk : Lowest v k) : j = k := by
  rcases Nat.lt_trichotomy j k with hlt | heq | hgt
  · cases hj.1.symm.trans (hk.2 j hlt)
  · exact heq
  · cases hk.1.symm.trans (hj.2 k hgt)

include hprio in
theorem TakeTurns.lowest {a b : Tid} {rest : List Tid} {w : Sched} (h : TakeTurns prio a b rest w) :
    Lowest w.group (prio a) := by
  refine ⟨(h.group _ (hprio a)).mpr ?_, fun p hp => ?_⟩
  · rcases h.turn with ⟨-, htab⟩ | ⟨-, htab⟩ <;> rw [htab] <;> exact List.cons_ne_nil _ _
  · have hclear := h.group p (Nat.lt_trans hp (hprio a))
    rw [h.higher p hp] at hclear
    simpa using hclear

include hprio in
theorem TakeTurns.schedule_first {a b : Tid} {rest : List Tid} {w w' : Sched}
    (h : TakeTurns prio a b rest w)
    (hcur : w.current = a) (htab : w.table (prio a) = b :: rest)
    (hs : rtSchedule prio w = some w') :
    (∀ p < prio a, w'.table p = []) ∧ w'.stat w'.current = .running ∧
      ((w'.current = a ∧ w'.table (prio a) = b :: rest) ∨
        (w'.current = b ∧ w'.table (prio a) = a :: rest)) := by
  subst hcur
  obtain ⟨hbp, hbr⟩ := h.table _ b (htab ▸ List.mem_cons_self)
  have hba : b ≠ w.current := fun he => h.current (he ▸ hbr)
  have hout : w.current ∉ w.table (prio w.current) := fun hmem => h.current (h.table _ _ hmem).2
  have hgroup := h.toQueueInv.group_ne hprio hbr
  have hffs := (rtFfs_lowest hgroup).unique (h.lowest hprio)
  by_cases hlock : w.lockNest = 0
  swap
  · rw [rtSchedule, if_neg fun hc => hlock hc.1] at hs
    obtain rfl := Option.some.inj hs
    exact ⟨h.higher, h.runs, Or.inl ⟨rfl, htab⟩⟩
  have htab' : w.table (rtFfs w.group - 1) = b :: rest := hffs ▸ htab
  by_cases hstay : Stays prio w
  · rw [rtSchedule_stays ⟨hlock, hgroup⟩ htab' h.runs hstay] at hs
    obtain rfl := Option.some.inj hs
    rw [Sched.setRunning, rtScheduleRemoveThread]
    dsimp only
    refine ⟨fun p hp => ?_, Function.update_self _ _ _, Or.inl ⟨rfl, ?_⟩⟩
    · rw [Function.update_of_ne (Nat.ne_of_lt hp)]
      exact h.higher p hp
    · rw [Function.update_self, List.erase_of_not_mem hout, htab]
  · rw [rtSchedule_preempts ⟨hlock, hgroup⟩ htab' h.runs hstay hba, rtScheduleInsertThread,
      if_neg hba.symm] at hs
    dsimp only at hs
    -- the bit is clear again by now, so the thread goes to the front
    have hclear : ¬ Function.update w.yield w.current false w.current = true := by
      rw [Function.update_self]
      decide
    rw [if_neg hclear, htab] at hs
    obtain rfl := Option.some.inj hs
    have hfront : (w.current :: b :: rest).erase b = w.current :: rest := by
      rw [List.erase_cons_tail (by simpa using hba.symm), List.erase_cons_head]
    rw [Sched.setRunning, rtScheduleRemoveThread]
    dsimp only
    refine ⟨fun p hp => ?_, Function.update_self _ _ _, Or.inr ⟨rfl, ?_⟩⟩
    · rw [hbp, Function.update_of_ne (Nat.ne_of_lt hp), Function.update_of_ne (Nat.ne_of_lt hp)]
      exact h.higher p hp
    · rw [hbp, Function.update_self, Function.update_self, hfront]

include hprio in
theorem TakeTurns.schedule {a b : Tid} {rest : List Tid} (hab : prio a = prio b) {w w' : Sched}
    (h : TakeTurns prio a b rest w) (hs : rtSchedule prio w = some w') :
    TakeTurns prio a b rest w' := by
  obtain ⟨v, hv, hinv, -⟩ := h.toSchedInv.schedule hprio
  obtain rfl := Option.some.inj (hs.symm.trans hv)
  rcases h.turn with ⟨hcur, htab⟩ | ⟨hcur, htab⟩
  · obtain ⟨hhigh, hrun, hturn⟩ := h.schedule_first hprio hcur htab hs
    exact ⟨hinv, hrun, hhigh, hturn⟩
  · obtain ⟨hhigh, hrun, hturn⟩ := (h.symm hab).schedule_first hprio hcur (hab ▸ htab) hs
    exact TakeTurns.symm hab.symm ⟨hinv, hrun, hhigh, hturn⟩

include hprio in
theorem takeTurns_step {a b : Tid} {rest : List Tid} (hab : prio a = prio b)
    {w w' : Sched} {x : SchedAction}
    (h : TakeTurns prio a b rest w) (hx : Undisturbed prio (prio a) x)
    (hs : schedStep prio w x = some w') :
    TakeTurns prio a b rest w' := by
  obtain ⟨v, hv, hinv⟩ := schedStep_inv hprio h.toSchedInv x
  obtain rfl := Option.some.inj (hs.symm.trans hv)
  cases x with
  | suspend => exact hx.elim
  | schedule => exact h.schedule hprio hab hs
  | expire =>
    obtain rfl := Option.some.inj hs
    exact ⟨hinv, h.runs, h.higher, h.turn⟩
  | enterCritical =>
    obtain rfl := Option.some.inj hs
    exact ⟨hinv, h.runs, h.higher, h.turn⟩
  | exitCritical =>
    obtain rfl := Option.some.inj hs
    exact ⟨hinv, h.runs, h.higher, h.turn⟩
  | resume t =>
    rw [schedStep] at hs
    split at hs
    · next hsusp =>
      have htc : t ≠ w.current := by
        intro he
        rw [he, h.runs] at hsusp
        cases hsusp
      rw [rtScheduleInsertThread, if_neg htc] at hs
      obtain rfl := Option.some.inj hs
      refine ⟨hinv, ?_, fun p hp => ?_, ?_⟩
      · dsimp only
        rw [Function.update_of_ne htc.symm]
        exact h.runs
      · dsimp only
        rw [Function.update_of_ne (Nat.ne_of_lt (Nat.lt_trans hp hx))]
        exact h.higher p hp
      · dsimp only
        rw [Function.update_of_ne (Nat.ne_of_lt hx)]
        exact h.turn
    · obtain rfl := Option.some.inj hs
      exact h

include hprio in
/-- From any reachable state where the current thread runs with no ready thread above it and threads
of its own priority ready, the first of these and the current thread take turns, however often their
time is up: the other threads of the list stay ready and never run. -/
theorem sched_starves (first : Tid) {as : List SchedAction} {w : Sched}
    (hr : runs (schedStep prio) (schedInit first) as = some w) (hrun : w.stat w.current = .running)
    (hhigh : ∀ p < prio w.current, w.table p = []) {b : Tid} {rest : List Tid}
    (htab : w.table (prio w.current) = b :: rest) {xs : List SchedAction}
    (hxs : ∀ x ∈ xs, Undisturbed prio (prio w.current) x) {v : Sched}
    (hv : runs (schedStep prio) w xs = some v) :
    ((v.current = w.current ∧ v.table (prio w.current) = b :: rest) ∨
        (v.current = b ∧ v.table (prio w.current) = w.current :: rest)) ∧
      ∀ t ∈ rest, v.stat t = .ready ∧ v.current ≠ t := by
  obtain ⟨u, hu, hinv⟩ := schedRun_inv hprio (schedInit_inv first) as
  obtain rfl := Option.some.inj (hr.symm.trans hu)
  have hab : prio w.current = prio b := (hinv.table _ b (htab ▸ List.mem_cons_self)).1.symm
  have hall : Along (schedStep prio) (fun _ x _ => Undisturbed prio (prio w.current) x) w xs :=
    along_of_forall hxs w
  have h : TakeTurns prio w.current b rest v := by
    refine runs_invariant_along ?_ ⟨hinv, hrun, hhigh, Or.inl ⟨rfl, htab⟩⟩ hall hv
    intro s x t hs hx ht
    exact takeTurns_step hprio hab hs hx ht
  refine ⟨h.turn, fun t ht => ?_⟩
  have hready : v.stat t = .ready := by
    rcases h.turn with ⟨-, htab'⟩ | ⟨-, htab'⟩ <;>
      exact (h.table _ t (htab' ▸ List.mem_cons_of_mem _ ht)).2
  exact ⟨hready, fun he => h.current (he ▸ hready)⟩

/-- Three threads of one priority, and three times that the current one has used up its time. -/
theorem sched_starves_third :
    ∃ w v, runs (schedStep fun _ => 5) (schedInit 0) [.resume 1, .resume 2] = some w ∧
      runs (schedStep fun _ => 5) w [.expire, .schedule, .expire, .schedule, .expire,
        .schedule] = some v ∧
      w.table 5 = [2, 1] ∧ v.current = 2 ∧ v.table 5 = [0, 1] ∧ v.stat 1 = .ready := by
  obtain ⟨w, hw, hrun, hcur, htab, hhigh, hv⟩ : ∃ w,
    runs (schedStep fun _ => 5) (schedInit 0) [.resume 1, .resume 2] = some w ∧
      w.stat w.current = .running ∧ w.current = 0 ∧ w.table 5 = [2, 1] ∧ (∀ p < 5, w.table p = []) ∧
      (runs (schedStep fun _ => 5) w [.expire, .schedule, .expire, .schedule, .expire,
        .schedule]).map Sched.current =
        some 2 := ⟨_, rfl, rfl, rfl, rfl, by decide, by decide⟩
  obtain ⟨v, hv', hvcur⟩ := Option.map_eq_some_iff.mp hv
  have hxs : ∀ x ∈ [SchedAction.expire, .schedule, .expire, .schedule, .expire, .schedule],
      Undisturbed (fun _ => 5) 5 x := by simp [Undisturbed]
  have hprio : ∀ _ : Tid, 5 < 32 := fun _ => by decide
  have hstarve := sched_starves hprio 0 hw hrun hhigh htab hxs hv'
  refine ⟨w, v, hw, hv', htab, hvcur, ?_, (hstarve.2 1 (by decide)).1⟩
  rcases hstarve.1 with ⟨hc, -⟩ | ⟨-, ht⟩
  · rw [hvcur, hcur] at hc
    cases hc
  · rw [hcur] at ht
    exact ht

end Queue

end Rk3576.Kernel
