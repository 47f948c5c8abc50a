import Mathlib.Algebra.Group.Nat.Defs
import Mathlib.Data.List.Nodup
import Mathlib.Logic.Function.Basic
import Rk3576.Lib.Run

/-! The hard timers of `timer.c`, with RT_TIMER_SKIP_LIST_LEVEL 1. The tick is a 32-bit counter that
overflows; `now` counts the same ticks without an end. -/
namespace Rk3576.Kernel
open Rk3576.Run

abbrev TimerId := Nat

def halfTickMax : BitVec 32 := 0xffffffff#32 / 2

/-- `struct rt_timer`; `activated` and `periodic` are bits of its flag. -/
structure RtTimer where
  activated : Bool
  periodic : Bool
  timeoutTick : BitVec 32
  initTick : BitVec 32

/-- The last `rt_timer_start` of a timer: the tick and the time it was given, and its number among
all starts. -/
structure TimerStart where
  begun : Nat
  span : Nat
  serial : Nat

def TimerStart.deadline (s : TimerStart) : Nat := s.begun + s.span

/-- Where `rt_timer_check` is: not running, at the head of its loop, or in a timeout function. -/
inductive CheckPc where
  | idle
  | checking
  | callback (t : TimerId)

structure TimerFired where
  timer : TimerId
  start : TimerStart
  time : Nat

/-- `list` is `_timer_list`, `temp` the local list of `rt_timer_check`. `armed` says of a timer that
it was started and since then neither stopped nor detached, nor has it fired for the last time. -/
structure TimerWorld where
  tick : BitVec 32
  timer : TimerId → RtTimer
  list : List TimerId
  temp : List TimerId
  pc : CheckPc
  now : Nat
  start : TimerId → TimerStart
  starts : Nat
  armed : TimerId → Bool
  fired : List TimerFired

/-- The place `rt_timer_start` finds: behind the timers with the same timeout. -/
def timerInsert (timer : TimerId → RtTimer) (x : TimerId) : List TimerId → List TimerId
  | [] => [x]
  | t :: ts =>
    if (timer t).timeoutTick - (timer x).timeoutTick = 0 then t :: timerInsert timer x ts
    else if (timer t).timeoutTick - (timer x).timeoutTick < halfTickMax then x :: t :: ts
    else t :: timerInsert timer x ts

def timerRemove (w : TimerWorld) (t : TimerId) : TimerWorld :=
  { w with list := w.list.erase t, temp := w.temp.erase t }

def TimerWorld.setArmed (w : TimerWorld) (t : TimerId) (b : Bool) : TimerWorld :=
  { w with armed := Function.update w.armed t b }

def TimerWorld.setTimer (w : TimerWorld) (t : TimerId) (f : RtTimer → RtTimer) : TimerWorld :=
  { w with timer := Function.update w.timer t (f (w.timer t)) }

def rtTimerStart (w : TimerWorld) (t : TimerId) : TimerWorld :=
  let w := (timerRemove w t).setTimer t fun x =>
    { x with activated := false, timeoutTick := w.tick + x.initTick }
  let w := { w with list := timerInsert w.timer t w.list }
  let w := w.setTimer t fun x => { x with activated := true }
  { w.setArmed t true with
    start := Function.update w.start t ⟨w.now, (w.timer t).initTick.toNat, w.starts⟩
    starts := w.starts + 1 }

def rtTimerStop (w : TimerWorld) (t : TimerId) : TimerWorld :=
  if (w.timer t).activated = false then w.setArmed t false
  else ((timerRemove w t).setTimer t fun x => { x with activated := false }).setArmed t false

/-- The part of `rt_timer_detach` and `rt_timer_delete` with interrupts off. -/
def rtTimerDetach (w : TimerWorld) (t : TimerId) : TimerWorld :=
  ((timerRemove w t).setTimer t fun x => { x with activated := false }).setArmed t false

inductive TimerCtrl where
  | setTime (time : BitVec 32)
  | setOneshot
  | setPeriodic

/-- `none` is a failed assertion. -/
def rtTimerControl (w : TimerWorld) (t : TimerId) : TimerCtrl → Option TimerWorld
  | .setTime time =>
    if time < halfTickMax then some (w.setTimer t fun x => { x with initTick := time }) else none
  | .setOneshot => some (w.setTimer t fun x => { x with periodic := false })
  | .setPeriodic => some (w.setTimer t fun x => { x with periodic := true })

inductive TimerOp where
  | start (t : TimerId)
  | stop (t : TimerId)
  | detach (t : TimerId)
  | control (t : TimerId) (c : TimerCtrl)

def timerOp (w : TimerWorld) : TimerOp → Option TimerWorld
  | .start t => some (rtTimerStart w t)
  | .stop t => some (rtTimerStop w t)
  | .detach t => some (rtTimerDetach w t)
  | .control t c => rtTimerControl w t c

def rtTickIncrease (w : TimerWorld) : TimerWorld :=
  { w with tick := w.tick + 1, now := w.now + 1, pc := .checking }

def timerCheckHead (w : TimerWorld) : TimerWorld :=
  match w.list with
  | [] => { w with pc := .idle }
  | t :: ts =>
    if w.tick - (w.timer t).timeoutTick < halfTickMax then
      let w := { w with
        list := ts, temp := [t], pc := .callback t, fired := w.fired ++ [⟨t, w.start t, w.now⟩] }
      if (w.timer t).periodic then w
      else (w.setTimer t fun x => { x with activated := false }).setArmed t false
    else { w with pc := .idle }

/-- After the timeout function of `t`: nothing if it removed or started the timer itself. -/
def timerCheckTail (w : TimerWorld) (t : TimerId) : TimerWorld :=
  let w := { w with pc := .checking }
  if w.temp = [] then w
  else
    let w := { w with temp := w.temp.erase t }
    if (w.timer t).periodic ∧ (w.timer t).activated then rtTimerStart w t else w.setArmed t false

inductive TimerAction where
  | op (o : TimerOp)
  | tick
  | check

/-- Timers are used by threads and interrupts while no check runs, and by timeout functions. -/
def timerStep (w : TimerWorld) : TimerAction → Option TimerWorld
  | .op o =>
    match w.pc with
    | .checking => none
    | .idle | .callback _ => timerOp w o
  | .tick =>
    match w.pc with
    | .idle => some (rtTickIncrease w)
    | .checking | .callback _ => none
  | .check =>
    match w.pc with
    | .idle => none
    | .checking => some (timerCheckHead w)
    | .callback t => some (timerCheckTail w t)

/-- No timer runs yet; `tick` is `rt_tick` at some point of the run. -/
def timerInit (timer : TimerId → RtTimer) (now : Nat) : TimerWorld :=
  ⟨BitVec.ofNat 32 now, timer, [], [], .idle, now, fun _ => ⟨0, 0, 0⟩, 0, fun _ => false, []⟩

theorem tick_eq_iff {a b : Nat} (h1 : a ≤ b + (2 ^ 31 - 2)) (h2 : b ≤ a + (2 ^ 31 - 1)) :
    BitVec.ofNat 32 a - BitVec.ofNat 32 b = 0 ↔ a = b := by
  rw [← BitVec.toNat_inj, BitVec.toNat_sub, BitVec.toNat_ofNat, BitVec.toNat_ofNat]
  change _ = 0 ↔ _
  omega

theorem tick_lt_iff {a b : Nat} (h1 : a ≤ b + (2 ^ 31 - 2)) (h2 : b ≤ a + (2 ^ 31 - 1)) :
    BitVec.ofNat 32 a - BitVec.ofNat 32 b < halfTickMax ↔ b ≤ a := by
  rw [BitVec.lt_def, BitVec.toNat_sub, BitVec.toNat_ofNat, BitVec.toNat_ofNat]
  change _ < 2147483647 ↔ _
  omega

/-- The order in which timers are due: earlier deadlines first, then earlier starts. -/
def TimerStart.Before (a b : TimerStart) : Prop :=
  a.deadline < b.deadline ∨ (a.deadline = b.deadline ∧ a.serial < b.serial)

theorem timerInsert_perm (timer : TimerId → RtTimer) (x : TimerId) (l : List TimerId) :
    (timerInsert timer x l).Perm (x :: l) := by
  induction l with
  | nil => exact List.Perm.refl _
  | cons t ts ih =>
    rw [timerInsert]
    split
    · exact (ih.cons t).trans (List.Perm.swap x t ts)
    · split
      · exact List.Perm.refl _
      · exact (ih.cons t).trans (List.Perm.swap x t ts)

/-- With all timeouts in a window of half the counter the list stays in order. -/
theorem timerInsert_sorted {timer : TimerId → RtTimer} {start : TimerId → TimerStart}
    {x : TimerId} {l : List TimerId}
    (htick : ∀ t, t ∈ x :: l → (timer t).timeoutTick = BitVec.ofNat 32 (start t).deadline)
    (hlow : ∀ t ∈ l, (start x).deadline ≤ (start t).deadline + (2 ^ 31 - 1))
    (hhigh : ∀ t ∈ l, (start t).deadline ≤ (start x).deadline + (2 ^ 31 - 2))
    (hnew : ∀ t ∈ l, (start t).serial < (start x).serial)
    (h : l.Pairwise fun a b => (start a).Before (start b)) :
    (timerInsert timer x l).Pairwise fun a b => (start a).Before (start b) := by
  induction l with
  | nil => exact List.pairwise_singleton _ _
  | cons t ts ih =>
    obtain ⟨ht, hts⟩ := List.pairwise_cons.mp h
    have hrest :=
      ih (fun u hu => htick u (by grind)) (fun u hu => hlow u (List.mem_cons_of_mem t hu))
      (fun u hu => hhigh u (List.mem_cons_of_mem t hu))
        (fun u hu => hnew u (List.mem_cons_of_mem t hu)) hts
    have hfirst : (start t).Before (start x) →
        ∀ u ∈ timerInsert timer x ts, (start t).Before (start u) := by
      intro htx u hu
      rcases List.mem_cons.mp ((timerInsert_perm timer x ts).mem_iff.mp hu) with rfl | hu'
      · exact htx
      · exact ht u hu'
    have hlow' := hlow t List.mem_cons_self
    have hhigh' := hhigh t List.mem_cons_self
    have heq := tick_eq_iff hhigh' hlow'
    have hle := tick_lt_iff hhigh' hlow'
    rw [timerInsert, htick t (by grind), htick x List.mem_cons_self]
    split
    · next hzero =>
        exact List.pairwise_cons.mpr
          ⟨hfirst (Or.inr ⟨heq.mp hzero, hnew t List.mem_cons_self⟩), hrest⟩
    · next hzero =>
      split
      · next hlt =>
        have hxt : (start x).deadline < (start t).deadline :=
          Nat.lt_of_le_of_ne (hle.mp hlt) fun he => hzero (heq.mpr he.symm)
        refine List.pairwise_cons.mpr ⟨fun u hu => ?_, h⟩
        rcases List.mem_cons.mp hu with rfl | hu'
        · exact Or.inl hxt
        · rcases ht u hu' with hb | hb
          · exact Or.inl (Nat.lt_trans hxt hb)
          · exact Or.inl (hb.1 ▸ hxt)
      · next hlt =>
        exact List.pairwise_cons.mpr
          ⟨hfirst (Or.inl (Nat.lt_of_not_le fun hxt => hlt (hle.mpr hxt))), hrest⟩

/-- How far behind `now` a deadline in the list may be: by one tick while a check is on. -/
def CheckPc.slack : CheckPc → Nat
  | .idle => 0
  | .checking | .callback _ => 1

/-- A timer in the list: its timeout is its deadline, which is ahead by less than half the counter
and, unless it was started with time 0, not past. -/
structure Running (w : TimerWorld) (t : TimerId) : Prop where
  activated : (w.timer t).activated = true
  timeout : (w.timer t).timeoutTick = BitVec.ofNat 32 (w.start t).deadline
  high : (w.start t).deadline ≤ w.now + (2 ^ 31 - 2)
  low : w.now ≤ (w.start t).deadline + w.pc.slack
  zero : w.now = (w.start t).deadline + w.pc.slack → (w.start t).span = 0
  serial : (w.start t).serial < w.starts

/-- A timeout function was called on time: at the deadline, or one tick after it for time 0. -/
structure OnTime (w : TimerWorld) (e : TimerFired) : Prop where
  time : e.time = e.start.deadline ∨ (e.start.span = 0 ∧ e.time = e.start.deadline + 1)
  past : e.start.deadline ≤ w.now
  serial : e.start.serial < w.starts

/-- Where an armed timer is: in the list, or periodic and its timeout function runs. -/
def Pending (w : TimerWorld) (t : TimerId) : Prop :=
  t ∈ w.list ∨ (w.pc = .callback t ∧ w.temp = [t] ∧ (w.timer t).activated = true)

structure TimerInv (w : TimerWorld) : Prop where
  tick : w.tick = BitVec.ofNat 32 w.now
  init : ∀ t, (w.timer t).initTick < halfTickMax
  temp : w.temp = [] ∨ ∃ t, w.pc = .callback t ∧ w.temp = [t]
  nodup : (w.temp ++ w.list).Nodup
  running : ∀ t ∈ w.list, Running w t
  armed : ∀ t ∈ w.list, w.armed t = true
  pending : ∀ t, w.armed t = true → Pending w t
  sorted : w.list.Pairwise fun a b => (w.start a).Before (w.start b)
  fired : ∀ e ∈ w.fired, OnTime w e
  order : w.fired.Pairwise fun a b => a.start.Before b.start
  ahead : ∀ e ∈ w.fired, ∀ t ∈ w.list, e.start.Before (w.start t)

theorem setArmed_self (w : TimerWorld) (t : TimerId) (b : Bool) : (w.setArmed t b).armed t = b := by
  rw [TimerWorld.setArmed]
  dsimp only
  rw [Function.update_self]

theorem setArmed_of_ne (w : TimerWorld) {t u : TimerId} (b : Bool) (hu : u ≠ t) :
    (w.setArmed t b).armed u = w.armed u := by
  rw [TimerWorld.setArmed]
  dsimp only
  rw [Function.update_of_ne hu]

theorem setTimer_setArmed (w : TimerWorld) (t u : TimerId) (f : RtTimer → RtTimer) (b : Bool) :
    (w.setTimer t f).setArmed u b = (w.setArmed u b).setTimer t f := rfl

theorem rtTimerStart_setArmed (w : TimerWorld) (t : TimerId) (b : Bool) :
    rtTimerStart (w.setArmed t b) t = rtTimerStart w t := by
  rw [rtTimerStart, rtTimerStart]
  simp only [TimerWorld.setArmed, timerRemove, TimerWorld.setTimer, Function.update_idem]

theorem erase_singleton_self {l : List TimerId} {t : TimerId} (hl : l = [t]) : l.erase t = [] := by
  rw [hl, List.erase_cons_head]

theorem erase_singleton_of_ne {l : List TimerId} {t u : TimerId} (hl : l = [u]) (hut : u ≠ t) :
    l.erase t = [u] := by
  rw [hl]
  exact List.erase_of_not_mem fun hmem => hut (List.mem_singleton.mp hmem).symm

theorem TimerInv.temp_nil {w : TimerWorld} (h : TimerInv w) (hno : ∀ t, w.pc ≠ .callback t) :
    w.temp = [] := by
  rcases h.temp with hnil | ⟨t, hcall, -⟩
  · exact hnil
  · exact absurd hcall (hno t)

theorem TimerInv.mem_list {w : TimerWorld} (h : TimerInv w) {t : TimerId} (ht : w.armed t = true)
    (hno : w.pc ≠ .callback t) : t ∈ w.list := by
  rcases h.pending t ht with hmem | ⟨hcall, -, -⟩
  · exact hmem
  · exact absurd hcall hno

theorem TimerInv.disarm {w : TimerWorld} (h : TimerInv w) {t : TimerId} (ht : t ∉ w.list) :
    TimerInv (w.setArmed t false) where
  tick := h.tick
  init := h.init
  temp := h.temp
  nodup := h.nodup
  running u hu :=
    let r := h.running u hu
    ⟨r.activated, r.timeout, r.high, r.low, r.zero, r.serial⟩
  armed u hu := by
    have hut : u ≠ t := fun hut => ht (hut ▸ hu)
    rw [setArmed_of_ne w false hut]
    exact h.armed u hu
  pending u hu := by
    by_cases hut : u = t
    · rw [hut, setArmed_self] at hu
      cases hu
    · rw [setArmed_of_ne _ false hut] at hu
      exact h.pending u hu
  sorted := h.sorted
  fired e he := ⟨(h.fired e he).time, (h.fired e he).past, (h.fired e he).serial⟩
  order := h.order
  ahead := h.ahead

theorem TimerInv.remove {w : TimerWorld} (h : TimerInv w) (t : TimerId) :
    TimerInv ((timerRemove w t).setArmed t false) where
  tick := h.tick
  init := h.init
  temp := by
    rcases h.temp with hnil | ⟨u, hpc, hu⟩
    · exact Or.inl (by rw [timerRemove, hnil]; rfl)
    · by_cases htu : u = t
      · exact Or.inl (erase_singleton_self (htu ▸ hu))
      · exact Or.inr ⟨u, hpc, erase_singleton_of_ne hu htu⟩
  nodup := h.nodup.sublist (List.erase_sublist.append List.erase_sublist)
  running u hu :=
    let r := h.running u (List.mem_of_mem_erase hu)
    ⟨r.activated, r.timeout, r.high, r.low, r.zero, r.serial⟩
  armed u hu := by
    have hut : u ≠ t := fun hut => h.nodup.of_append_right.not_mem_erase (hut ▸ hu)
    rw [setArmed_of_ne _ false hut]
    exact h.armed u (List.mem_of_mem_erase hu)
  pending u hu := by
    by_cases hut : u = t
    · rw [hut, setArmed_self] at hu
      cases hu
    · rw [setArmed_of_ne _ false hut] at hu
      rcases h.pending u hu with hmem | ⟨hpc, htemp, hact⟩
      · exact Or.inl ((List.mem_erase_of_ne hut).mpr hmem)
      · exact Or.inr ⟨hpc, erase_singleton_of_ne htemp hut, hact⟩
  sorted := h.sorted.sublist List.erase_sublist
  fired e he := ⟨(h.fired e he).time, (h.fired e he).past, (h.fired e he).serial⟩
  order := h.order
  ahead e he u hu := h.ahead e he u (List.mem_of_mem_erase hu)

theorem TimerInv.setTimer {w : TimerWorld} (h : TimerInv w) {t : TimerId} {f : RtTimer → RtTimer}
    (hinit : (f (w.timer t)).initTick < halfTickMax)
    (hrun : w.armed t = true → (f (w.timer t)).timeoutTick = (w.timer t).timeoutTick ∧
      (f (w.timer t)).activated = (w.timer t).activated) : TimerInv (w.setTimer t f) where
  tick := h.tick
  init u := by
    rw [TimerWorld.setTimer]
    dsimp only
    by_cases hut : u = t
    · subst hut
      rwa [Function.update_self]
    · rw [Function.update_of_ne hut]
      exact h.init u
  temp := h.temp
  nodup := h.nodup
  running u hu := by
    have r := h.running u hu
    by_cases hut : u = t
    · subst hut
      refine ⟨?_, ?_, r.high, r.low, r.zero, r.serial⟩
      · rw [TimerWorld.setTimer]
        dsimp only
        rw [Function.update_self, (hrun (h.armed u hu)).2, r.activated]
      · rw [TimerWorld.setTimer]
        dsimp only
        rw [Function.update_self, (hrun (h.armed u hu)).1, r.timeout]
    · refine ⟨?_, ?_, r.high, r.low, r.zero, r.serial⟩
      · rw [TimerWorld.setTimer]
        dsimp only
        rw [Function.update_of_ne hut, r.activated]
      · rw [TimerWorld.setTimer]
        dsimp only
        rw [Function.update_of_ne hut, r.timeout]
  armed := h.armed
  pending u hu := by
    rcases h.pending u hu with hmem | ⟨hpc, htemp, hact⟩
    · exact Or.inl hmem
    · refine Or.inr ⟨hpc, htemp, ?_⟩
      rw [TimerWorld.setTimer]
      dsimp only
      by_cases hut : u = t
      · subst hut
        rw [Function.update_self, (hrun hu).2, hact]
      · rw [Function.update_of_ne hut, hact]
  sorted := h.sorted
  fired e he := ⟨(h.fired e he).time, (h.fired e he).past, (h.fired e he).serial⟩
  order := h.order
  ahead := h.ahead

theorem TimerInv.detach {w : TimerWorld} (h : TimerInv w) (t : TimerId) :
    TimerInv (rtTimerDetach w t) := by
  rw [rtTimerDetach, setTimer_setArmed]
  refine (h.remove t).setTimer (h.init t) fun harmed => ?_
  rw [setArmed_self] at harmed
  cases harmed

theorem TimerInv.stop {w : TimerWorld} (h : TimerInv w) (t : TimerId) :
    TimerInv (rtTimerStop w t) := by
  rw [rtTimerStop]
  split
  · next hact =>
    refine h.disarm fun hmem => ?_
    rw [(h.running t hmem).activated] at hact
    cases hact
  · exact h.detach t

theorem TimerInv.control {w w' : TimerWorld} (h : TimerInv w) {t : TimerId} {c : TimerCtrl}
    (hs : rtTimerControl w t c = some w') : TimerInv w' := by
  cases c with
  | setTime time =>
    rw [rtTimerControl] at hs
    split at hs
    · next htime =>
      obtain rfl := Option.some.inj hs
      exact h.setTimer htime fun _ => ⟨rfl, rfl⟩
    · cases hs
  | setOneshot | setPeriodic =>
    obtain rfl := Option.some.inj hs
    exact h.setTimer (h.init t) fun _ => ⟨rfl, rfl⟩

theorem lt_halfTickMax {x : BitVec 32} (h : x < halfTickMax) : x.toNat ≤ 2 ^ 31 - 2 := by
  rw [BitVec.lt_def] at h
  change _ < 2147483647 at h
  omega

/-- A start: the timer goes behind every timer that is due no later. -/
theorem TimerInv.start {w : TimerWorld} (h : TimerInv w) (t : TimerId) :
    TimerInv (rtTimerStart w t) := by
  have hr := h.remove t
  have hnot : t ∉ w.list.erase t := h.nodup.of_append_right.not_mem_erase
  have hinit := lt_halfTickMax (h.init t)
  have hspan : ∀ x : RtTimer,
    (x = { w.timer t with activated := false, timeoutTick := w.tick + (w.timer t).initTick }) →
      x.timeoutTick = BitVec.ofNat 32 (w.now + (w.timer t).initTick.toNat) := by
    rintro x rfl
    dsimp only
    rw [h.tick, BitVec.ofNat_add, BitVec.ofNat_toNat, BitVec.setWidth_eq]
  -- the timers and the starts after the call
  generalize htimer' : Function.update w.timer t
    { w.timer t with activated := false, timeoutTick := w.tick + (w.timer t).initTick } = timer'
  generalize hstart' : Function.update w.start t ⟨w.now, (w.timer t).initTick.toNat, w.starts⟩ =
    start'
  have hself : timer' t =
      { w.timer t with activated := false, timeoutTick := w.tick + (w.timer t).initTick } := by
    rw [← htimer', Function.update_self]
  have hother : ∀ u, u ≠ t → timer' u = w.timer u ∧ start' u = w.start u := by
    intro u hu
    rw [← htimer', ← hstart', Function.update_of_ne hu, Function.update_of_ne hu]
    exact ⟨rfl, rfl⟩
  have hst : start' t = ⟨w.now, (w.timer t).initTick.toNat, w.starts⟩ := by
    rw [← hstart', Function.update_self]
  have heq : rtTimerStart w t = { w with
      list := timerInsert timer' t (w.list.erase t), temp := w.temp.erase t
      timer := Function.update timer' t { timer' t with activated := true }, start :=
        start', starts := w.starts + 1
      armed := Function.update w.armed t true } := by
    rw [rtTimerStart]
    simp only [TimerWorld.setTimer, TimerWorld.setArmed, timerRemove]
    rw [htimer', Function.update_self, hself, ← hstart']
  have hmem : ∀ u, u ∈ timerInsert timer' t (w.list.erase t) ↔ u = t ∨ u ∈ w.list.erase t := by
    intro u
    rw [(timerInsert_perm timer' t _).mem_iff, List.mem_cons]
  have hne : ∀ u, u ∈ w.list.erase t → u ≠ t := fun u hu hut => hnot (hut ▸ hu)
  have hdead : (start' t).deadline = w.now + (w.timer t).initTick.toNat := by
    rw [hst]
    rfl
  have htick : ∀ u, u ∈ t :: w.list.erase t →
      (timer' u).timeoutTick = BitVec.ofNat 32 (start' u).deadline := by
    intro u hu
    rcases List.mem_cons.mp hu with rfl | hu'
    · rw [hdead]
      exact hspan _ hself
    · rw [(hother u (hne u hu')).1, (hother u (hne u hu')).2]
      exact (hr.running u hu').timeout
  have hslack : w.pc.slack ≤ 1 := by
    cases w.pc <;> simp [CheckPc.slack]
  have hsorted : (timerInsert timer' t (w.list.erase t)).Pairwise fun a b =>
      (start' a).Before (start' b) := by
    refine timerInsert_sorted htick (fun u hu => ?_) (fun u hu => ?_) (fun u hu => ?_) ?_
    · have hlow := (hr.running u hu).low
      change w.now ≤ (w.start u).deadline + w.pc.slack at hlow
      rw [hdead, (hother u (hne u hu)).2]
      omega
    · have hhigh := (hr.running u hu).high
      change (w.start u).deadline ≤ w.now + _ at hhigh
      rw [hdead, (hother u (hne u hu)).2]
      omega
    · rw [(hother u (hne u hu)).2, hst]
      exact (hr.running u hu).serial
    · refine List.Pairwise.imp_of_mem (fun {a b} ha hb hab => ?_) hr.sorted
      rw [(hother a (hne a ha)).2, (hother b (hne b hb)).2]
      exact hab
  rw [heq]
  refine ⟨h.tick, fun u => ?_, hr.temp, ?_, fun u hu => ?_, fun u hu => ?_, fun u hu => ?_, ?_,
    fun e he => ?_,
    h.order, fun e he u hu => ?_⟩
  · dsimp only
    by_cases hut : u = t
    · subst hut
      rw [Function.update_self, hself]
      exact h.init u
    · rw [Function.update_of_ne hut, (hother u hut).1]
      exact h.init u
  · have hperm : (w.temp.erase t ++ timerInsert timer' t (w.list.erase t)).Perm
        (t :: (w.temp.erase t ++ w.list.erase t)) :=
      ((timerInsert_perm timer' t _).append_left _).trans List.perm_middle
    refine hperm.nodup_iff.mpr (List.nodup_cons.mpr ⟨fun hmem' => ?_, hr.nodup⟩)
    rcases List.mem_append.mp hmem' with htemp | hlist
    · exact h.nodup.of_append_left.not_mem_erase htemp
    · exact hnot hlist
  · rcases (hmem u).mp hu with rfl | hu'
    · refine ⟨?_, ?_, ?_, ?_, ?_, ?_⟩
      · dsimp only
        rw [Function.update_self]
      · dsimp only
        rw [Function.update_self]
        exact htick u List.mem_cons_self
      · dsimp only
        omega
      · dsimp only
        omega
      · dsimp only
        intro hz
        rw [hst]
        dsimp only
        omega
      · dsimp only
        rw [hst]
        exact Nat.lt_succ_self _
    · have r := hr.running u hu'
      have hs := (hother u (hne u hu')).2
      refine ⟨?_, ?_, ?_, ?_, ?_, ?_⟩
      · dsimp only
        rw [Function.update_of_ne (hne u hu'), (hother u (hne u hu')).1]
        exact r.activated
      · dsimp only
        rw [Function.update_of_ne (hne u hu')]
        exact htick u (List.mem_cons_of_mem t hu')
      · dsimp only
        rw [hs]
        exact r.high
      · dsimp only
        rw [hs]
        exact r.low
      · dsimp only
        rw [hs]
        exact r.zero
      · dsimp only
        rw [hs]
        exact Nat.lt_succ_of_lt r.serial
  · dsimp only
    rcases (hmem u).mp hu with rfl | hu'
    · exact Function.update_self u true w.armed
    · rw [Function.update_of_ne (hne u hu')]
      exact h.armed u (List.mem_of_mem_erase hu')
  · dsimp only at hu
    by_cases hut : u = t
    · exact Or.inl ((hmem u).mpr (Or.inl hut))
    · rw [Function.update_of_ne hut] at hu
      rcases hr.pending u ((setArmed_of_ne _ false hut).trans hu) with hu' | ⟨hpc, htemp, hact⟩
      · exact Or.inl ((hmem u).mpr (Or.inr hu'))
      · refine Or.inr ⟨hpc, htemp, ?_⟩
        dsimp only
        rw [Function.update_of_ne hut, (hother u hut).1]
        exact hact
  · exact hsorted
  · exact ⟨(h.fired e he).time, (h.fired e he).past, Nat.lt_succ_of_lt (h.fired e he).serial⟩
  · dsimp only at he ⊢
    rcases (hmem u).mp hu with rfl | hu'
    · have hpast := (h.fired e he).past
      have hserial := (h.fired e he).serial
      rw [TimerStart.Before, hdead, hst]
      dsimp only
      omega
    · rw [(hother u (hne u hu')).2]
      exact hr.ahead e he u hu'

theorem TimerInv.op {w w' : TimerWorld} (h : TimerInv w) {o : TimerOp}
    (hs : timerOp w o = some w') : TimerInv w' := by
  cases o with
  | start t =>
    obtain rfl := Option.some.inj hs
    exact h.start t
  | stop t =>
    obtain rfl := Option.some.inj hs
    exact h.stop t
  | detach t =>
    obtain rfl := Option.some.inj hs
    exact h.detach t
  | control t c => exact h.control hs

theorem TimerInv.tickIncrease {w : TimerWorld} (h : TimerInv w) (hpc : w.pc = .idle) :
    TimerInv (rtTickIncrease w) where
  tick := by
    rw [rtTickIncrease]
    dsimp only
    rw [h.tick, BitVec.ofNat_add]
    rfl
  init := h.init
  temp := Or.inl (h.temp_nil fun u hu => by cases hpc.symm.trans hu)
  nodup := h.nodup
  running t ht := by
    have r := h.running t ht
    have hlow := r.low
    have hzero := r.zero
    have hhigh := r.high
    rw [hpc, CheckPc.slack] at hlow hzero
    refine ⟨r.activated, r.timeout, ?_, ?_, fun hz => hzero ?_, r.serial⟩
    · rw [rtTickIncrease]
      dsimp only
      omega
    · rw [rtTickIncrease, CheckPc.slack]
      dsimp only
      omega
    · rw [rtTickIncrease, CheckPc.slack] at hz
      dsimp only at hz
      omega
  armed := h.armed
  pending t ht := Or.inl (h.mem_list ht fun hcall => by cases hpc.symm.trans hcall)
  sorted := h.sorted
  fired e he := ⟨(h.fired e he).time, Nat.le_succ_of_le (h.fired e he).past, (h.fired e he).serial⟩
  order := h.order
  ahead := h.ahead

theorem TimerInv.leave {w : TimerWorld} (h : TimerInv w) (hpc : w.pc = .checking)
    (hnot : ∀ t ∈ w.list, w.now < (w.start t).deadline) : TimerInv { w with pc := .idle } where
  tick := h.tick
  init := h.init
  temp := Or.inl (h.temp_nil fun u hu => by cases hpc.symm.trans hu)
  nodup := h.nodup
  running t ht := by
    have r := h.running t ht
    have hlt := hnot t ht
    refine ⟨r.activated, r.timeout, r.high, Nat.le_of_lt hlt, fun hz => ?_, r.serial⟩
    exact absurd hz (Nat.ne_of_lt hlt)
  armed := h.armed
  pending t ht := Or.inl (h.mem_list ht fun hcall => by cases hpc.symm.trans hcall)
  sorted := h.sorted
  fired e he := ⟨(h.fired e he).time, (h.fired e he).past, (h.fired e he).serial⟩
  order := h.order
  ahead := h.ahead

/-- The head of the list is due: it leaves the list and its timeout function is called. -/
theorem TimerInv.fire {w : TimerWorld} (h : TimerInv w) (hpc : w.pc = .checking)
    {t : TimerId} {ts : List TimerId}
    (hl : w.list = t :: ts) (hdue : (w.start t).deadline ≤ w.now) :
    TimerInv { w with
        list := ts, temp := [t], pc := .callback t,
        fired := w.fired ++ [⟨t, w.start t, w.now⟩] } := by
  have r := h.running t (hl ▸ List.mem_cons_self)
  have hlow := r.low
  have hzero := r.zero
  have hnodup := h.nodup.of_append_right
  have hsorted := h.sorted
  rw [hl] at hnodup hsorted
  rw [hpc, CheckPc.slack] at hlow hzero
  obtain ⟨ht, hts⟩ := List.pairwise_cons.mp hsorted
  have hsub : ∀ u ∈ ts, u ∈ w.list := fun u hu => hl ▸ List.mem_cons_of_mem t hu
  have hnew : OnTime w ⟨t, w.start t, w.now⟩ := by
    refine ⟨?_, hdue, r.serial⟩
    dsimp only
    by_cases hlate : w.now = (w.start t).deadline + 1
    · exact Or.inr ⟨hzero hlate, hlate⟩
    · exact Or.inl (by omega)
  refine ⟨h.tick, h.init, Or.inr ⟨t, rfl, rfl⟩, hnodup, fun u hu => ?_,
    fun u hu => h.armed u (hsub u hu), fun u hu => ?_, hts, fun e he => ?_, ?_, fun e he u hu => ?_⟩
  · have ru := h.running u (hsub u hu)
    have hlowu := ru.low
    have hzerou := ru.zero
    rw [hpc] at hlowu hzerou
    exact ⟨ru.activated, ru.timeout, ru.high, hlowu, hzerou, ru.serial⟩
  · have hmem := h.mem_list hu fun hcall => by cases hpc.symm.trans hcall
    rw [hl] at hmem
    rcases List.mem_cons.mp hmem with rfl | hmem'
    · exact Or.inr ⟨rfl, rfl, r.activated⟩
    · exact Or.inl hmem'
  · rcases List.mem_append.mp he with he' | he'
    · exact ⟨(h.fired e he').time, (h.fired e he').past, (h.fired e he').serial⟩
    · obtain rfl := List.mem_singleton.mp he'
      exact ⟨hnew.time, hnew.past, hnew.serial⟩
  · refine List.pairwise_append.mpr ⟨h.order, List.pairwise_singleton _ _, fun e he b hb => ?_⟩
    obtain rfl := List.mem_singleton.mp hb
    exact h.ahead e he t (hl ▸ List.mem_cons_self)
  · rcases List.mem_append.mp he with he' | he'
    · exact h.ahead e he' u (hsub u hu)
    · obtain rfl := List.mem_singleton.mp he'
      exact ht u hu

theorem TimerInv.checkHead {w : TimerWorld} (h : TimerInv w) (hpc : w.pc = .checking) :
    TimerInv (timerCheckHead w) := by
  rw [timerCheckHead]
  cases hl : w.list with
  | nil =>
    have hleave := h.leave hpc fun t ht => by
      rw [hl] at ht
      cases ht
    rwa [hl] at hleave
  | cons t ts =>
    have r := h.running t (hl ▸ List.mem_cons_self)
    have hlow := r.low
    have hhigh := r.high
    rw [hpc, CheckPc.slack] at hlow
    have hdue : w.tick - (w.timer t).timeoutTick < halfTickMax ↔ (w.start t).deadline ≤ w.now := by
      rw [h.tick, r.timeout]
      exact tick_lt_iff (by omega) (by omega)
    dsimp only
    split
    · next hlt =>
      have hfire := h.fire hpc hl (hdue.mp hlt)
      split
      · exact hfire
      · have hnodup := h.nodup.of_append_right
        rw [hl] at hnodup
        rw [setTimer_setArmed]
        refine (hfire.disarm (List.nodup_cons.mp hnodup).1).setTimer (h.init t) fun harmed => ?_
        rw [setArmed_self] at harmed
        cases harmed
    · next hlt =>
      have hhead : w.now < (w.start t).deadline := Nat.lt_of_not_le fun hle => hlt (hdue.mpr hle)
      have hsorted := h.sorted
      rw [hl] at hsorted
      have hall : ∀ u ∈ w.list, w.now < (w.start u).deadline := by
        intro u hu
        rw [hl] at hu
        rcases List.mem_cons.mp hu with rfl | hu'
        · exact hhead
        · rcases (List.pairwise_cons.mp hsorted).1 u hu' with hb | hb
          · exact Nat.lt_trans hhead hb
          · exact hb.1 ▸ hhead
      have hleave := h.leave hpc hall
      rwa [hl] at hleave

theorem TimerInv.back {w : TimerWorld} (h : TimerInv w) {t : TimerId} (hpc : w.pc = .callback t)
    (armed : TimerId → Bool) (hin : ∀ u ∈ w.list, armed u = true)
    (hout : ∀ u, armed u = true → u ∈ w.list) :
    TimerInv { w with pc := .checking, temp := [], armed := armed } where
  tick := h.tick
  init := h.init
  temp := Or.inl rfl
  nodup := h.nodup.of_append_right
  running u hu := by
    have r := h.running u hu
    have hlow := r.low
    have hzero := r.zero
    rw [hpc] at hlow hzero
    exact ⟨r.activated, r.timeout, r.high, hlow, hzero, r.serial⟩
  armed := hin
  pending u hu := Or.inl (hout u hu)
  sorted := h.sorted
  fired e he := ⟨(h.fired e he).time, (h.fired e he).past, (h.fired e he).serial⟩
  order := h.order
  ahead := h.ahead

theorem TimerInv.checkTail {w : TimerWorld} (h : TimerInv w) {t : TimerId}
    (hpc : w.pc = .callback t) :
    TimerInv (timerCheckTail w t) := by
  rw [timerCheckTail]
  rcases h.temp with hnil | ⟨u, hu, htemp⟩
  · -- the function took the timer out of the local list: what is armed is in the list
    have hback := h.back hpc w.armed h.armed fun u hu => by
      rcases h.pending u hu with hmem | ⟨-, htemp, -⟩
      · exact hmem
      · cases hnil.symm.trans htemp
    dsimp only
    rw [if_pos hnil, hnil]
    exact hback
  · obtain rfl : t = u := by
      rw [hpc] at hu
      exact CheckPc.callback.inj hu
    have ht : t ∉ w.list := fun hmem =>
      (List.nodup_append.mp h.nodup).2.2 t (htemp ▸ List.mem_singleton_self t) t hmem rfl
    have hback := h.back hpc (w.setArmed t false).armed
      (fun u hu => by
        have hut : u ≠ t := fun hut => ht (hut ▸ hu)
        rw [setArmed_of_ne w false hut]
        exact h.armed u hu)
      (fun u hu => by
        by_cases hut : u = t
        · rw [hut, setArmed_self] at hu
          cases hu
        · rw [setArmed_of_ne w false hut] at hu
          exact h.mem_list hu fun hcall => hut (CheckPc.callback.inj (hcall.symm.trans hpc)))
    dsimp only
    rw [if_neg (htemp ▸ List.cons_ne_nil t []), erase_singleton_self htemp]
    split
    · rw [← rtTimerStart_setArmed _ t false]
      exact hback.start t
    · exact hback

theorem timerStep_inv (w : TimerWorld) (a : TimerAction) (w' : TimerWorld) (h : TimerInv w)
    (hs : timerStep w a = some w') :
    TimerInv w' := by
  rw [timerStep.eq_def] at hs
  cases hpc : w.pc with
  | idle =>
    rw [hpc] at hs
    cases a with
    | op o => exact h.op hs
    | tick =>
      obtain rfl := Option.some.inj hs
      exact h.tickIncrease hpc
    | check => cases hs
  | checking =>
    rw [hpc] at hs
    cases a with
    | op o => cases hs
    | tick => cases hs
    | check =>
      obtain rfl := Option.some.inj hs
      exact h.checkHead hpc
  | callback t =>
    rw [hpc] at hs
    cases a with
    | op o => exact h.op hs
    | tick => cases hs
    | check =>
      obtain rfl := Option.some.inj hs
      exact h.checkTail hpc

theorem timerInit_inv {timer : TimerId → RtTimer} (hinit : ∀ t, (timer t).initTick < halfTickMax)
    (now : Nat) :
    TimerInv (timerInit timer now) where
  tick := rfl
  init := hinit
  temp := Or.inl rfl
  nodup := List.nodup_nil
  running t ht := by cases ht
  armed t ht := by cases ht
  pending t ht := by cases ht
  sorted := List.Pairwise.nil
  fired e he := by cases he
  order := List.Pairwise.nil
  ahead e he := by cases he

/-- Timers are started, stopped, deleted and set to other times by threads, interrupts and timeout
functions, for as long as it takes the counter to overflow any number of times. A timeout function
is called exactly when its time has passed, one tick later only for time 0; calls come in the order
of their deadlines and, with the same deadline, of their starts; no timer in the list is overdue
after a check; and the armed timers are those in the list, but for the one whose function runs. -/
theorem timers_on_time {timer : TimerId → RtTimer}
    (hinit : ∀ t, (timer t).initTick < halfTickMax) (now : Nat)
    {as : List TimerAction} {w : TimerWorld}
    (hr : runs timerStep (timerInit timer now) as = some w) :
    (∀ e ∈ w.fired, e.time = e.start.deadline ∨
      (e.start.span = 0 ∧ e.time = e.start.deadline + 1)) ∧
      (w.fired.Pairwise fun a b => a.start.Before b.start) ∧
      (w.pc = .idle → ∀ t ∈ w.list, w.now < (w.start t).deadline ∨
        ((w.start t).span = 0 ∧ w.now = (w.start t).deadline)) ∧
      (∀ t ∈ w.list, w.armed t = true) ∧
      (∀ t, w.armed t = true → t ∈ w.list ∨ (w.pc = .callback t ∧ w.temp = [t])) := by
  have h := runs_invariant timerStep_inv (timerInit_inv hinit now) hr
  refine ⟨fun e he => (h.fired e he).time, h.order, fun hpc t ht => ?_, h.armed, fun t ht => ?_⟩
  · have r := h.running t ht
    have hlow := r.low
    have hzero := r.zero
    rw [hpc, CheckPc.slack] at hlow hzero
    by_cases heq : w.now = (w.start t).deadline
    · exact Or.inr ⟨hzero heq, heq⟩
    · exact Or.inl (by omega)
  · rcases h.pending t ht with hmem | ⟨hpc, htemp, -⟩
    · exact Or.inl hmem
    · exact Or.inr ⟨hpc, htemp⟩

/-- A periodic and a one-shot timer over the overflow of the counter; the function of the first runs
at the end. -/
theorem timers_on_time_overflow :
    ∃ w, runs timerStep
      (timerInit (fun t => ⟨false, t == 0, 0, if t = 0 then 2 else 1⟩) (2 ^ 32 - 1))
        [.op (.start 0), .op (.start 1), .tick, .check, .check, .check, .tick, .check] = some w ∧
      w.tick = 1 ∧ w.fired.map (fun e => (e.timer, e.time)) = [(1, 2 ^ 32), (0, 2 ^ 32 + 1)] ∧
      w.armed 0 = true ∧ w.armed 1 = false ∧
      (∀ e ∈ w.fired, e.time = e.start.deadline ∨
        (e.start.span = 0 ∧ e.time = e.start.deadline + 1)) ∧
      (0 ∈ w.list ∨ (w.pc = .callback 0 ∧ w.temp = [0])) := by
  have hinit : ∀ t : TimerId, (⟨false, t == 0, 0, if t = 0 then 2 else 1⟩ : RtTimer).initTick <
      halfTickMax := by
    intro t
    dsimp only
    split <;> decide
  obtain ⟨w, hw, htick, hfired, harmed, hdone⟩ : ∃ w, runs timerStep
      (timerInit (fun t => ⟨false, t == 0, 0, if t = 0 then 2 else 1⟩) (2 ^ 32 - 1))
        [.op (.start 0), .op (.start 1), .tick, .check, .check, .check, .tick, .check] = some w ∧
      w.tick = 1 ∧ w.fired.map (fun e => (e.timer, e.time)) = [(1, 2 ^ 32), (0, 2 ^ 32 + 1)] ∧
      w.armed 0 = true ∧ w.armed 1 = false := ⟨_, rfl, rfl, rfl, rfl, rfl⟩
  obtain ⟨hon, -, -, -, hpending⟩ := timers_on_time hinit (2 ^ 32 - 1) hw
  exact ⟨w, hw, htick, hfired, harmed, hdone, hon, hpending 0 harmed⟩

end Rk3576.Kernel
