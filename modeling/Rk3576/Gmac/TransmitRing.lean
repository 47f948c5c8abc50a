import Rk3576.Lib.Handoff
import Rk3576.Gmac.TransmitLock

/-! The driver and the TX engine as a hand-over around the ring: as long as no call
gives up on a frame it has already armed, `tx_index` and the engine stay together. -/
namespace Rk3576.Gmac
open Rk3576.Run Rk3576.Handoff

def TxPc.phase : TxPc → Phase
  | .tail | .armDone | .pollDone | .checkDone => .armed
  | .index => .sent
  | _ => .free

def txPhase (s : TxState) : Phase :=
  match s.txLock with
  | none => .free
  | some c =>
    match s.calls c with
    | .busy t => t.pc.phase
    | _ => .free

def handoff (s : TxState) : Ring where
  phase := txPhase s
  index := s.txIndex
  engine := s.engine
  own i := (s.txDesc i).own

/-- The step is the exit of the second wait loop: OWN was still set and the tick is past the
deadline, so the call is about to return with the descriptor armed. -/
def doneTimeout (s : TxState) : TxAct → Bool
  | .cpu c =>
    match s.calls c with
    | .busy t => t.pc == .checkDone && tickReached s.tick t.timeout
    | _ => false
  | _ => false

theorem own_txArmed (d : GmacDesc) (n : Nat) : (d.set .des3 (txArmed n)).own = true := by
  simp only [GmacDesc.own_eq, GmacDesc.set, txArmed, desc3Own_eq, BitVec.getLsbD_or]
  simp

theorem txPhase_holder {s : TxState} {c : Nat} {t : TxCall} (hl : s.txLock = some c)
    (hc : s.calls c = .busy t) : txPhase s = t.pc.phase := by
  simp [txPhase, hl, hc]

theorem handoff_stay {s s' : TxState} (hp : txPhase s' = txPhase s) (hi : s'.txIndex = s.txIndex)
    (he : s'.engine = s.engine) (ho : ∀ i, (s'.txDesc i).own = (s.txDesc i).own) :
    Step gmacTxDescCount (handoff s) (handoff s') := by
  have heq : handoff s' = handoff s := by simp only [handoff, hp, hi, he, ho]
  rw [heq]
  exact .stay _

theorem txPhase_outside {s s' : TxState} {c : Nat} {v : TxThread} (hl : s.txLock ≠ some c)
    (hl' : s'.txLock = s.txLock) (hc : s'.calls = Function.update s.calls c v) :
    txPhase s' = txPhase s := by
  simp only [txPhase, hl']
  cases hk : s.txLock with
  | none => rfl
  | some d =>
    have hne : d ≠ c := fun he => hl (he ▸ hk)
    simp [hc, Function.update_of_ne hne]

theorem txPhase_setCall {s : TxState} {c : Nat} (u : TxCall) (hl : s.txLock = some c) :
    txPhase (s.setCall c (.busy u)) = u.pc.phase := txPhase_holder hl (by simp [TxState.setCall])

section
variable {s : TxState} {c : Nat} {t : TxCall} (hl : s.txLock = some c) (hc : s.calls c = .busy t)
include hl hc

theorem handoff_arm (hp : t.pc = .des3) (hd : t.desc = s.txIndex) :
    Step gmacTxDescCount (handoff s)
      (handoff ((s.perform c (.desc t.desc .des3 (txArmed t.offset))).setCall c
        (.busy { t with pc := .tail }))) := by
  have hown := own_update s.txDesc t.desc ((s.txDesc t.desc).set .des3 (txArmed t.offset))
  rw [own_txArmed, hd] at hown
  have hph' : txPhase ((s.perform c (.desc t.desc .des3 (txArmed t.offset))).setCall c
      (.busy { t with pc := .tail })) = .armed := txPhase_setCall _ hl
  have heq : handoff ((s.perform c (.desc t.desc .des3 (txArmed t.offset))).setCall c
      (.busy { t with pc := .tail })) =
      { handoff s with
          phase := .armed, own := Function.update (handoff s).own (handoff s).index true } := by
    simp only [handoff, hph']
    simp only [TxState.setCall, TxState.perform, hd, hown]
  rw [heq]
  exact Step.arm (handoff s) (by simp [handoff, txPhase_holder hl hc, hp, TxPc.phase])

theorem handoff_observe (hp : t.pc = .pollDone) (ho : (s.txDesc s.txIndex).own = false) :
    Step gmacTxDescCount (handoff s)
      (handoff ((s.perform c .none).setCall c (.busy { t with pc := .index }))) := by
  have hph' : txPhase ((s.perform c .none).setCall c (.busy { t with pc := .index })) = .sent :=
    txPhase_setCall _ hl
  have heq : handoff ((s.perform c .none).setCall c (.busy { t with pc := .index })) =
      { handoff s with phase := .sent } := by
    simp only [handoff, hph']
    simp only [TxState.setCall, TxState.perform]
  rw [heq]
  exact Step.observe (handoff s) (by simp [handoff, txPhase_holder hl hc, hp, TxPc.phase])
    (by simpa [handoff] using ho)

theorem handoff_advance (hp : t.pc = .index) (hn : t.next = txNext s.txIndex) :
    Step gmacTxDescCount (handoff s)
      (handoff ((s.perform c (.index t.next)).setCall c
        (.busy { t with pc := .unlock .eok }))) := by
  have hph' : txPhase
      ((s.perform c (.index t.next)).setCall c (.busy { t with pc := .unlock .eok })) = .free :=
    txPhase_setCall _ hl
  have heq :
    handoff ((s.perform c (.index t.next)).setCall c (.busy { t with pc := .unlock .eok })) =
      { handoff s with phase := .free, index := ((handoff s).index + 1) % gmacTxDescCount } := by
    simp only [handoff, hph']
    simp only [TxState.setCall, TxState.perform, hn, txNext]
  rw [heq]
  exact Step.advance (handoff s) (by simp [handoff, txPhase_holder hl hc, hp, TxPc.phase])

end

/-- An access of the lock holder is a step of the hand-over. -/
theorem handoff_held {pool : Nat} {s : TxState} {c : Nat} {t u : TxCall} {a : TxAccess}
    (hl : s.txLock = some c) (hc : s.calls c = .busy t) (hh : TxHeld s t)
    (hr : rk3576GmacDmaTransmit pool s t = (a, .next u)) (hd : doneTimeout s (.cpu c) = false) :
    Step gmacTxDescCount (handoff s) (handoff ((s.perform c a).setCall c (.busy u))) := by
  have hph := txPhase_holder hl hc
  have hph' : (s.perform c a).txLock = some c →
      txPhase ((s.perform c a).setCall c (.busy u)) = u.pc.phase := fun hl' =>
    txPhase_setCall u hl'
  -- an access that moves neither phase, index nor OWN is a stutter
  have quiet : u.pc.phase = t.pc.phase → (s.perform c a).txLock = some c →
      (s.perform c a).txIndex = s.txIndex → (s.perform c a).engine = s.engine →
      (∀ i, ((s.perform c a).txDesc i).own = (s.txDesc i).own) →
      Step gmacTxDescCount (handoff s) (handoff ((s.perform c a).setCall c (.busy u))) := by
    intro hp hk hi he ho
    exact handoff_stay (by rw [hph' hk, hp, hph]) hi he ho
  have word : ∀ f v, f ≠ DescField.des3 →
      ∀ i, ((s.perform c (.desc t.desc f v)).txDesc i).own = (s.txDesc i).own := by
    intro f v hf i
    have h := congrFun (own_update s.txDesc t.desc ((s.txDesc t.desc).set f v)) i
    rw [GmacDesc.own_set _ f v hf, Function.update_eq_self] at h
    exact h
  cases hp : t.pc <;> simp only [TxHeld, hp, rk3576GmacDmaTransmit] at hh hr
  case armFree => cases hr; exact quiet (by simp [hp, TxPc.phase]) hl rfl rfl fun _ => rfl
  case pollFree =>
    split at hr <;> cases hr <;> exact quiet (by simp [hp, TxPc.phase]) hl rfl rfl fun _ => rfl
  case checkFree =>
    split at hr <;> cases hr <;> exact quiet (by simp [hp, TxPc.phase]) hl rfl rfl fun _ => rfl
  case copy =>
    split at hr
    · cases hr; exact quiet (by simp [hp, TxPc.phase]) hl rfl rfl fun _ => rfl
    · split at hr <;> cases hr <;>
        exact quiet (by simp [hp, TxPc.phase]) hl rfl rfl fun _ => rfl
  case des0 => cases hr; exact quiet (by simp [hp, TxPc.phase]) hl rfl rfl (word _ _ (by decide))
  case des1 => cases hr; exact quiet (by simp [hp, TxPc.phase]) hl rfl rfl (word _ _ (by decide))
  case des2 => cases hr; exact quiet (by simp [hp, TxPc.phase]) hl rfl rfl (word _ _ (by decide))
  case des3 =>
    cases hr
    exact handoff_arm hl hc hp hh.1
  case tail => cases hr; exact quiet (by simp [hp, TxPc.phase]) hl rfl rfl fun _ => rfl
  case armDone => cases hr; exact quiet (by simp [hp, TxPc.phase]) hl rfl rfl fun _ => rfl
  case pollDone =>
    split at hr <;> cases hr
    · exact quiet (by simp [hp, TxPc.phase]) hl rfl rfl fun _ => rfl
    · rename_i ho
      exact handoff_observe hl hc hp (by simpa [hh.1] using ho)
  case checkDone =>
    have hlate : tickReached s.tick t.timeout = false := by
      simpa [doneTimeout, hc, hp] using hd
    simp only [hlate] at hr
    cases hr
    exact quiet (by simp [hp, TxPc.phase]) hl rfl rfl fun _ => rfl
  case index =>
    cases hr
    exact handoff_advance hl hc hp hh.2
  case unlock => cases hr

theorem handoff_cpu {pool : Nat} {s s' : TxState} {c : Nat} (h : TxInv s)
    (hs : txStep pool s (.cpu c) = some s') (hd : doneTimeout s (.cpu c) = false) :
    Step gmacTxDescCount (handoff s) (handoff s') := by
  obtain ⟨t, a, hc, hs⟩ := txStep_cpu hs
  by_cases hl : s.txLock = some c
  · have hh := h.held hl hc
    rcases hs with ⟨u, hr, rfl⟩ | ⟨e, hr, rfl⟩
    · exact handoff_held hl hc hh hr hd
    · obtain ⟨hp, rfl⟩ := hh.ret hr
      refine handoff_stay ?_ rfl rfl fun _ => rfl
      rw [txPhase_holder hl hc, hp]
      rfl
  · have ho : t.pc = .entry ∨ t.pc = .lock := by simpa [hc, TxOutside] using h.outside c hl
    rcases hs with ⟨u, hr, rfl⟩ | ⟨e, hr, rfl⟩
    · rcases TxOutside.step ho hr with ⟨rfl, he | he | he⟩ | ⟨hk, rfl, he⟩ <;> cases he
      · exact handoff_stay (txPhase_outside hl rfl rfl) rfl rfl fun _ => rfl
      · refine handoff_stay ?_ rfl rfl fun _ => rfl
        simp [txPhase, hk, TxState.setCall, TxState.perform, TxPc.phase]
    · rcases TxOutside.step ho hr with ⟨rfl, he | he | he⟩ | ⟨_, _, he⟩ <;> cases he
      exact handoff_stay (txPhase_outside hl rfl rfl) rfl rfl fun _ => rfl

/-- Every step but the late timeout is a step of the hand-over. -/
theorem handoff_step {pool : Nat} {s s' : TxState} {a : TxAct} (h : TxInv s)
    (hs : txStep pool s a = some s') (hd : doneTimeout s a = false) :
    Step gmacTxDescCount (handoff s) (handoff s') := by
  cases hc : a.caller with
  | some c =>
    rcases txStep_caller hs hc with ⟨p, hi, rfl⟩ | rfl | ⟨t, ht, hp, rfl⟩
    · have hl : s.txLock ≠ some c := fun hl => by
        obtain ⟨t, ht, -⟩ := h.holder c hl
        simp [hi] at ht
      exact handoff_stay (txPhase_outside hl rfl rfl) rfl rfl fun _ => rfl
    · exact handoff_cpu h hs hd
    · have hl : s.txLock ≠ some c := fun hl => by simpa [TxHeld, hp] using h.held hl ht
      exact handoff_stay (txPhase_outside hl rfl rfl) rfl rfl fun _ => rfl
  | none =>
    cases a with
    | engine wb =>
      simp only [txStep, txEngine] at hs
      split at hs <;> cases hs
      rename_i he
      have hcomp := Step.complete (n := gmacTxDescCount) (handoff s) he.2
      have hown := own_update s.txDesc s.engine wb.released
      rw [GmacDesc.own_released] at hown
      simpa only [handoff, txPhase, TxState.emit, hown, txNext] using hcomp
    | tick now => cases hs; exact .stay (handoff s)
    | link up => cases hs; exact .stay (handoff s)
    | foreign o b =>
      simp only [txStep] at hs
      split at hs <;> cases hs
      exact .stay (handoff s)
    | _ => simp [TxAct.caller] at hc

theorem txSync_init (pool : Nat) (g : GmacDev) (buf : Nat → Byte) (now : BitVec 32) :
    Sync gmacTxDescCount (handoff (txInit pool g buf now)) := by
  have hclear : ∀ i, i < gmacTxDescCount → ((txInit pool g buf now).txDesc i).own = false := by
    intro i hi
    simp only [txInit, gmacInitDmaMemory_txRing pool g i hi, GmacDesc.own_zero]
  have hzero : ((txInit pool g buf now).txDesc 0).own = false := hclear 0 (by decide)
  refine ⟨(by decide : 0 < gmacTxDescCount), fun i hi _ => hclear i hi, fun _ _ => rfl, ?_, ?_⟩
  · intro ho
    exact absurd (hzero.symm.trans ho) Bool.false_ne_true
  · intro _ hp
    exact absurd rfl hp

/-- No call in the run gives up on a frame it has armed. -/
abbrev NoDoneTimeout (pool : Nat) (s : TxState) (as : List TxAct) : Prop :=
  Along (txStep pool) (fun s a _ => doneTimeout s a = false) s as

theorem txSync_runs {pool : Nat} {g : GmacDev} {buf : Nat → Byte} {now : BitVec 32}
    {as : List TxAct} {s : TxState} (hr : runs (txStep pool) (txInit pool g buf now) as = some s)
    (hok : NoDoneTimeout pool (txInit pool g buf now) as) :
    TxInv s ∧ Sync gmacTxDescCount (handoff s) :=
  runs_invariant_along (I := fun s => TxInv s ∧ Sync gmacTxDescCount (handoff s))
    (fun _ _ _ h hd hs => ⟨txInv_step h.1 hs, h.2.step (handoff_step h.1 hs hd)⟩)
    ⟨txInv_init pool g buf now, txSync_init pool g buf now⟩ hok hr

/-- The driver fills the descriptor the engine fetches next, whenever the lock is free and
nothing is armed, in every run in which no wait for completion times out. -/
theorem txIndex_eq_engine (pool : Nat) (g : GmacDev) (buf : Nat → Byte) (now : BitVec 32)
    (as : List TxAct) (s : TxState) (hr : runs (txStep pool) (txInit pool g buf now) as = some s)
    (hok : NoDoneTimeout pool (txInit pool g buf now) as) (hl : s.txLock = none)
    (hclear : ∀ i, i < gmacTxDescCount → (s.txDesc i).own = false) : s.txIndex = s.engine := by
  obtain ⟨hi, hsync⟩ := txSync_runs hr hok
  have ho : (handoff s).own (handoff s).index = false := hclear s.txIndex hi.index_lt
  exact (hsync.idle ho (by simp [handoff, txPhase, hl])).symm

def ringView (s : TxState) : Option Nat × List Bool × Nat × Nat :=
  (s.txLock, (List.range gmacTxDescCount).map fun i => (s.txDesc i).own, s.txIndex, s.engine)

def txStart : TxState := txInit 0x40000000 { gmac0 with linkUp := true } (fun _ => 0) 0

def oneByte : List Pbuf := [⟨[0x5a], 1, by decide⟩]

def sendOnce (c : Nat) : List TxAct :=
  [TxAct.call c oneByte] ++ List.replicate 14 (TxAct.cpu c) ++ [TxAct.engine .zero, .tick 50] ++
    List.replicate 4 (TxAct.cpu c)

/-- One frame whose completion comes after the 100 ticks the driver waits for it. -/
def sendLate (c : Nat) : List TxAct :=
  [TxAct.call c oneByte] ++ List.replicate 14 (TxAct.cpu c) ++
    [TxAct.tick 100, .cpu c, .cpu c, .engine .zero]

theorem ringView_clear {s : TxState} {l : Option Nat} {i e : Nat}
    (h : ringView s = (l, [false, false, false, false], i, e)) :
    s.txLock = l ∧ (∀ j, j < gmacTxDescCount → (s.txDesc j).own = false) ∧ s.txIndex = i ∧
    s.engine = e := by
  simp only [ringView, Prod.mk.injEq] at h
  obtain ⟨hl, ho, hi, he⟩ := h
  refine ⟨hl, fun j hj => ?_, hi, he⟩
  have hm : (s.txDesc j).own ∈ [false, false, false, false] :=
    ho ▸ List.mem_map.mpr ⟨j, List.mem_range.mpr hj, rfl⟩
  simpa using hm

theorem txIndex_eq_engine_sendOnce :
    ∃ s, runs (txStep 0x40000000) txStart (sendOnce 0 ++ sendOnce 1) = some s ∧
      s.txIndex = 2 ∧ s.txIndex = s.engine := by
  obtain ⟨s, hs, hv⟩ := Option.map_eq_some_iff.mp
    (by decide +kernel : (runs (txStep 0x40000000) txStart
      (sendOnce 0 ++ sendOnce 1)).map ringView =
      some (none, [false, false, false, false], 2, 2))
  obtain ⟨hl, ho, hi, -⟩ := ringView_clear hv
  exact ⟨s, hs, hi, txIndex_eq_engine _ _ _ _ _ s hs (by decide +kernel) hl ho⟩

/-- The frame completes after its call has returned: the engine has moved on, the driver has
not, the lock is free and nothing is armed. -/
theorem txIndex_ne_engine_sendLate :
    ∃ s, runs (txStep 0x40000000) txStart (sendLate 0) = some s ∧ s.txLock = none ∧
      (∀ i, i < gmacTxDescCount → (s.txDesc i).own = false) ∧ s.txIndex ≠ s.engine := by
  obtain ⟨s, hs, hv⟩ := Option.map_eq_some_iff.mp
    (by decide +kernel : (runs (txStep 0x40000000) txStart (sendLate 0)).map ringView =
      some (none, [false, false, false, false], 0, 1))
  obtain ⟨hl, ho, hi, he⟩ := ringView_clear hv
  exact ⟨s, hs, hl, ho, by rw [hi, he]; decide⟩

end Rk3576.Gmac
