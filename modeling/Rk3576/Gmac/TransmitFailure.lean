import Rk3576.Gmac.TransmitRing

/-! What a failed `rk3576_gmac_dma_transmit` leaves behind. Four of its five exits are
clean; the timeout of the second wait loop comes after the descriptor has been armed. -/
namespace Rk3576.Gmac
open Rk3576.Run

/-- Descriptors, tx_index, tail register and packet buffers are untouched. -/
structure SameRing (s s' : TxState) : Prop where
  txDesc : s'.txDesc = s.txDesc
  txIndex : s'.txIndex = s.txIndex
  tail : s'.tail = s.tail
  pool : s'.pool = s.pool

/-- Every step caller `c` made in the run left the ring as it found it, so the ring is what
the other parties alone would have made of it. -/
abbrev NoTrace (pool : Nat) (s : TxState) (as : List TxAct) (c : Nat) : Prop :=
  Along (txStep pool) (fun s a s' => a.caller = some c → SameRing s s') s as

abbrev NoDoneTimeoutOf (pool : Nat) (s : TxState) (as : List TxAct) (c : Nat) : Prop :=
  Along (txStep pool) (fun s a _ => a.caller = some c → doneTimeout s a = false) s as

def NeverEmitted (pool : Nat) (s : TxState) (c : Nat) : Prop :=
  ∀ bs t, runs (txStep pool) s bs = some t → ∀ e ∈ t.wire, e.caller ≠ some c

/-- A returned call that reports failure had no effect, and no returned call keeps the lock. -/
def CleanReturn (pool : Nat) (s₀ : TxState) (as : List TxAct) (s : TxState) (c : Nat)
    (e : RtErr) : Prop :=
  (e ≠ .eok → NoTrace pool s₀ as c ∧ NeverEmitted pool s c) ∧ s.txLock ≠ some c

/-- Not yet past the first wait loop, or on the way out with an error. -/
def TxPc.early : TxPc → Bool
  | .entry | .lock | .armFree | .pollFree | .checkFree => true
  | .unlock e => e ≠ .eok
  | _ => false

def TxEarly : TxThread → Prop
  | .idle => True
  | .busy t => t.pc.early = true
  | .done _ e => e ≠ .eok

def TxWaiting : TxThread → Prop
  | .busy t => t.pc.phase = .armed
  | _ => False

/-- The call has given up on an armed descriptor, or is about to return from that. -/
def TxGaveUp : TxThread → Prop
  | .busy t => t.pc = .unlock .etimeout
  | .done _ e => e = .etimeout
  | _ => False

structure Unseen (c : Nat) (s : TxState) : Prop where
  filled : ∀ i, s.filledBy i ≠ some c
  wire : ∀ e ∈ s.wire, e.caller ≠ some c

theorem early_step {pool : Nat} {s : TxState} {t : TxCall} {a : TxAccess} {g : TxGoto}
    (hr : rk3576GmacDmaTransmit pool s t = (a, g)) (hp : t.pc.early = true) :
    a = .none ∨ a = .lock ∨ a = .unlock := by
  cases h : t.pc <;> simp only [h, TxPc.early] at hp <;> simp only [h, rk3576GmacDmaTransmit] at hr
  case entry => split at hr <;> cases hr <;> simp
  case lock => split at hr <;> cases hr <;> simp
  case armFree => cases hr; simp
  case pollFree => split at hr <;> cases hr <;> simp
  case checkFree => split at hr <;> cases hr <;> simp
  case unlock => cases hr; simp
  all_goals cases hp

/-- Past the first wait loop a call can only get out through success or the late timeout. -/
theorem early_of_step {pool : Nat} {s : TxState} {t u : TxCall} {a : TxAccess}
    (hr : rk3576GmacDmaTransmit pool s t = (a, .next u))
    (hd : t.pc = .checkDone → tickReached s.tick t.timeout = false) (hu : u.pc.early = true) :
    t.pc.early = true := by
  cases h : t.pc <;> simp only [TxPc.early] <;> simp only [h, rk3576GmacDmaTransmit] at hr
  case checkDone =>
    simp only [hd h] at hr
    cases hr
    simp [TxPc.early] at hu
  case copy =>
    split at hr
    · cases hr; simp [TxPc.early] at hu
    · split at hr <;> cases hr <;> simp [TxPc.early] at hu
  case pollDone => split at hr <;> cases hr <;> simp [TxPc.early] at hu
  case unlock => cases hr
  all_goals cases hr; simp [TxPc.early] at hu

theorem early_of_ret {pool : Nat} {s : TxState} {t : TxCall} {a : TxAccess} {e : RtErr}
    (hr : rk3576GmacDmaTransmit pool s t = (a, .ret e)) (he : e ≠ .eok) : t.pc.early = true := by
  cases h : t.pc <;> simp only [TxPc.early] <;> simp only [h, rk3576GmacDmaTransmit] at hr
  case unlock => cases hr; simpa using he
  all_goals (repeat' split at hr) <;> cases hr

theorem perform_quiet {s : TxState} {c : Nat} {a : TxAccess} (v : TxThread)
    (ha : a = .none ∨ a = .lock ∨ a = .unlock) :
    SameRing s ((s.perform c a).setCall c v) ∧
      ∀ d, Unseen d s → Unseen d ((s.perform c a).setCall c v) := by
  rcases ha with rfl | rfl | rfl <;> exact ⟨⟨rfl, rfl, rfl, rfl⟩, fun _ h => ⟨h.filled, h.wire⟩⟩

theorem early_back {pool : Nat} {s s' : TxState} {a : TxAct} {c : Nat}
    (hs : txStep pool s a = some s') (hc : a.caller = some c) (hd : doneTimeout s a = false)
    (he : TxEarly (s'.calls c)) :
    TxEarly (s.calls c) ∧ SameRing s s' ∧ (Unseen c s → Unseen c s') := by
  rcases txStep_caller hs hc with ⟨p, hi, rfl⟩ | rfl | ⟨t, ht, hp, rfl⟩
  · exact ⟨by simp [hi, TxEarly], ⟨rfl, rfl, rfl, rfl⟩, fun h => ⟨h.filled, h.wire⟩⟩
  · obtain ⟨t, a, ht, hs⟩ := txStep_cpu hs
    have hd' : t.pc = .checkDone → tickReached s.tick t.timeout = false := by
      intro hp
      simpa [doneTimeout, ht, hp] using hd
    have hearly : t.pc.early = true := by
      rcases hs with ⟨u, hr, rfl⟩ | ⟨e, hr, rfl⟩
      · exact early_of_step hr hd' (by simpa [TxState.setCall, TxEarly] using he)
      · exact early_of_ret hr (by simpa [TxState.setCall, TxEarly] using he)
    rcases hs with ⟨u, hr, rfl⟩ | ⟨e, hr, rfl⟩ <;>
    · obtain ⟨hring, hun⟩ := perform_quiet (s := s) (c := c) _ (early_step hr hearly)
      exact ⟨by simpa [ht, TxEarly] using hearly, hring, hun c⟩
  · exact ⟨by simp [ht, TxEarly, hp, TxPc.early], ⟨rfl, rfl, rfl, rfl⟩, fun h => ⟨h.filled, h.wire⟩⟩

theorem other_step {pool : Nat} {s s' : TxState} {a : TxAct} {c : Nat}
    (hs : txStep pool s a = some s') (hc : a.caller ≠ some c) :
    s'.calls c = s.calls c ∧ (Unseen c s → Unseen c s') := by
  cases a with
  | call d p =>
    have hne : c ≠ d := fun he => hc (by simp [TxAct.caller, he])
    simp only [txStep] at hs
    split at hs <;> cases hs
    exact ⟨by simp [TxState.setCall, Function.update_of_ne hne], fun h => ⟨h.filled, h.wire⟩⟩
  | lockFail d =>
    have hne : c ≠ d := fun he => hc (by simp [TxAct.caller, he])
    simp only [txStep] at hs
    split at hs
    · split at hs <;> cases hs
      exact ⟨by simp [TxState.setCall, Function.update_of_ne hne], fun h => ⟨h.filled, h.wire⟩⟩
    · cases hs
  | cpu d =>
    have hne : c ≠ d := fun he => hc (by simp [TxAct.caller, he])
    obtain ⟨t, a, -, hs⟩ := txStep_cpu hs
    have hun : ∀ v, Unseen c s → Unseen c ((s.perform d a).setCall d v) := by
      intro v h
      refine ⟨fun i => ?_, by cases a <;> exact h.wire⟩
      cases a with
      | desc j f w =>
        by_cases hf : f = .des3
        · by_cases hi : i = j
          · simpa [TxState.perform, TxState.setCall, hf, hi] using Ne.symm hne
          · simpa [TxState.perform, TxState.setCall, hf, Function.update_of_ne hi] using h.filled i
        · simpa [TxState.perform, TxState.setCall, hf] using h.filled i
      | _ => exact h.filled i
    have hcalls : ∀ v, ((s.perform d a).setCall d v).calls c = s.calls c := by
      intro v
      cases a <;> simp [TxState.setCall, TxState.perform, Function.update_of_ne hne]
    rcases hs with ⟨u, -, rfl⟩ | ⟨e, -, rfl⟩ <;> exact ⟨hcalls _, hun _⟩
  | engine wb =>
    simp only [txStep, txEngine] at hs
    split at hs <;> cases hs
    refine ⟨rfl, fun h => ⟨h.filled, fun e he => ?_⟩⟩
    rcases List.mem_append.mp he with he | he
    · exact h.wire e he
    · obtain rfl := List.mem_singleton.mp he
      exact h.filled s.engine
  | tick now => cases hs; exact ⟨rfl, fun h => ⟨h.filled, h.wire⟩⟩
  | link up => cases hs; exact ⟨rfl, fun h => ⟨h.filled, h.wire⟩⟩
  | foreign o b =>
    simp only [txStep] at hs
    split at hs <;> cases hs
    exact ⟨rfl, fun h => ⟨h.filled, h.wire⟩⟩

section Runs
variable {pool : Nat} {g : GmacDev} {buf : Nat → Byte} {now : BitVec 32} {as : List TxAct}
  {s : TxState}
  {c : Nat}

/-- Without the late timeout, a call that is early (or has failed) has been early all along. -/
theorem noTrace_of_early (hr : runs (txStep pool) (txInit pool g buf now) as = some s)
    (hd : NoDoneTimeoutOf pool (txInit pool g buf now) as c) (he : TxEarly (s.calls c)) :
    NoTrace pool (txInit pool g buf now) as c ∧ Unseen c s := by
  revert hd he
  refine runs_induction (motive := fun as s => NoDoneTimeoutOf pool (txInit pool g buf now) as c →
    TxEarly (s.calls c) → NoTrace pool (txInit pool g buf now) as c ∧ Unseen c s) ?_ ?_ hr
  · exact fun _ _ => ⟨trivial, ⟨by simp [txInit], by simp [txInit]⟩⟩
  · intro as s a s' hr ih hs hd he
    obtain ⟨hd, hda⟩ := (along_snoc hr hs).mp hd
    rw [NoTrace, along_snoc hr hs]
    by_cases hc : a.caller = some c
    · obtain ⟨he', hring, hun⟩ := early_back hs hc (hda hc) he
      obtain ⟨ht, hu⟩ := ih hd he'
      exact ⟨⟨ht, fun _ => hring⟩, hun hu⟩
    · obtain ⟨hsame, hun⟩ := other_step hs hc
      obtain ⟨ht, hu⟩ := ih hd (hsame ▸ he)
      exact ⟨⟨ht, fun h => absurd h hc⟩, hun hu⟩

theorem phase_armed_back {t u : TxCall} {a : TxAccess}
    (hr : rk3576GmacDmaTransmit pool s t = (a, .next u)) (hp : t.pc ≠ .des3)
    (hu : u.pc.phase = .armed) : t.pc.phase = .armed := by
  cases hq : t.pc <;> simp only [TxPc.phase] <;> simp only [hq, rk3576GmacDmaTransmit] at hr
  case des3 => exact absurd hq hp
  case copy =>
    split at hr
    · cases hr; simp [TxPc.phase] at hu
    · split at hr <;> cases hr <;> simp [TxPc.phase] at hu
  all_goals (repeat' split at hr) <;> cases hr <;> simp [TxPc.phase] at hu

theorem waiting_back {s' : TxState} {a : TxAct} (h : TxInv s) (hs : txStep pool s a = some s')
    (hc : a.caller = some c) (hw : TxWaiting (s'.calls c)) :
    TxWaiting (s.calls c) ∨ ¬ SameRing s s' := by
  rcases txStep_caller hs hc with ⟨p, hi, rfl⟩ | rfl | ⟨t, ht, hp, rfl⟩
  · simp [TxState.setCall, TxWaiting, TxPc.phase] at hw
  · obtain ⟨t, a, ht, hs⟩ := txStep_cpu hs
    rcases hs with ⟨u, hr, rfl⟩ | ⟨e, hr, rfl⟩
    · have hu : u.pc.phase = .armed := by simpa [TxState.setCall, TxWaiting] using hw
      by_cases hp : t.pc = .des3
      · right
        intro hsame
        have hh := h.held (h.locked ht (by simp [hp]) (by simp [hp])) ht
        simp only [TxHeld, hp] at hh
        simp only [rk3576GmacDmaTransmit, hp] at hr
        cases hr
        have ho := congrFun hsame.txDesc t.desc
        simp only [TxState.setCall, TxState.perform, Function.update_self] at ho
        have hset := own_txArmed (s.txDesc t.desc) t.offset
        rw [ho, hh.2.2] at hset
        exact Bool.false_ne_true hset
      · left
        simpa [TxWaiting, ht] using phase_armed_back hr hp hu
    · simp [TxState.setCall, TxWaiting] at hw
  · simp [TxState.setCall, TxWaiting] at hw

theorem trace_of_waiting (hr : runs (txStep pool) (txInit pool g buf now) as = some s)
    (hw : TxWaiting (s.calls c)) : ¬ NoTrace pool (txInit pool g buf now) as c := by
  revert hw
  refine runs_induction (motive := fun as s => TxWaiting (s.calls c) →
    ¬ NoTrace pool (txInit pool g buf now) as c) ?_ ?_ hr
  · exact fun hw => False.elim hw
  · intro as s a s' hr ih hs hw ht
    obtain ⟨ht, hta⟩ := (along_snoc hr hs).mp ht
    by_cases hc : a.caller = some c
    · rcases waiting_back (txInv_runs hr) hs hc hw with hw | hring
      · exact ih hw ht
      · exact hring (hta hc)
    · exact ih ((other_step hs hc).1 ▸ hw) ht

theorem gaveUp_step {s' : TxState} {a : TxAct} (hs : txStep pool s a = some s')
    (hg : TxGaveUp (s.calls c)) : TxGaveUp (s'.calls c) := by
  by_cases hc : a.caller = some c
  · rcases txStep_caller hs hc with ⟨p, hi, rfl⟩ | rfl | ⟨t, ht, hp, rfl⟩
    · simp [hi, TxGaveUp] at hg
    · obtain ⟨t, a, ht, hs⟩ := txStep_cpu hs
      have hp : t.pc = .unlock .etimeout := by simpa [ht, TxGaveUp] using hg
      rcases hs with ⟨u, hr, rfl⟩ | ⟨e, hr, rfl⟩ <;>
        simp only [rk3576GmacDmaTransmit, hp] at hr <;> cases hr
      simp [TxState.setCall, TxGaveUp]
    · simp [ht, TxGaveUp, hp] at hg
  · rw [(other_step hs hc).1]
    exact hg

/-- After a late timeout the ring bears the call's trace and the call ends in -RT_ETIMEOUT. -/
theorem trace_of_doneTimeout (hr : runs (txStep pool) (txInit pool g buf now) as = some s)
    (hd : ¬ NoDoneTimeoutOf pool (txInit pool g buf now) as c) :
    ¬ NoTrace pool (txInit pool g buf now) as c ∧ TxGaveUp (s.calls c) := by
  revert hd
  refine runs_induction (motive := fun as s => ¬ NoDoneTimeoutOf pool (txInit pool g buf now) as c →
    ¬ NoTrace pool (txInit pool g buf now) as c ∧ TxGaveUp (s.calls c)) ?_ ?_ hr
  · exact fun hd => absurd trivial hd
  · intro as s a s' hr ih hs hd
    rw [NoDoneTimeoutOf, along_snoc hr hs] at hd
    rw [NoTrace, along_snoc hr hs]
    by_cases hbefore : NoDoneTimeoutOf pool (txInit pool g buf now) as c
    · have hnow : a.caller = some c ∧ doneTimeout s a = true := by
        by_contra hn
        exact hd ⟨hbefore, fun hc => by
          cases hx : doneTimeout s a with
          | false => rfl
          | true => exact absurd ⟨hc, hx⟩ hn⟩
      obtain ⟨hc, hlate⟩ := hnow
      cases a with
      | cpu d =>
        obtain rfl : d = c := by simpa [TxAct.caller] using hc
        obtain ⟨t, a, ht, hs⟩ := txStep_cpu hs
        obtain ⟨hp, htick⟩ : t.pc = .checkDone ∧ tickReached s.tick t.timeout = true := by
          simpa [doneTimeout, ht] using hlate
        have hw : TxWaiting (s.calls d) := by simp [ht, TxWaiting, hp, TxPc.phase]
        refine ⟨fun h => trace_of_waiting hr hw h.1, ?_⟩
        rcases hs with ⟨u, hr, rfl⟩ | ⟨e, hr, rfl⟩ <;>
          simp only [rk3576GmacDmaTransmit, hp, htick] at hr <;> cases hr
        simp [TxState.setCall, TxGaveUp]
      | _ => simp [doneTimeout] at hlate
    · obtain ⟨ht, hg⟩ := ih hbefore
      exact ⟨fun h => ht h.1, gaveUp_step hs hg⟩

theorem neverEmitted_of_unseen {p : List Pbuf} {e : RtErr} (hc : s.calls c = .done p e)
    (hu : Unseen c s) : NeverEmitted pool s c := by
  intro bs t hr
  refine (runs_invariant (I := fun s => s.calls c = .done p e ∧ Unseen c s) ?_ ⟨hc, hu⟩ hr).2.wire
  intro s a s' h hs
  have hne : a.caller ≠ some c := by
    intro ha
    rcases txStep_caller hs ha with ⟨q, hi, -⟩ | rfl | ⟨t, ht, -, -⟩
    · simp [h.1] at hi
    · obtain ⟨t, -, ht, -⟩ := txStep_cpu hs
      simp [h.1] at ht
    · simp [h.1] at ht
  obtain ⟨hsame, hun⟩ := other_step hs hne
  exact ⟨hsame.trans h.1, hun h.2⟩

end Runs

/-- A returned call is clean exactly when it did not leave by the timeout of its second wait
loop: in every run, for every chain, whatever the engine and the tick do. -/
theorem cleanReturn_iff (pool : Nat) (g : GmacDev) (buf : Nat → Byte) (now : BitVec 32)
    (as : List TxAct) (s : TxState) (c : Nat) (p : List Pbuf) (e : RtErr)
    (hr : runs (txStep pool) (txInit pool g buf now) as = some s) (hc : s.calls c = .done p e) :
    CleanReturn pool (txInit pool g buf now) as s c e ↔
      NoDoneTimeoutOf pool (txInit pool g buf now) as c := by
  constructor
  · intro h
    by_contra hd
    obtain ⟨ht, hg⟩ := trace_of_doneTimeout hr hd
    have he : e = .etimeout := by simpa [hc, TxGaveUp] using hg
    exact ht (h.1 (by simp [he])).1
  · intro hd
    refine ⟨fun he => ?_, fun hl => ?_⟩
    · obtain ⟨ht, hu⟩ := noTrace_of_early hr hd (by simpa [hc, TxEarly] using he)
      exact ⟨ht, neverEmitted_of_unseen hc hu⟩
    · obtain ⟨t, ht, -⟩ := (txInv_runs hr).holder c hl
      simp [hc] at ht

def returnView (c : Nat) (s : TxState) : Option RtErr × List (Option Nat) :=
  (match s.calls c with
    | .done _ e => some e
    | _ => none,
   s.wire.map Emission.caller)

theorem done_of_returnView {c : Nat} {s : TxState} {e : RtErr} {l : List (Option Nat)}
    (h : returnView c s = (some e, l)) :
    (∃ p, s.calls c = .done p e) ∧ s.wire.map Emission.caller = l := by
  simp only [returnView, Prod.mk.injEq] at h
  obtain ⟨hc, hw⟩ := h
  split at hc
  · rename_i p e' hd
    cases hc
    exact ⟨⟨p, hd⟩, hw⟩
  · cases hc

/-- One caller gives up on an armed frame; the next one then times out waiting for the slot. -/
def sendStalled : List TxAct :=
  [TxAct.call 0 oneByte] ++ List.replicate 14 (TxAct.cpu 0) ++ [TxAct.tick 100, .cpu 0, .cpu 0] ++
    [TxAct.call 1 oneByte] ++ List.replicate 4 (TxAct.cpu 1) ++ [TxAct.tick 200, .cpu 1, .cpu 1]

/-- The timeout of the first wait loop is a clean exit, even on a stalled ring. -/
theorem cleanReturn_iff_sendStalled :
    ∃ s, runs (txStep 0x40000000) txStart sendStalled = some s ∧
      (∃ p, s.calls 1 = .done p .etimeout) ∧
      CleanReturn 0x40000000 txStart sendStalled s 1 .etimeout := by
  obtain ⟨s, hs, hv⟩ := Option.map_eq_some_iff.mp
    (by decide +kernel : (runs (txStep 0x40000000) txStart sendStalled).map (returnView 1) =
      some (some .etimeout, []))
  obtain ⟨⟨p, hp⟩, -⟩ := done_of_returnView hv
  exact ⟨s, hs, ⟨p, hp⟩, (cleanReturn_iff _ _ _ _ _ s 1 p _ hs hp).mpr (by decide +kernel)⟩

/-- The call returns -RT_ETIMEOUT and its frame is on the wire all the same. -/
theorem not_cleanReturn_sendLate :
    ∃ s, runs (txStep 0x40000000) txStart (sendLate 0) = some s ∧
      (∃ p, s.calls 0 = .done p .etimeout) ∧
      ¬ CleanReturn 0x40000000 txStart (sendLate 0) s 0 .etimeout := by
  obtain ⟨s, hs, hv⟩ := Option.map_eq_some_iff.mp
    (by decide +kernel : (runs (txStep 0x40000000) txStart (sendLate 0)).map (returnView 0) =
      some (some .etimeout, [some 0]))
  obtain ⟨hp, hw⟩ := done_of_returnView hv
  refine ⟨s, hs, hp, fun h => ?_⟩
  obtain ⟨e, he, hcaller⟩ := List.mem_map.mp (hw ▸ List.mem_singleton_self (some 0))
  exact (h.1 (by decide)).2 [] s rfl e he hcaller

end Rk3576.Gmac
