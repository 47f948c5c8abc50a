import Mathlib.Data.List.Nodup
import Rk3576.Ipc.Mailbox

/-! The hand-over of packets to the transmit thread in `ethernetif.c`. The message is a local of
`ethernetif_linkoutput`: the mailbox carries its address, and once the call has returned the
address leads nowhere. -/
namespace Rk3576.Net
open Rk3576.Run Rk3576.Ipc

/-- `struct eth_tx_msg`: `buf` is what `eth_tx` is called with, `netif` and `buf`; `flag` and
`suspended` are those of the completion `ack`. -/
structure EthTxMsg (β : Type) where
  buf : β
  flag : Bool
  suspended : Bool

inductive CallerPc where
  | idle
  | ready
  | posted
  | suspended
  | woken
  deriving DecidableEq

/-- Where the transmit thread is in its loop; `ack` and `done` are in `rt_completion_done`, before
the test of the flag and before the part with interrupts off. -/
inductive TxPc (β : Type) where
  | recv
  | waiting
  | got (s : Tid)
  | sending (s : Tid) (buf : β)
  | ack (s : Tid)
  | done (s : Tid)

/-- A mail is the thread on whose stack the message is. `accepted` lists the messages that
`rt_mb_send` took, `sent` those `eth_tx` was called with; `fault` is set by an access to a message
that is gone and by a failed assertion. -/
structure EthTx (β : Type) where
  mb : MbWorld Tid
  msg : Tid → Option (EthTxMsg β)
  caller : Tid → CallerPc
  tx : TxPc β
  accepted : List (Tid × β)
  sent : List (Tid × β)
  fault : Bool

def ethThreadMboxSize : Nat := 8

def etx : Tid := 0

inductive EthTxAction (β : Type) where
  | call (s : Tid) (buf : β)
  | post (s : Tid)
  | wait (s : Tid)
  | wake (s : Tid)
  | tx

section EthTx
variable {β : Type}

def ethTxInit (msgPool : Nat → Tid) : EthTx β :=
  ⟨rtMbInit msgPool ethThreadMboxSize, fun _ => none, fun _ => .idle, .recv, [], [], false⟩

/-- Back from `ethernetif_linkoutput`, which returns ERR_OK in every case. -/
def EthTx.ret (w : EthTx β) (s : Tid) : EthTx β :=
  { w with msg := Function.update w.msg s none, caller := Function.update w.caller s .idle }

/-- The transmit thread goes through the message of `s`. -/
def EthTx.deref (w : EthTx β) (s : Tid) (f : EthTxMsg β → EthTx β) : EthTx β :=
  match w.msg s with
  | none => { w with fault := true }
  | some m => f m

def EthTx.received (w : EthTx β) (r : MbWorld Tid × Option Tid) : EthTx β :=
  { w with mb := r.1, tx := match r.2 with | none => .waiting | some s => .got s }

def ethTxThread (w : EthTx β) : Option (EthTx β) :=
  match w.tx with
  | .recv => some (w.received (w.mb.tryRecv etx))
  | .waiting => (w.mb.tryAgain etx).map w.received
  | .got s => some (w.deref s fun m => { w with tx := .sending s m.buf })
  | .sending s buf => some { w with sent := w.sent ++ [(s, buf)], tx := .ack s }
  | .ack s => some (w.deref s fun m => { w with tx := if m.flag then .recv else .done s })
  | .done s =>
    some (w.deref s fun m =>
      { w with
        msg := Function.update w.msg s (some { m with flag := true, suspended := false })
        caller := if m.suspended then Function.update w.caller s .woken else w.caller
        tx := .recv })

/-- The steps of `ethernetif_linkoutput`: `rt_completion_init`, then `rt_mb_send`, then
`rt_completion_wait` up to and from the point where it suspends the thread. -/
def ethTxStep (w : EthTx β) : EthTxAction β → Option (EthTx β)
  | .call s buf =>
    if w.caller s = .idle ∧ s ≠ etx then
      some { w with msg := Function.update w.msg s (some ⟨buf, false, false⟩)
                    caller := Function.update w.caller s .ready }
    else none
  | .post s =>
    match w.caller s, w.msg s with
    | .ready, some m =>
      let mb := rtMbSendWait (fun _ _ => false) w.mb s s false
      if w.mb.mb.entry = w.mb.mb.size then some ({ w with mb }.ret s)
      else some { w with
        mb, caller := Function.update w.caller s .posted, accepted := w.accepted ++ [(s, m.buf)] }
    | _, _ => none
  | .wait s =>
    match w.caller s, w.msg s with
    | .posted, some m =>
      if m.flag then some (w.ret s)
      else
        some { w with msg := Function.update w.msg s (some { m with suspended := true })
                      caller := Function.update w.caller s .suspended
                      fault := w.fault || m.suspended }
    | _, _ => none
  | .wake s => if w.caller s = .woken then some (w.ret s) else none
  | .tx => ethTxThread w

def TxPc.waits : TxPc β → Bool
  | .waiting => true
  | _ => false

/-- The messages the transmit thread has in hand and those in the mailbox. -/
def TxPc.hand : TxPc β → List Tid
  | .recv | .waiting => []
  | .got s | .sending s _ | .ack s | .done s => [s]

def TxPc.unsent : TxPc β → List Tid
  | .recv | .waiting | .ack _ | .done _ => []
  | .got s | .sending s _ => [s]

def EthTx.pending (w : EthTx β) : List Tid := w.tx.hand ++ w.mb.mb.mails

def EthTx.entry (w : EthTx β) (s : Tid) : Option (Tid × β) := (w.msg s).map fun m => (s, m.buf)

def EthTx.backlog (w : EthTx β) : List (Tid × β) := (w.tx.unsent ++ w.mb.mb.mails).filterMap w.entry

/-- What a caller's message looks like at each point of the call; `pend` is whether the transmit
thread still has to acknowledge it. -/
def CallerOk (pend : Prop) : CallerPc → Option (EthTxMsg β) → Prop
  | .idle, none => ¬ pend
  | .ready, some m => ¬ pend ∧ m.flag = false ∧ m.suspended = false
  | .posted, some m => m.suspended = false ∧ (pend ↔ m.flag = false)
  | .suspended, some m => pend ∧ m.flag = false ∧ m.suspended = true
  | .woken, some m => ¬ pend ∧ m.flag = true ∧ m.suspended = false
  | _, _ => False

structure TxInv (w : EthTx β) : Prop where
  mb : OneReceiver etx w.tx.waits w.mb
  size : w.mb.mb.size = ethThreadMboxSize
  nodup : w.pending.Nodup
  caller : ∀ s, CallerOk (s ∈ w.pending) (w.caller s) (w.msg s)
  reads : ∀ s buf, w.tx = .sending s buf → w.entry s = some (s, buf)
  log : w.accepted = w.sent ++ w.backlog
  fault : w.fault = false

/-- A pending message is alive: its caller has posted it and not returned. -/
theorem CallerOk.live {p : Prop} {pc : CallerPc} {o : Option (EthTxMsg β)}
    (h : CallerOk p pc o) (hp : p) :
    ∃ m, o = some m ∧ m.flag = false ∧
    ((pc = .posted ∧ m.suspended = false) ∨ (pc = .suspended ∧ m.suspended = true)) := by
  cases pc with
  | idle =>
    cases o with
    | none => exact absurd hp h
    | some m => exact h.elim
  | ready =>
    cases o with
    | none => exact h.elim
    | some m => exact absurd hp h.1
  | posted =>
    cases o with
    | none => exact h.elim
    | some m => exact ⟨m, rfl, h.2.mp hp, Or.inl ⟨rfl, h.1⟩⟩
  | suspended =>
    cases o with
    | none => exact h.elim
    | some m => exact ⟨m, rfl, h.2.1, Or.inr ⟨rfl, h.2.2⟩⟩
  | woken =>
    cases o with
    | none => exact h.elim
    | some m => exact absurd hp h.1

theorem CallerOk.congr {p q : Prop} {pc : CallerPc} {o : Option (EthTxMsg β)} (hpq : p ↔ q)
    (h : CallerOk p pc o) :
    CallerOk q pc o := by
  rwa [← propext hpq]

theorem CallerOk.idle_msg {p : Prop} {o : Option (EthTxMsg β)} (h : CallerOk p .idle o) :
    o = none ∧ ¬ p := by
  cases o with
  | none => exact ⟨rfl, h⟩
  | some m => exact h.elim

theorem CallerOk.woken_msg {p : Prop} {o : Option (EthTxMsg β)}
    (h : CallerOk p .woken o) : ¬ p := by
  cases o with
  | none => exact h.elim
  | some m => exact h.1

theorem TxPc.unsent_subset (p : TxPc β) : ∀ s, s ∈ p.unsent → s ∈ p.hand := by
  intro s hs
  cases p with
  | recv => exact hs
  | waiting => exact hs
  | got t => exact hs
  | sending t b => exact hs
  | ack t => cases hs
  | done t => cases hs

theorem EthTx.mem_pending_of_unsent {w : EthTx β} {s : Tid} (h : s ∈ w.tx.unsent ++ w.mb.mb.mails) :
    s ∈ w.pending := by
  rcases List.mem_append.mp h with h | h
  · exact List.mem_append_left _ (w.tx.unsent_subset s h)
  · exact List.mem_append_right _ h

theorem TxInv.setCaller {w : EthTx β} (h : TxInv w) {s : Tid} {pc : CallerPc}
    {o : Option (EthTxMsg β)}
    (hok : CallerOk (s ∈ w.pending) pc o)
    (hbuf : s ∈ w.pending → o.map (fun m => (s, m.buf)) = w.entry s) :
    TxInv { w with msg := Function.update w.msg s o, caller := Function.update w.caller s pc } := by
  have hentry : ∀ t, t ∈ w.pending →
      ((Function.update w.msg s o) t).map (fun m => (t, m.buf)) = w.entry t := by
    intro t ht
    by_cases hts : t = s
    · subst hts
      rw [Function.update_self, hbuf ht]
    · rw [Function.update_of_ne hts]
      rfl
  refine ⟨h.mb, h.size, h.nodup, fun t => ?_, fun t buf ht => ?_, ?_, h.fault⟩
  · change CallerOk (t ∈ w.pending) (Function.update w.caller s pc t) (Function.update w.msg s o t)
    by_cases hts : t = s
    · subst hts
      rwa [Function.update_self, Function.update_self]
    · rw [Function.update_of_ne hts, Function.update_of_ne hts]
      exact h.caller t
  · have hmem : t ∈ w.pending := by
      change w.tx = _ at ht
      rw [EthTx.pending, ht]
      exact List.mem_cons_self
    exact (hentry t hmem).trans (h.reads t buf ht)
  · refine h.log.trans (congrArg (w.sent ++ ·) ?_)
    exact List.filterMap_congr fun t ht => (hentry t (EthTx.mem_pending_of_unsent ht)).symm

theorem TxInv.ret {w : EthTx β} (h : TxInv w) {s : Tid} (hs : s ∉ w.pending) : TxInv (w.ret s) :=
  h.setCaller (o := none) hs fun hmem => absurd hmem hs

theorem TxInv.call {w : EthTx β} (h : TxInv w) {s : Tid} (hs : w.caller s = .idle) (buf : β) :
    TxInv { w with msg := Function.update w.msg s (some ⟨buf, false, false⟩)
                   caller := Function.update w.caller s .ready } := by
  have hok := h.caller s
  rw [hs] at hok
  exact h.setCaller ⟨hok.idle_msg.2, rfl, rfl⟩ fun hmem => absurd hmem hok.idle_msg.2

theorem TxInv.suspend {w : EthTx β} (h : TxInv w) {s : Tid} {m : EthTxMsg β}
    (hs : w.caller s = .posted) (hm : w.msg s = some m) (hflag : m.flag = false) :
    TxInv { w with msg := Function.update w.msg s (some { m with suspended := true })
                   caller := Function.update w.caller s .suspended
                   fault := w.fault || m.suspended } := by
  have hok := h.caller s
  rw [hs, hm] at hok
  have hpend : s ∈ w.pending := hok.2.mpr hflag
  rw [hok.1, Bool.or_false]
  refine h.setCaller ⟨hpend, hflag, rfl⟩ fun _ => ?_
  rw [EthTx.entry, hm]
  rfl

theorem TxInv.post {w : EthTx β} (h : TxInv w) {s : Tid} {m : EthTxMsg β} (hs : w.caller s = .ready)
    (hm : w.msg s = some m) (hroom : w.mb.mb.entry ≠ w.mb.mb.size) :
    TxInv { w with mb := w.mb.put s, caller := Function.update w.caller s .posted
                   accepted := w.accepted ++ [(s, m.buf)] } := by
  have hok := h.caller s
  rw [hs, hm] at hok
  obtain ⟨hpend, hflag, hsusp⟩ := hok
  obtain ⟨hmb, hmails, hsize⟩ := h.mb.put hroom s
  have hpending : w.tx.hand ++ (w.mb.put s).mb.mails = w.pending ++ [s] := by
    rw [hmails, ← List.append_assoc]
    rfl
  refine ⟨hmb, hsize.trans h.size, ?_, fun t => ?_, h.reads, ?_, h.fault⟩
  · change (w.tx.hand ++ (w.mb.put s).mb.mails).Nodup
    rw [hpending]
    refine List.nodup_append.mpr ⟨h.nodup, List.nodup_singleton s, fun a ha b hb hab => hpend ?_⟩
    rwa [← List.mem_singleton.mp hb, ← hab]
  · change CallerOk (t ∈ w.tx.hand ++ (w.mb.put s).mb.mails)
      (Function.update w.caller s .posted t) (w.msg t)
    rw [hpending]
    by_cases hts : t = s
    · subst hts
      rw [Function.update_self, hm]
      exact ⟨hsusp, fun _ => hflag, fun _ => List.mem_append_right _ List.mem_cons_self⟩
    · rw [Function.update_of_ne hts]
      exact (h.caller t).congr (by simp [hts])
  · change w.accepted ++ [(s, m.buf)] =
      w.sent ++ (w.tx.unsent ++ (w.mb.put s).mb.mails).filterMap w.entry
    have hone : [s].filterMap w.entry = [(s, m.buf)] := by
      simp [EthTx.entry, hm]
    rw [hmails, ← List.append_assoc w.tx.unsent, List.filterMap_append, hone,
      ← List.append_assoc, h.log]
    rfl

theorem TxInv.received {w : EthTx β} (h : TxInv w) (hand : w.tx.hand = [])
    {r : MbWorld Tid × Option Tid} (hsize : r.1.mb.size = w.mb.mb.size)
    (hr : (w.mb.mb.mails = [] ∧ r.2 = none ∧ OneReceiver etx true r.1 ∧ r.1.mb.mails = []) ∨
      ∃ s, r.2 = some s ∧ OneReceiver etx false r.1 ∧ w.mb.mb.mails = s :: r.1.mb.mails) :
      TxInv (w.received r) := by
  have hunsent : w.tx.unsent = [] := List.eq_nil_iff_forall_not_mem.mpr fun s hs => by
    have hmem := w.tx.unsent_subset s hs
    rw [hand] at hmem
    cases hmem
  have hpend : w.pending = w.mb.mb.mails := by
    rw [EthTx.pending, hand]
    rfl
  have hlog : w.accepted = w.sent ++ w.mb.mb.mails.filterMap w.entry := by
    rw [h.log, EthTx.backlog, hunsent]
    rfl
  have hcaller := h.caller
  have hnodup := h.nodup
  rw [hpend] at hnodup
  simp only [hpend] at hcaller
  obtain ⟨mb, o⟩ := r
  rcases hr with ⟨hnil, rfl, hmb, hmails⟩ | ⟨s, rfl, hmb, hmails⟩
  · dsimp only at hmb hmails hsize
    rw [hnil, ← hmails] at hlog hnodup hcaller
    exact ⟨hmb, hsize.trans h.size, hnodup, hcaller, fun t b ht => (by cases ht), hlog, h.fault⟩
  · dsimp only at hmb hmails hsize
    rw [hmails] at hlog hnodup hcaller
    exact ⟨hmb, hsize.trans h.size, hnodup, hcaller, fun t b ht => (by cases ht), hlog, h.fault⟩

theorem TxInv.setTx {w : EthTx β} (h : TxInv w) {p : TxPc β} {l : List (Tid × β)}
    (hand : p.hand = w.tx.hand)
    (hne : p.hand ≠ []) (hreads : ∀ s buf, p = .sending s buf → w.entry s = some (s, buf))
    (hsent : w.tx.unsent.filterMap w.entry = l ++ p.unsent.filterMap w.entry) :
    TxInv { w with tx := p, sent := w.sent ++ l } := by
  have hpend : p.hand ++ w.mb.mb.mails = w.pending := by rw [hand, EthTx.pending]
  have hwaits : ∀ q : TxPc β, q.hand ≠ [] → q.waits = false := by
    intro q hq
    cases q with
    | waiting => exact absurd rfl hq
    | recv | got _ | sending _ _ | ack _ | done _ => rfl
  have hmb := h.mb
  rw [hwaits w.tx (hand ▸ hne), ← hwaits p hne] at hmb
  refine ⟨hmb, h.size, ?_, fun s => ?_, hreads, ?_, h.fault⟩
  · change (p.hand ++ w.mb.mb.mails).Nodup
    rw [hpend]
    exact h.nodup
  · change CallerOk (s ∈ p.hand ++ w.mb.mb.mails) (w.caller s) (w.msg s)
    rw [hpend]
    exact h.caller s
  · change w.accepted = (w.sent ++ l) ++ (p.unsent ++ w.mb.mb.mails).filterMap w.entry
    rw [h.log, EthTx.backlog, List.filterMap_append, hsent, List.filterMap_append,
      List.append_assoc, List.append_assoc]

theorem TxInv.live {w : EthTx β} (h : TxInv w) {s : Tid} (hs : s ∈ w.tx.hand) :
    ∃ m, w.msg s = some m ∧ m.flag = false ∧
      ((w.caller s = .posted ∧ m.suspended = false) ∨
        (w.caller s = .suspended ∧ m.suspended = true)) :=
  (h.caller s).live (List.mem_append_left _ hs)

theorem TxInv.done {w : EthTx β} (h : TxInv w) {s : Tid} (htx : w.tx = .done s) {m : EthTxMsg β}
    (hm : w.msg s = some m) :
    TxInv { w with msg := Function.update w.msg s (some { m with flag := true, suspended := false })
                   caller := if m.suspended then Function.update w.caller s .woken else w.caller
                   tx := .recv } := by
  have hpend : w.pending = s :: w.mb.mb.mails := by
    rw [EthTx.pending, htx]
    rfl
  have hnodup := h.nodup
  rw [hpend] at hnodup
  obtain ⟨hnot, hnd⟩ := List.nodup_cons.mp hnodup
  have hmb := h.mb
  rw [htx] at hmb
  refine ⟨hmb, h.size, hnd, fun t => ?_, fun t b ht => ?_, ?_, h.fault⟩
  · change CallerOk (t ∈ w.mb.mb.mails)
      ((if m.suspended then Function.update w.caller s .woken else w.caller) t)
      (Function.update w.msg s (some { m with flag := true, suspended := false }) t)
    by_cases hts : t = s
    · subst hts
      rw [Function.update_self]
      obtain ⟨m', hm', -, hpc⟩ := h.live (s := t) (by rw [htx]; exact List.mem_cons_self)
      obtain rfl : m = m' := Option.some.inj (hm.symm.trans hm')
      rcases hpc with ⟨hpc, hsusp⟩ | ⟨hpc, hsusp⟩
      · rw [hsusp, if_neg (by decide), hpc]
        exact ⟨rfl, fun hmem => absurd hmem hnot, fun hf => (by cases hf)⟩
      · rw [hsusp, if_pos rfl, Function.update_self]
        exact ⟨hnot, rfl, rfl⟩
    · have hcall :
        (if m.suspended then Function.update w.caller s .woken else w.caller) t = w.caller t := by
        split
        · rw [Function.update_of_ne hts]
        · rfl
      rw [hcall, Function.update_of_ne hts]
      refine (h.caller t).congr ?_
      rw [hpend, List.mem_cons]
      exact or_iff_right hts
  · cases ht
  · refine h.log.trans (congrArg (w.sent ++ ·) ?_)
    rw [EthTx.backlog, htx]
    refine List.filterMap_congr fun t ht => ?_
    have hts : t ≠ s := fun hts => hnot (hts ▸ ht)
    rw [EthTx.entry, EthTx.entry]
    dsimp only
    rw [Function.update_of_ne hts]

theorem ethTxThread_inv {w w' : EthTx β} (h : TxInv w) (hs : ethTxThread w = some w') :
    TxInv w' := by
  have hmb := h.mb
  rw [ethTxThread] at hs
  cases htx : w.tx with
  | recv =>
    rw [htx] at hs hmb
    obtain rfl := Option.some.inj hs
    obtain ⟨hsize, hr⟩ := hmb.tryRecv
    exact h.received (by rw [htx]; rfl) hsize hr
  | waiting =>
    rw [htx] at hs hmb
    obtain ⟨r, hr, rfl⟩ := Option.map_eq_some_iff.mp hs
    rcases hmb.tryAgain with ⟨hnone, -⟩ | ⟨r', hr', hsize, hcase⟩
    · rw [hnone] at hr
      cases hr
    · obtain rfl : r = r' := Option.some.inj (hr.symm.trans hr')
      exact h.received (by rw [htx]; rfl) hsize hcase
  | got s =>
    rw [htx] at hs
    obtain ⟨m, hm, -⟩ := h.live (s := s) (by rw [htx]; exact List.mem_cons_self)
    obtain rfl := Option.some.inj hs
    rw [EthTx.deref, hm]
    have hgo := h.setTx (p := .sending s m.buf) (l := []) (by rw [htx]; rfl) (List.cons_ne_nil _ _)
      (fun t b ht => by cases ht; rw [EthTx.entry, hm]; rfl) (by rw [htx]; rfl)
    rwa [List.append_nil] at hgo
  | sending s buf =>
    rw [htx] at hs
    obtain rfl := Option.some.inj hs
    refine h.setTx (by rw [htx]; rfl) (List.cons_ne_nil _ _) (fun t b ht => by cases ht) ?_
    rw [htx]
    simp [TxPc.unsent, h.reads s buf htx]
  | ack s =>
    rw [htx] at hs
    obtain ⟨m, hm, hflag, -⟩ := h.live (s := s) (by rw [htx]; exact List.mem_cons_self)
    obtain rfl := Option.some.inj hs
    rw [EthTx.deref, hm]
    dsimp only
    rw [hflag, if_neg (by decide)]
    have hgo := h.setTx (p := .done s) (l := []) (by rw [htx]; rfl) (List.cons_ne_nil _ _)
      (fun t b ht => by cases ht) (by rw [htx]; rfl)
    rwa [List.append_nil] at hgo
  | done s =>
    rw [htx] at hs
    obtain ⟨m, hm, -⟩ := h.live (s := s) (by rw [htx]; exact List.mem_cons_self)
    obtain rfl := Option.some.inj hs
    rw [EthTx.deref, hm]
    exact h.done htx hm

theorem TxInv.full {w : EthTx β} (h : TxInv w) (hfull : w.mb.mb.entry = w.mb.mb.size) :
    TxInv { w with mb := { w.mb with log := w.mb.log ++ [.full] } } :=
  ⟨h.mb.full hfull, h.size, h.nodup, h.caller, h.reads, h.log, h.fault⟩

theorem ethTxStep_inv (w : EthTx β) (a : EthTxAction β) (w' : EthTx β) (h : TxInv w)
    (hs : ethTxStep w a = some w') :
    TxInv w' := by
  cases a with
  | call s buf =>
    rw [ethTxStep] at hs
    split at hs
    · next hidle =>
      obtain rfl := Option.some.inj hs
      exact h.call hidle.1 buf
    · cases hs
  | post s =>
    rw [ethTxStep] at hs
    split at hs
    · next m hready hm =>
      dsimp only [rtMbSendWait] at hs
      split at hs
      · next hfull =>
        obtain rfl := Option.some.inj hs
        have hok := h.caller s
        rw [hready, hm] at hok
        exact (h.full hfull).ret hok.1
      · next hroom =>
        obtain rfl := Option.some.inj hs
        exact h.post hready hm hroom
    · cases hs
  | wait s =>
    rw [ethTxStep] at hs
    split at hs
    · next m hposted hm =>
      have hok := h.caller s
      rw [hposted, hm] at hok
      split at hs
      · next hflag =>
        obtain rfl := Option.some.inj hs
        refine h.ret fun hmem => ?_
        rw [hok.2.mp hmem] at hflag
        cases hflag
      · next hflag =>
        obtain rfl := Option.some.inj hs
        exact h.suspend hposted hm (Bool.eq_false_of_not_eq_true hflag)
    · cases hs
  | wake s =>
    rw [ethTxStep] at hs
    split at hs
    · next hwoken =>
      obtain rfl := Option.some.inj hs
      have hok := h.caller s
      rw [hwoken] at hok
      exact h.ret hok.woken_msg
    · cases hs
  | tx => exact ethTxThread_inv h hs

theorem ethTxInit_inv (msgPool : Nat → Tid) : TxInv (ethTxInit msgPool : EthTx β) := by
  refine ⟨rtMbInit_oneReceiver msgPool (by decide) etx, rfl, List.nodup_nil, fun s hs => ?_,
    fun s b hs => ?_, rfl,
    rfl⟩
  · cases hs
  · cases hs

/-- Any threads may send at any time, the transmit thread runs in between: it never goes through
the message of a call that has returned. Every packet the mailbox took is passed to the driver
once and in order, a call whose packet was taken returns only after that, and a suspended caller
is one the transmit thread still has to acknowledge. -/
theorem eth_tx_runs (msgPool : Nat → Tid) {as : List (EthTxAction β)} {w : EthTx β}
    (hr : runs ethTxStep (ethTxInit msgPool) as = some w) :
    w.fault = false ∧ w.accepted = w.sent ++ w.backlog ∧
      (∀ s, w.caller s = .idle → w.accepted.filter (·.1 = s) = w.sent.filter (·.1 = s)) ∧
      ∀ s, w.caller s = .suspended → s ∈ w.pending := by
  have h := runs_invariant ethTxStep_inv (ethTxInit_inv msgPool) hr
  refine ⟨h.fault, h.log, fun s hidle => ?_, fun s hsusp => ?_⟩
  · have hok := h.caller s
    rw [hidle] at hok
    have hnone : w.backlog.filter (·.1 = s) = [] := by
      rw [List.filter_eq_nil_iff]
      intro x hx hxs
      obtain ⟨t, ht, htx⟩ := List.mem_filterMap.mp hx
      obtain ⟨m, -, rfl⟩ := Option.map_eq_some_iff.mp htx
      obtain rfl : t = s := of_decide_eq_true hxs
      exact hok.idle_msg.2 (EthTx.mem_pending_of_unsent ht)
    rw [h.log, List.filter_append, hnone, List.append_nil]
  · have hok := h.caller s
    rw [hsusp] at hok
    cases hm : w.msg s with
    | none =>
      rw [hm] at hok
      exact hok.elim
    | some m =>
      rw [hm] at hok
      exact hok.1

/-- Thread 2 is suspended while the packet of thread 1 is sent and its call returns. -/
theorem eth_tx_runs_pair :
    ∃ w, runs ethTxStep (ethTxInit fun _ => 0)
        [.call 1 'a', .call 2 'b', .post 1, .post 2, .wait 2, .tx, .tx, .tx, .tx,
          .tx, .wait 1] = some w ∧
      w.caller 1 = .idle ∧ w.sent = [(1, 'a')] ∧ w.accepted.filter (·.1 = 1) = [(1, 'a')] ∧
      2 ∈ w.pending := by
  obtain ⟨w, hw, h1, h2, hs⟩ : ∃ w, runs ethTxStep (ethTxInit fun _ => 0)
      [.call 1 'a', .call 2 'b', .post 1, .post 2, .wait 2, .tx, .tx, .tx, .tx,
        .tx, .wait 1] = some w ∧
      w.caller 1 = .idle ∧ w.caller 2 = .suspended ∧ w.sent = [(1, 'a')] := ⟨_, rfl, rfl, rfl, rfl⟩
  obtain ⟨-, -, hidle, hsusp⟩ := eth_tx_runs (fun _ => 0) hw
  refine ⟨w, hw, h1, hs, ?_, hsusp 2 h2⟩
  rw [hidle 1 h1, hs]
  rfl

/-- Steps of the transmit thread until it waits for a mail, at most. -/
def TxPc.rank : TxPc β → Nat
  | .waiting => 0
  | .recv => 1
  | .done _ => 2
  | .ack _ => 3
  | .sending _ _ => 4
  | .got _ => 5

def EthTx.work (w : EthTx β) : Nat := 6 * w.mb.mb.mails.length + w.tx.rank

theorem TxInv.work_le {w : EthTx β} (h : TxInv w) : w.work ≤ 53 := by
  have hlen : w.mb.mb.mails.length ≤ 8 := by
    rw [Mailbox.mails_length]
    exact (show 8 = w.mb.mb.size from h.size.symm) ▸ h.mb.inv.entry
  have hrank : w.tx.rank ≤ 5 := by
    cases w.tx <;> simp [TxPc.rank]
  rw [EthTx.work]
  omega

theorem EthTx.received_work {w : EthTx β} {r : MbWorld Tid × Option Tid}
    {s : Tid} (hr : r.2 = some s)
    (hmails : w.mb.mb.mails = s :: r.1.mb.mails) :
    (w.received r).work < 6 * w.mb.mb.mails.length := by
  rw [EthTx.work, EthTx.received, hr, hmails, List.length_cons]
  change 6 * r.1.mb.mails.length + 5 < _
  omega

/-- The transmit thread waits with nothing to do, or it can go on and has less to do after that. -/
theorem TxInv.progress {w : EthTx β} (h : TxInv w) :
    w.pending = [] ∨ ∃ w', ethTxThread w = some w' ∧ w'.work < w.work ∧
    w'.accepted = w.accepted := by
  have hmb := h.mb
  have hempty : w.tx.hand = [] → w.mb.mb.mails = [] → w.pending = [] := by
    intro h1 h2
    rw [EthTx.pending, h1, h2]
    rfl
  rw [ethTxThread]
  cases htx : w.tx with
  | recv =>
    rw [htx] at hmb
    obtain ⟨-, ⟨hnil, -⟩ | ⟨s, hr, -, hmails⟩⟩ := hmb.tryRecv
    · exact Or.inl (hempty (by rw [htx]; rfl) hnil)
    · refine Or.inr ⟨_, rfl, ?_, rfl⟩
      exact Nat.lt_of_lt_of_le (EthTx.received_work hr hmails) (Nat.le_add_right _ _)
  | waiting =>
    rw [htx] at hmb
    rcases hmb.tryAgain with ⟨-, hnil⟩ | ⟨r, hr, -, ⟨hnil, -⟩ | ⟨s, hs, -, hmails⟩⟩
    · exact Or.inl (hempty (by rw [htx]; rfl) hnil)
    · exact Or.inl (hempty (by rw [htx]; rfl) hnil)
    · refine Or.inr ⟨w.received r, by rw [hr]; rfl, ?_, rfl⟩
      exact Nat.lt_of_lt_of_le (EthTx.received_work hs hmails) (Nat.le_add_right _ _)
  | got s =>
    obtain ⟨m, hm, -⟩ := h.live (s := s) (by rw [htx]; exact List.mem_cons_self)
    refine Or.inr ⟨_, rfl, ?_, ?_⟩
    · rw [EthTx.deref, hm, EthTx.work, EthTx.work, htx]
      exact Nat.lt_succ_self _
    · rw [EthTx.deref, hm]
  | sending s buf =>
    refine Or.inr ⟨_, rfl, ?_, rfl⟩
    rw [EthTx.work, EthTx.work, htx]
    exact Nat.lt_succ_self _
  | ack s =>
    obtain ⟨m, hm, hflag, -⟩ := h.live (s := s) (by rw [htx]; exact List.mem_cons_self)
    refine Or.inr ⟨_, rfl, ?_, ?_⟩
    · rw [EthTx.deref, hm, EthTx.work, EthTx.work, htx]
      dsimp only
      rw [hflag]
      exact Nat.lt_succ_self _
    · rw [EthTx.deref, hm]
  | done s =>
    obtain ⟨m, hm, -⟩ := h.live (s := s) (by rw [htx]; exact List.mem_cons_self)
    refine Or.inr ⟨_, rfl, ?_, ?_⟩
    · rw [EthTx.deref, hm, EthTx.work, EthTx.work, htx]
      exact Nat.lt_succ_self _
    · rw [EthTx.deref, hm]

theorem TxInv.drain {w : EthTx β} (h : TxInv w) {k : Nat} (hk : w.work ≤ k) :
    ∃ n, n ≤ k ∧ ∃ w', runs ethTxStep w (List.replicate n .tx) = some w' ∧
    TxInv w' ∧ w'.pending = [] ∧
      w'.accepted = w.accepted := by
  induction k generalizing w with
  | zero =>
    rcases h.progress with hdone | ⟨w', -, hlt, -⟩
    · exact ⟨0, Nat.le_refl 0, w, rfl, h, hdone, rfl⟩
    · omega
  | succ k ih =>
    rcases h.progress with hdone | ⟨w', hw', hlt, hacc⟩
    · exact ⟨0, Nat.zero_le _, w, rfl, h, hdone, rfl⟩
    · obtain ⟨n, hn, v, hv, hinv, hpend, hacc'⟩ := ih (ethTxThread_inv h hw') (by omega)
      exact ⟨n + 1, Nat.succ_le_succ hn, v, runs_cons.mpr ⟨w', hw', hv⟩, hinv,
        hpend, hacc'.trans hacc⟩

/-- No wakeup of the transmit thread is lost: from every point of a run it comes, by at most 53
steps of its own, to a point where all packets taken so far are sent and no caller is suspended. -/
theorem eth_tx_drains (msgPool : Nat → Tid) {as : List (EthTxAction β)} {w : EthTx β}
    (hr : runs ethTxStep (ethTxInit msgPool) as = some w) :
    ∃ n, n ≤ 53 ∧ ∃ w', runs ethTxStep w (List.replicate n .tx) = some w' ∧ w'.sent = w.accepted ∧
      ∀ s, w'.caller s ≠ .suspended := by
  have h := runs_invariant ethTxStep_inv (ethTxInit_inv msgPool) hr
  obtain ⟨n, hn, w', hw', hinv, hpend, hacc⟩ := h.drain h.work_le
  refine ⟨n, hn, w', hw', ?_, fun s hs => ?_⟩
  · have hback : w'.backlog = [] := by
      refine List.eq_nil_iff_forall_not_mem.mpr fun x hx => ?_
      obtain ⟨s, hs, -⟩ := List.mem_filterMap.mp hx
      have hmem := EthTx.mem_pending_of_unsent hs
      rw [hpend] at hmem
      cases hmem
    rw [← hacc, hinv.log, hback, List.append_nil]
  · have hok := hinv.caller s
    rw [hs, hpend] at hok
    cases hm : w'.msg s with
    | none =>
      rw [hm] at hok
      exact hok
    | some m =>
      rw [hm] at hok
      cases hok.1

theorem eth_tx_drains_suspended :
    ∃ w, runs ethTxStep (ethTxInit fun _ => 0) [.call 1 'a', .tx, .post 1, .wait 1] = some w ∧
    w.caller 1 = .suspended ∧
      ∃ n, n ≤ 53 ∧ ∃ w', runs ethTxStep w (List.replicate n .tx) = some w' ∧ w'.sent = [(1, 'a')] ∧
        w'.caller 1 ≠ .suspended := by
  obtain ⟨w, hw, h1, ha⟩ : ∃ w,
    runs ethTxStep (ethTxInit fun _ => 0) [.call 1 'a', .tx, .post 1, .wait 1] = some w ∧
      w.caller 1 = .suspended ∧ w.accepted = [(1, 'a')] := ⟨_, rfl, rfl, rfl⟩
  obtain ⟨n, hn, w', hw', hsent, hsusp⟩ := eth_tx_drains (fun _ => 0) hw
  exact ⟨w, hw, h1, n, hn, w', hw', hsent.trans ha, hsusp 1⟩

end EthTx

end Rk3576.Net
