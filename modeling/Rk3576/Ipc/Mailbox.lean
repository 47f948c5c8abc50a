import Rk3576.Lib.Ring
import Rk3576.Lib.Run
import Rk3576.Ipc.Object

/-! The mailboxes of `ipc.c`. A section with interrupts off is one step, so a call that blocks is
several: the try that suspends the thread, and a new try each time it has been resumed. -/
namespace Rk3576.Ipc
open Rk3576.Ring Rk3576.Run

def rtMbEntryMax : Nat := 0xffff

/-- `struct rt_mailbox`, without the lists of suspended threads. -/
structure Mailbox (α : Type) where
  msgPool : Nat → α
  size : Nat
  entry : Nat
  inOffset : Nat
  outOffset : Nat

/-- What a finished call did to the mailbox. A call that did nothing returned -RT_EFULL, or
-RT_ETIMEOUT without waiting, or the -RT_ETIMEOUT that the timer of a suspended thread leaves. -/
inductive MbEvent (α : Type) where
  | put (v : α)
  | urgent (v : α)
  | got (v : α)
  | full
  | empty
  | timedOut

/-- A mailbox and the threads in its calls: `suspendThread` and `suspendSender` are its lists of
suspended receivers and senders, `recvReady` and `sendReady` the threads that were resumed from
them and have not tried again yet. -/
structure MbWorld (α : Type) where
  mb : Mailbox α
  suspendThread : List Tid
  recvReady : List Tid
  suspendSender : List (Tid × α)
  sendReady : List (Tid × α)
  log : List (MbEvent α)

def rtMbInit {α : Type} (msgPool : Nat → α) (size : Nat) : MbWorld α :=
  ⟨⟨msgPool, size, 0, 0, 0⟩, [], [], [], [], []⟩

section Mailbox
variable {α : Type}

def MbWorld.resumeReceiver (w : MbWorld α) : MbWorld α :=
  match w.suspendThread with
  | [] => w
  | t :: ts => { w with suspendThread := ts, recvReady := t :: w.recvReady }

def MbWorld.resumeSender (w : MbWorld α) : MbWorld α :=
  match w.suspendSender with
  | [] => w
  | t :: ts => { w with suspendSender := ts, sendReady := t :: w.sendReady }

def MbWorld.put (w : MbWorld α) (value : α) : MbWorld α :=
  let mb := { w.mb with msgPool := Function.update w.mb.msgPool w.mb.inOffset value,
                        inOffset := succ w.mb.size w.mb.inOffset }
  if mb.entry < rtMbEntryMax then
    MbWorld.resumeReceiver { w with
      mb := { mb with entry := mb.entry + 1 }, log := w.log ++ [.put value] }
  else { w with mb, log := w.log ++ [.full] }

/-- The end of `rt_mb_recv`, with a mail in the mailbox. -/
def MbWorld.get (w : MbWorld α) : MbWorld α :=
  let value := w.mb.msgPool w.mb.outOffset
  let mb := { w.mb with outOffset := succ w.mb.size w.mb.outOffset,
                        entry := if w.mb.entry > 0 then w.mb.entry - 1 else w.mb.entry }
  MbWorld.resumeSender { w with mb, log := w.log ++ [.got value] }

def rtMbUrgent (w : MbWorld α) (value : α) : MbWorld α :=
  if w.mb.entry = w.mb.size then { w with log := w.log ++ [.full] }
  else
    let outOffset := if w.mb.outOffset > 0 then w.mb.outOffset - 1 else w.mb.size - 1
    let mb := { w.mb with
      outOffset, msgPool := Function.update w.mb.msgPool outOffset value, entry := w.mb.entry + 1 }
    MbWorld.resumeReceiver { w with mb, log := w.log ++ [.urgent value] }

/-- One round of the loop of `rt_mb_send_wait` by the thread `t`; `wait` is `timeout != 0`. -/
def rtMbSendWait (before : Tid × α → Tid × α → Bool) (w : MbWorld α) (t : Tid) (value : α)
    (wait : Bool) : MbWorld α :=
  if w.mb.entry = w.mb.size then
    if wait then { w with suspendSender := ipcListSuspend before (t, value) w.suspendSender }
    else { w with log := w.log ++ [.full] }
  else w.put value

def rtMbRecv (before : Tid → Tid → Bool) (w : MbWorld α) (t : Tid) (wait : Bool) : MbWorld α :=
  if w.mb.entry = 0 then
    if wait then { w with suspendThread := ipcListSuspend before t w.suspendThread }
    else { w with log := w.log ++ [.empty] }
  else w.get

/-- A call, a resumed thread that tries again (with `wait` false once its time is over), or the
timer of a suspended thread, which takes it off its list. `before` says which suspended threads
give way at that moment. -/
inductive MbAction (α : Type) where
  | send (before : Tid → Tid → Bool) (t : Tid) (value : α) (wait : Bool)
  | sendAgain (before : Tid → Tid → Bool) (i : Nat) (wait : Bool)
  | sendTimeout (i : Nat)
  | recv (before : Tid → Tid → Bool) (t : Tid) (wait : Bool)
  | recvAgain (before : Tid → Tid → Bool) (i : Nat) (wait : Bool)
  | recvTimeout (i : Nat)
  | urgent (value : α)

/-- Threads of a list are named by their places. -/
def mbStep (w : MbWorld α) : MbAction α → Option (MbWorld α)
  | .send before t value wait => some (rtMbSendWait (fun a b => before a.1 b.1) w t value wait)
  | .sendAgain before i wait =>
    w.sendReady[i]?.map fun a =>
      rtMbSendWait (fun a b => before a.1 b.1)
        { w with sendReady := w.sendReady.eraseIdx i } a.1 a.2 wait
  | .sendTimeout i =>
    if i < w.suspendSender.length then
      some { w with suspendSender := w.suspendSender.eraseIdx i, log := w.log ++ [.timedOut] }
    else none
  | .recv before t wait => some (rtMbRecv before w t wait)
  | .recvAgain before i wait =>
    w.recvReady[i]?.map fun t =>
      rtMbRecv before { w with recvReady := w.recvReady.eraseIdx i } t wait
  | .recvTimeout i =>
    if i < w.suspendThread.length then
      some { w with suspendThread := w.suspendThread.eraseIdx i, log := w.log ++ [.timedOut] }
    else none
  | .urgent value => some (rtMbUrgent w value)

def Mailbox.mails (mb : Mailbox α) : List α := items mb.msgPool mb.size mb.outOffset mb.entry

/-- A bounded queue of at most `size` mails goes through the events from `q` to `q'`: a call is
refused as full or empty only where the queue is. -/
def Replay (size : Nat) : (q : List α) → List (MbEvent α) → (q' : List α) → Prop
  | q, [], q' => q = q'
  | q, .put v :: es, q' => q.length < size ∧ Replay size (q ++ [v]) es q'
  | q, .urgent v :: es, q' => q.length < size ∧ Replay size (v :: q) es q'
  | q, .got v :: es, q' => ∃ r, q = v :: r ∧ Replay size r es q'
  | q, .full :: es, q' => q.length = size ∧ Replay size q es q'
  | q, .empty :: es, q' => q = [] ∧ Replay size q es q'
  | q, .timedOut :: es, q' => Replay size q es q'

/-- The ring is in order and the finished calls are those of a bounded queue. -/
structure MbCore (w : MbWorld α) : Prop where
  size : w.mb.size ≤ rtMbEntryMax
  entry : w.mb.entry ≤ w.mb.size
  out : 0 < w.mb.size → w.mb.outOffset < w.mb.size
  inOffset : w.mb.inOffset = (w.mb.outOffset + w.mb.entry) % w.mb.size
  log : Replay w.mb.size [] w.log w.mb.mails

/-- No lost wakeup: for every mail there is a resumed receiver on its way, or nobody waits for
mails; for every free place a resumed sender, or nobody waits for places. -/
structure MbInv (w : MbWorld α) : Prop extends MbCore w where
  recv : w.suspendThread ≠ [] → w.mb.entry ≤ w.recvReady.length
  send : w.suspendSender ≠ [] → w.mb.size ≤ w.mb.entry + w.sendReady.length

theorem replay_append {n : Nat} {q q' : List α} {es : List (MbEvent α)} {e : MbEvent α} :
    Replay n q (es ++ [e]) q' ↔ ∃ r, Replay n q es r ∧ Replay n r [e] q' := by
  induction es generalizing q with
  | nil => simp [Replay]
  | cons a es ih =>
    cases a with
    | put v | urgent v =>
      simp only [List.cons_append, Replay, ih]
      exact ⟨fun ⟨h, r, hr⟩ => ⟨r, ⟨h, hr.1⟩, hr.2⟩, fun ⟨r, h, hr⟩ => ⟨h.1, r, h.2, hr⟩⟩
    | got v =>
      simp only [List.cons_append, Replay, ih]
      exact ⟨fun ⟨p, h, r, hr⟩ => ⟨r, ⟨p, h, hr.1⟩, hr.2⟩,
        fun ⟨r, ⟨p, h, hp⟩, hr⟩ => ⟨p, h, r, hp, hr⟩⟩
    | full | empty =>
      simp only [List.cons_append, Replay, ih]
      exact ⟨fun ⟨h, r, hr⟩ => ⟨r, ⟨h, hr.1⟩, hr.2⟩, fun ⟨r, h, hr⟩ => ⟨h.1, r, h.2, hr⟩⟩
    | timedOut =>
      simp only [List.cons_append, Replay, ih]

section Calls
variable {w : MbWorld α} (h : MbCore w)
include h

theorem MbCore.mails_put (hroom : w.mb.entry < w.mb.size) (v : α) :
    items (Function.update w.mb.msgPool w.mb.inOffset v) w.mb.size w.mb.outOffset (w.mb.entry + 1) =
      w.mb.mails ++ [v] := by
  rw [h.inOffset]
  exact items_push w.mb.msgPool hroom v

theorem MbCore.put (hroom : w.mb.entry < w.mb.size) (v : α)
    (hrecv : w.suspendThread ≠ [] → w.mb.entry ≤ w.recvReady.length)
    (hsend : w.suspendSender ≠ [] → w.mb.size ≤ w.mb.entry + 1 + w.sendReady.length) :
    MbInv (w.put v) := by
  have hsize := h.size
  have hnext : succ w.mb.size w.mb.inOffset = (w.mb.outOffset + (w.mb.entry + 1)) % w.mb.size := by
    have hlt : w.mb.inOffset < w.mb.size := h.inOffset ▸ Nat.mod_lt _ (Nat.zero_lt_of_lt hroom)
    rw [succ_eq hlt, h.inOffset, Nat.mod_add_mod, Nat.add_assoc]
  have hlog : Replay w.mb.size [] (w.log ++ [.put v]) (w.mb.mails ++ [v]) := by
    refine replay_append.mpr ⟨w.mb.mails, h.log, ?_, rfl⟩
    rwa [Mailbox.mails, items_length]
  rw [← h.mails_put hroom v] at hlog
  simp only [MbWorld.put]
  rw [if_pos (by omega), MbWorld.resumeReceiver]
  dsimp only
  cases hw : w.suspendThread with
  | nil => exact ⟨⟨h.size, hroom, h.out, hnext, hlog⟩, fun hne => absurd rfl hne, hsend⟩
  | cons t ts =>
    refine ⟨⟨h.size, hroom, h.out, hnext, hlog⟩, fun _ => ?_, hsend⟩
    exact Nat.succ_le_succ (hrecv (hw ▸ List.cons_ne_nil t ts))

theorem MbCore.get (hmail : w.mb.entry ≠ 0)
    (hrecv : w.suspendThread ≠ [] → w.mb.entry ≤ w.recvReady.length + 1)
    (hsend : w.suspendSender ≠ [] → w.mb.size ≤ w.mb.entry + w.sendReady.length) : MbInv w.get := by
  obtain ⟨n, hn⟩ : ∃ n, w.mb.entry = n + 1 := ⟨w.mb.entry - 1, by omega⟩
  have hentry := h.entry
  have hpos : 0 < w.mb.size := by omega
  have hold := h.out hpos
  have hmails : w.mb.mails = w.mb.msgPool w.mb.outOffset ::
      items w.mb.msgPool w.mb.size (succ w.mb.size w.mb.outOffset) n := by
    rw [Mailbox.mails, hn]
    exact items_pop w.mb.msgPool n hold
  have hlog : Replay w.mb.size [] (w.log ++ [.got (w.mb.msgPool w.mb.outOffset)])
      (items w.mb.msgPool w.mb.size (succ w.mb.size w.mb.outOffset) n) :=
    replay_append.mpr ⟨w.mb.mails, h.log, _, hmails, rfl⟩
  have hin : w.mb.inOffset = (succ w.mb.size w.mb.outOffset + n) % w.mb.size := by
    rw [h.inOffset, succ_eq hold, Nat.mod_add_mod, hn]
    congr 1
    omega
  have hout : succ w.mb.size w.mb.outOffset < w.mb.size := succ_lt hpos
  simp only [MbWorld.get]
  rw [if_pos (by omega), MbWorld.resumeSender, hn, Nat.add_sub_cancel]
  dsimp only
  cases hw : w.suspendSender with
  | nil =>
    refine ⟨⟨h.size, ?_, fun _ => hout, hin, hlog⟩, fun hne => ?_, fun hne => absurd rfl hne⟩
    · dsimp only
      omega
    · have := hrecv hne
      dsimp only
      omega
  | cons t ts =>
    refine ⟨⟨h.size, ?_, fun _ => hout, hin, hlog⟩, fun hne => ?_, fun _ => ?_⟩
    · dsimp only
      omega
    · have := hrecv hne
      dsimp only
      omega
    · have := hsend (hw ▸ List.cons_ne_nil t ts)
      rw [List.length_cons]
      dsimp only
      omega

end Calls

theorem Mailbox.mails_length (mb : Mailbox α) : mb.mails.length = mb.entry := items_length _ _ _ _

theorem MbCore.note {w : MbWorld α} (h : MbCore w) {e : MbEvent α}
    (he : Replay w.mb.size w.mb.mails [e] w.mb.mails) :
    MbCore { w with log := w.log ++ [e] } :=
  ⟨h.size, h.entry, h.out, h.inOffset, replay_append.mpr ⟨w.mb.mails, h.log, he⟩⟩

theorem MbCore.full {w : MbWorld α} (h : MbCore w) (hfull : w.mb.entry = w.mb.size) :
    MbCore { w with log := w.log ++ [.full] } :=
  h.note ⟨w.mb.mails_length.trans hfull, rfl⟩

theorem MbCore.empty {w : MbWorld α} (h : MbCore w) (hempty : w.mb.entry = 0) :
    MbCore { w with log := w.log ++ [.empty] } :=
  h.note ⟨List.eq_nil_of_length_eq_zero (w.mb.mails_length.trans hempty), rfl⟩

theorem MbInv.urgent {w : MbWorld α} (h : MbInv w) (v : α) : MbInv (rtMbUrgent w v) := by
  have hentry := h.entry
  rw [rtMbUrgent]
  by_cases hfull : w.mb.entry = w.mb.size
  · rw [if_pos hfull]
    exact ⟨h.toMbCore.full hfull, h.recv, h.send⟩
  rw [if_neg hfull]
  have hout := h.out (by omega)
  generalize hp : (if w.mb.outOffset > 0 then w.mb.outOffset - 1 else w.mb.size - 1) = prev
  have hprev : prev < w.mb.size ∧ succ w.mb.size prev = w.mb.outOffset := by
    rw [succ]
    split at hp
    · rw [if_neg (by omega)]
      omega
    · rw [if_pos (by omega)]
      omega
  have hmails : items (Function.update w.mb.msgPool prev v) w.mb.size prev (w.mb.entry + 1) =
      v :: w.mb.mails :=
    items_unshift w.mb.msgPool hprev.1 hprev.2 (by omega) v
  have hlog : Replay w.mb.size [] (w.log ++ [.urgent v]) (v :: w.mb.mails) := by
    refine replay_append.mpr ⟨w.mb.mails, h.log, ?_, rfl⟩
    rw [Mailbox.mails, items_length]
    omega
  have hin : w.mb.inOffset = (prev + (w.mb.entry + 1)) % w.mb.size := by
    rw [h.inOffset, ← hprev.2, succ_eq hprev.1, Nat.mod_add_mod]
    congr 1
    omega
  rw [← hmails] at hlog
  have hsend : w.suspendSender ≠ [] → w.mb.size ≤ w.mb.entry + 1 + w.sendReady.length := by
    intro hne
    have := h.send hne
    omega
  rw [MbWorld.resumeReceiver]
  dsimp only
  cases hw : w.suspendThread with
  | nil => exact ⟨⟨h.size, by dsimp only; omega, fun _ => hprev.1, hin, hlog⟩,
      fun hne => absurd rfl hne, hsend⟩
  | cons t ts =>
    refine ⟨⟨h.size, by dsimp only; omega, fun _ => hprev.1, hin, hlog⟩, fun _ => ?_, hsend⟩
    exact Nat.succ_le_succ (h.recv (hw ▸ List.cons_ne_nil t ts))

theorem ne_nil_of_eraseIdx {β : Type} {l : List β} {i : Nat} (h : l.eraseIdx i ≠ []) : l ≠ [] := by
  rintro rfl
  exact h rfl

/-- A try to send, by a thread that was not, or is no longer, counted as resumed. -/
theorem MbCore.sendWait {w : MbWorld α} (h : MbCore w) (before : Tid × α → Tid × α → Bool) (t : Tid)
    (v : α) (wait : Bool) (hrecv : w.suspendThread ≠ [] → w.mb.entry ≤ w.recvReady.length)
    (hsend : w.suspendSender ≠ [] → w.mb.size ≤ w.mb.entry + 1 + w.sendReady.length) :
    MbInv (rtMbSendWait before w t v wait) := by
  have hentry := h.entry
  rw [rtMbSendWait]
  by_cases hfull : w.mb.entry = w.mb.size
  · have hall : ∀ n, w.mb.size ≤ w.mb.entry + n := by omega
    rw [if_pos hfull]
    cases wait with
    | false => exact ⟨h.full hfull, hrecv, fun _ => hall _⟩
    | true => exact ⟨⟨h.size, h.entry, h.out, h.inOffset, h.log⟩, hrecv, fun _ => hall _⟩
  · rw [if_neg hfull]
    exact h.put (by omega) v hrecv hsend

theorem MbCore.recv {w : MbWorld α} (h : MbCore w) (before : Tid → Tid → Bool)
    (t : Tid) (wait : Bool) (hrecv : w.suspendThread ≠ [] → w.mb.entry ≤ w.recvReady.length + 1)
    (hsend : w.suspendSender ≠ [] → w.mb.size ≤ w.mb.entry + w.sendReady.length) :
    MbInv (rtMbRecv before w t wait) := by
  rw [rtMbRecv]
  by_cases hempty : w.mb.entry = 0
  · have hall : ∀ n, w.mb.entry ≤ n := by omega
    rw [if_pos hempty]
    cases wait with
    | false => exact ⟨h.empty hempty, fun _ => hall _, hsend⟩
    | true => exact ⟨⟨h.size, h.entry, h.out, h.inOffset, h.log⟩, fun _ => hall _, hsend⟩
  · rw [if_neg hempty]
    exact h.get hempty hrecv hsend

theorem mbStep_inv (w : MbWorld α) (a : MbAction α) (w' : MbWorld α) (h : MbInv w)
    (hs : mbStep w a = some w') : MbInv w' := by
  have hsend' : w.suspendSender ≠ [] → w.mb.size ≤ w.mb.entry + 1 + w.sendReady.length := by
    intro hne
    have := h.send hne
    omega
  cases a with
  | send before t v wait =>
    obtain rfl := Option.some.inj hs
    exact h.toMbCore.sendWait _ t v wait h.recv hsend'
  | sendAgain before i wait =>
    obtain ⟨a, ha, rfl⟩ := Option.map_eq_some_iff.mp hs
    have hi := (List.getElem?_eq_some_iff.mp ha).1
    have hcore : MbCore { w with sendReady := w.sendReady.eraseIdx i } :=
      ⟨h.size, h.entry, h.out, h.inOffset, h.log⟩
    refine hcore.sendWait _ a.1 a.2 wait h.recv fun hne => ?_
    have := h.send hne
    rw [List.length_eraseIdx_of_lt hi]
    dsimp only
    omega
  | sendTimeout i =>
    rw [mbStep] at hs
    split at hs
    · obtain rfl := Option.some.inj hs
      have hcore := h.toMbCore.note (e := .timedOut) rfl
      exact ⟨⟨h.size, h.entry, h.out, h.inOffset, hcore.log⟩, h.recv,
        fun hne => h.send (ne_nil_of_eraseIdx hne)⟩
    · cases hs
  | recv before t wait =>
    obtain rfl := Option.some.inj hs
    exact h.toMbCore.recv _ t wait (fun hne => Nat.le_succ_of_le (h.recv hne)) h.send
  | recvAgain before i wait =>
    obtain ⟨t, ht, rfl⟩ := Option.map_eq_some_iff.mp hs
    have hi := (List.getElem?_eq_some_iff.mp ht).1
    have hcore : MbCore { w with recvReady := w.recvReady.eraseIdx i } :=
      ⟨h.size, h.entry, h.out, h.inOffset, h.log⟩
    refine hcore.recv _ t wait (fun hne => ?_) h.send
    have := h.recv hne
    rw [List.length_eraseIdx_of_lt hi]
    dsimp only
    omega
  | recvTimeout i =>
    rw [mbStep] at hs
    split at hs
    · obtain rfl := Option.some.inj hs
      have hcore := h.toMbCore.note (e := .timedOut) rfl
      exact ⟨⟨h.size, h.entry, h.out, h.inOffset, hcore.log⟩,
        fun hne => h.recv (ne_nil_of_eraseIdx hne), h.send⟩
    · cases hs
  | urgent v =>
    obtain rfl := Option.some.inj hs
    exact h.urgent v

theorem rtMbInit_inv (msgPool : Nat → α) {size : Nat} (hsize : size ≤ rtMbEntryMax) :
    MbInv (rtMbInit msgPool size) :=
  ⟨⟨hsize, Nat.zero_le _, id, (Nat.zero_mod _).symm, rfl⟩, fun h => absurd rfl h,
    fun h => absurd rfl h⟩

/-- Any threads and interrupt handlers may send, send urgently and receive, block, time out and
try again in any order: the finished calls, the refused ones included, are those of one queue of
`size` places that holds the mails of the mailbox; a receiver is never left suspended with a mail
that no resumed receiver is about to look at, nor a sender with a free place that no resumed
sender is. -/
theorem mailbox_runs (msgPool : Nat → α) {size : Nat} (hsize : size ≤ rtMbEntryMax)
    {as : List (MbAction α)}
    {w : MbWorld α} (hr : runs mbStep (rtMbInit msgPool size) as = some w) :
    Replay w.mb.size [] w.log w.mb.mails ∧ w.mb.mails.length ≤ w.mb.size ∧
      (w.suspendThread ≠ [] → w.mb.mails.length ≤ w.recvReady.length) ∧
      (w.suspendSender ≠ [] → w.mb.size ≤ w.mb.mails.length + w.sendReady.length) := by
  have h := runs_invariant mbStep_inv (rtMbInit_inv msgPool hsize) hr
  rw [Mailbox.mails, items_length]
  exact ⟨h.log, h.entry, h.recv, h.send⟩

/-- Two receivers wait, one mail comes, a third receiver takes it, a fourth does not wait, and the
resumed one waits again, now before the other. -/
theorem mailbox_runs_stolen :
    let fifo := givesWay .fifo id
    let prio := givesWay .prio id
    ∃ w, runs mbStep (rtMbInit (fun _ => (0 : Nat)) 8)
        [.recv fifo 1 true, .recv fifo 2 true, .send fifo 0 5 false, .recv fifo 3 true,
          .recv fifo 4 false, .recvAgain prio 0 true] = some w ∧
      w.suspendThread = [1, 2] ∧ w.log = [.put 5, .got 5, .empty] ∧
      w.mb.mails.length ≤ w.recvReady.length := by
  intro fifo prio
  obtain ⟨w, hw, hl, hlog⟩ : ∃ w, runs mbStep (rtMbInit (fun _ => (0 : Nat)) 8)
      [.recv fifo 1 true, .recv fifo 2 true, .send fifo 0 5 false, .recv fifo 3 true,
        .recv fifo 4 false, .recvAgain prio 0 true] = some w ∧
      w.suspendThread = [1, 2] ∧ w.log = [.put 5, .got 5, .empty] := ⟨_, rfl, rfl, rfl⟩
  obtain ⟨_, _, hrecv, _⟩ := mailbox_runs (fun _ => (0 : Nat)) (by decide) hw
  exact ⟨w, hw, hl, hlog, hrecv (hl ▸ List.cons_ne_nil 1 [2])⟩

/-- A try of the receiver: the mailbox after it, and the mail if there was one. -/
def MbWorld.tryRecv (w : MbWorld α) (t : Tid) : MbWorld α × Option α :=
  (rtMbRecv (givesWay .fifo id) w t true,
    if w.mb.entry = 0 then none else some (w.mb.msgPool w.mb.outOffset))

def MbWorld.tryAgain (w : MbWorld α) (t : Tid) : Option (MbWorld α × Option α) :=
  match w.recvReady with
  | [] => none
  | _ :: ts => some (MbWorld.tryRecv { w with recvReady := ts } t)

/-- The receiver `t` is on a list of the mailbox exactly if it waits. -/
structure OneReceiver (t : Tid) (waiting : Bool) (w : MbWorld α) : Prop where
  inv : MbInv w
  senders : w.suspendSender = []
  lists : (waiting = false ∧ w.suspendThread = [] ∧ w.recvReady = []) ∨
    (waiting = true ∧ w.suspendThread = [t] ∧ w.recvReady = []) ∨
    (waiting = true ∧ w.suspendThread = [] ∧ w.recvReady = [t])

theorem MbCore.put_eq {w : MbWorld α} (h : MbCore w) (hroom : w.mb.entry < w.mb.size) (v : α) :
    (w.put v).mb.mails = w.mb.mails ++ [v] ∧ (w.put v).mb.size = w.mb.size ∧
      (w.put v).suspendSender = w.suspendSender ∧ (w.put v).suspendThread = w.suspendThread.tail ∧
      (w.put v).recvReady = w.suspendThread.take 1 ++ w.recvReady := by
  have hsize := h.size
  have hmails := h.mails_put hroom v
  simp only [MbWorld.put]
  rw [if_pos (by omega), MbWorld.resumeReceiver]
  dsimp only
  cases hw : w.suspendThread with
  | nil => exact ⟨hmails, rfl, rfl, rfl, rfl⟩
  | cons t ts => exact ⟨hmails, rfl, rfl, rfl, rfl⟩

theorem MbCore.get_eq {w : MbWorld α} (h : MbCore w) (hmail : w.mb.entry ≠ 0)
    (hsend : w.suspendSender = []) :
    w.mb.mails = w.mb.msgPool w.mb.outOffset :: w.get.mb.mails ∧ w.get.mb.size = w.mb.size ∧
      w.get.suspendSender = [] ∧ w.get.suspendThread = w.suspendThread ∧
      w.get.recvReady = w.recvReady := by
  obtain ⟨n, hn⟩ : ∃ n, w.mb.entry = n + 1 := ⟨w.mb.entry - 1, by omega⟩
  have hentry := h.entry
  have hout := h.out (by omega)
  simp only [MbWorld.get]
  rw [if_pos (by omega), MbWorld.resumeSender, hn, Nat.add_sub_cancel]
  dsimp only
  rw [hsend]
  refine ⟨?_, rfl, rfl, rfl, rfl⟩
  rw [Mailbox.mails, hn]
  exact items_pop w.mb.msgPool n hout

section OneReceiver
variable {t : Tid} {waiting : Bool} {w : MbWorld α}

theorem OneReceiver.put (h : OneReceiver t waiting w) (hroom : w.mb.entry ≠ w.mb.size) (v : α) :
    OneReceiver t waiting (w.put v) ∧ (w.put v).mb.mails = w.mb.mails ++ [v] ∧
    (w.put v).mb.size = w.mb.size := by
  have hlt : w.mb.entry < w.mb.size := Nat.lt_of_le_of_ne h.inv.entry hroom
  obtain ⟨hmails, hsize, hsend, hthr, hready⟩ := h.inv.toMbCore.put_eq hlt v
  refine ⟨⟨h.inv.toMbCore.put hlt v h.inv.recv fun hne => absurd h.senders hne,
    hsend.trans h.senders, ?_⟩, hmails, hsize⟩
  rw [hthr, hready]
  rcases h.lists with ⟨hw, h1, h2⟩ | ⟨hw, h1, h2⟩ | ⟨hw, h1, h2⟩
  · exact Or.inl ⟨hw, by rw [h1]; rfl, by rw [h1, h2]; rfl⟩
  · exact Or.inr (Or.inr ⟨hw, by rw [h1]; rfl, by rw [h1, h2]; rfl⟩)
  · exact Or.inr (Or.inr ⟨hw, by rw [h1]; rfl, by rw [h1, h2]; rfl⟩)

theorem OneReceiver.full (h : OneReceiver t waiting w) (hfull : w.mb.entry = w.mb.size) :
    OneReceiver t waiting { w with log := w.log ++ [.full] } :=
  ⟨⟨h.inv.toMbCore.full hfull, h.inv.recv, h.inv.send⟩, h.senders, h.lists⟩

theorem MbInv.tryRecv (h : MbInv w) (hsend : w.suspendSender = [])
    (hthr : w.suspendThread = []) (t : Tid) :
    ((MbWorld.tryRecv { w with recvReady := [] } t).1.mb.size = w.mb.size) ∧
      ((w.mb.mails = [] ∧ (MbWorld.tryRecv { w with recvReady := [] } t).2 = none ∧
      OneReceiver t true (MbWorld.tryRecv { w with recvReady := [] } t).1 ∧
      (MbWorld.tryRecv { w with recvReady := [] } t).1.mb.mails = []) ∨
      ∃ v, (MbWorld.tryRecv { w with recvReady := [] } t).2 = some v ∧
      OneReceiver t false (MbWorld.tryRecv { w with recvReady := [] } t).1 ∧
      w.mb.mails = v :: (MbWorld.tryRecv { w with recvReady := [] } t).1.mb.mails) := by
  have hcore : MbCore { w with recvReady := [] } := ⟨h.size, h.entry, h.out, h.inOffset, h.log⟩
  have hinv :=
    hcore.recv (givesWay .fifo id) t true (fun hne => absurd hthr hne) (fun hne => absurd hsend hne)
  rw [rtMbRecv] at hinv
  rw [MbWorld.tryRecv, rtMbRecv]
  dsimp only at hinv ⊢
  by_cases hempty : w.mb.entry = 0
  · rw [if_pos hempty, if_pos rfl] at hinv
    rw [if_pos hempty, if_pos rfl, if_pos hempty]
    have hnil : w.mb.mails = [] := List.eq_nil_of_length_eq_zero (w.mb.mails_length.trans hempty)
    refine ⟨rfl, Or.inl ⟨hnil, rfl, ⟨hinv, hsend, Or.inr (Or.inl ⟨rfl, ?_, rfl⟩)⟩, hnil⟩⟩
    dsimp only
    rw [hthr]
    rfl
  · rw [if_neg hempty] at hinv
    rw [if_neg hempty, if_neg hempty]
    obtain ⟨hmails, hsize, hsend', hthr', hready'⟩ := hcore.get_eq hempty hsend
    exact ⟨hsize, Or.inr ⟨_, rfl, ⟨hinv, hsend', Or.inl ⟨rfl, hthr'.trans hthr, hready'⟩⟩, hmails⟩⟩

theorem OneReceiver.tryRecv (h : OneReceiver t false w) :
    (w.tryRecv t).1.mb.size = w.mb.size ∧
      ((w.mb.mails = [] ∧ (w.tryRecv t).2 = none ∧ OneReceiver t true (w.tryRecv t).1 ∧
        (w.tryRecv t).1.mb.mails = []) ∨
      ∃ v, (w.tryRecv t).2 = some v ∧ OneReceiver t false (w.tryRecv t).1 ∧
        w.mb.mails = v :: (w.tryRecv t).1.mb.mails) := by
  rcases h.lists with ⟨-, h1, h2⟩ | ⟨hw, -⟩ | ⟨hw, -⟩
  · have htry := h.inv.tryRecv h.senders h1 t
    rwa [← h2] at htry
  · cases hw
  · cases hw

/-- No lost wakeup: a receiver that cannot go on has nothing to receive. -/
theorem OneReceiver.tryAgain (h : OneReceiver t true w) :
    (w.tryAgain t = none ∧ w.mb.mails = []) ∨
      ∃ r, w.tryAgain t = some r ∧ r.1.mb.size = w.mb.size ∧
      ((w.mb.mails = [] ∧ r.2 = none ∧ OneReceiver t true r.1 ∧ r.1.mb.mails = []) ∨
      ∃ v, r.2 = some v ∧ OneReceiver t false r.1 ∧ w.mb.mails = v :: r.1.mb.mails) := by
  rcases h.lists with ⟨hw, -⟩ | ⟨-, h1, h2⟩ | ⟨-, h1, h2⟩
  · cases hw
  · left
    have hle := h.inv.recv (h1 ▸ List.cons_ne_nil t [])
    rw [h2, ← Mailbox.mails_length, List.length_nil] at hle
    rw [MbWorld.tryAgain, h2]
    exact ⟨rfl, List.eq_nil_of_length_eq_zero (Nat.le_zero.mp hle)⟩
  · right
    rw [MbWorld.tryAgain, h2]
    exact ⟨_, rfl, h.inv.tryRecv h.senders h1 t⟩

theorem rtMbInit_oneReceiver (msgPool : Nat → α) {size : Nat}
    (hsize : size ≤ rtMbEntryMax) (t : Tid) :
    OneReceiver t false (rtMbInit msgPool size) :=
  ⟨rtMbInit_inv msgPool hsize, rfl, Or.inl ⟨rfl, rfl, rfl⟩⟩

end OneReceiver

end Mailbox

end Rk3576.Ipc
