import Rk3576.Gmac.Receive

/-! Who wakes the RX thread: the engine raises a status bit, `gmac_isr` acknowledges it and
posts a mail, `eth_rx_thread_entry` takes the mail and drains the ring. -/
namespace Rk3576.Gmac
open Rk3576.Run Rk3576.Bytes

structure EthDevice where
  netif : Bool
  rxNotice : Bool
  linkChanged : Bool
  linkStatus : Bool
  deriving DecidableEq, Repr

/-- `gmac_isr` with `rk3576_gmac_dma_irq_ack`: the status has been read and is about to be
written back, or has been acknowledged and is about to be looked at. -/
inductive IsrPc where
  | idle
  | ack (status : BitVec 32)
  | notify (status : BitVec 32)
  deriving DecidableEq, Repr

/-- `eth_rx_thread_entry`: at rt_mb_recv, at the link check, at the store to rx_notice, at the
head of the drain loop, or inside eth_rx. -/
inductive EthRxPc where
  | recv | link | clear | drain
  | call (t : RxCall)

/-- `mbox` counts the mails of `eth_rx_thread_mb`; every one of them is for this device. -/
structure WakeState where
  ring : RxRing
  pool : Nat → Byte
  status : BitVec 32
  fatalBusErrors : BitVec 32
  dev : EthDevice
  mbox : Nat
  isr : IsrPc
  thread : EthRxPc

def rtLwipEththreadMboxSize : Nat := 8

/-- rt_mb_send does not wait: a full mailbox refuses the mail. -/
def rtMbSend (entry : Nat) : Nat := if entry < rtLwipEththreadMboxSize then entry + 1 else entry

def ethDeviceReady (s : WakeState) : WakeState :=
  if s.dev.netif then
    if s.dev.rxNotice = false then
      { s with dev := { s.dev with rxNotice := true }, mbox := rtMbSend s.mbox }
    else s
  else s

def ethDeviceLinkchange (s : WakeState) (up : Bool) : WakeState :=
  { s with dev := { s.dev with linkChanged := true, linkStatus := up }, mbox := rtMbSend s.mbox }

def rxStatusMask : BitVec 32 := gmacDmaStatusRxInterrupt ||| gmacDmaStatusRxBufferUnavail

/-- The next step of `gmac_isr`; at `idle` the interrupt is taken. -/
def gmacIsr (s : WakeState) : WakeState :=
  match s.isr with
  | .idle => { s with isr := .ack s.status }
  | .ack st => { s with status := s.status &&& ~~~st, isr := .notify st }
  | .notify st =>
    let s := if st &&& gmacDmaStatusFatalBusError ≠ 0 then
      { s with fatalBusErrors := s.fatalBusErrors + 1 } else s
    let s := if st &&& rxStatusMask ≠ 0 then ethDeviceReady s else s
    { s with isr := .idle }

/-- The next step of `eth_rx_thread_entry`. What netif->input answers does not matter to the
loop: it goes on as long as eth_rx returns a pbuf. -/
def ethRxThreadEntry (pool : Nat) (s : WakeState) (g : Option (List Nat)) : Option WakeState :=
  match s.thread with
  | .recv => if s.mbox = 0 then none else some { s with mbox := s.mbox - 1, thread := .link }
  | .link =>
    some { s with
      dev := if s.dev.linkChanged then { s.dev with linkChanged := false } else s.dev,
      thread := .clear }
  | .clear => some { s with dev := { s.dev with rxNotice := false }, thread := .drain }
  | .drain => some { s with thread := .call {} }
  | .call t =>
    if PbufAlloc t g then
      match rk3576GmacDmaReceive pool s.pool s.ring g t with
      | (a, .next u) => some { s with ring := s.ring.perform a, thread := .call u }
      | (a, .ret (some _)) => some { s with ring := s.ring.perform a, thread := .drain }
      | (a, .ret none) => some { s with ring := s.ring.perform a, thread := .recv }
    else none

inductive WakeAct where
  /-- the engine completes descriptor `i` and raises the RX status bit, `bits` alongside -/
  | complete (i : Nat) (wb : GmacDesc) (data : List Byte) (bits : BitVec 32)
  | raise (bits : BitVec 32)
  | isr
  | thread (grant : Option (List Nat))
  | linkchange (up : Bool)

def wakeStep (pool : Nat) (s : WakeState) : WakeAct → Option WakeState
  | .complete i wb data bits =>
    if i < gmacRxDescCount ∧ (s.ring.rxDesc i).own then
      some
        { s with
          ring := s.ring.complete i wb
          pool := rxFilled pool s.pool (s.ring.rxDesc i) data
          status := s.status ||| (gmacDmaStatusRxInterrupt ||| bits) }
    else none
  | .raise bits => some { s with status := s.status ||| bits }
  | .isr => some (gmacIsr s)
  | .thread g => ethRxThreadEntry pool s g
  | .linkchange up => some (ethDeviceLinkchange s up)

def wakeInit (pool : Nat) (g : GmacDev) (buf : Nat → Byte) : WakeState where
  ring := rxRingInit pool g
  pool := buf
  status := 0
  fatalBusErrors := g.fatalBusErrors
  dev := ⟨true, false, false, false⟩
  mbox := 0
  isr := .idle
  thread := .recv

def WakeState.ready (s : WakeState) : Prop := (s.ring.rxDesc s.ring.rxIndex).own = false

def IsrPc.notifying : IsrPc → Bool
  | .notify st => st &&& rxStatusMask != 0
  | _ => false

/-- A wake-up is on its way: an enabled RX status bit is set, the handler is between
acknowledge and eth_device_ready, or a mail is queued. -/
def WakeState.wake (s : WakeState) : Prop :=
  s.status &&& dmaIntEnabled &&& rxStatusMask ≠ 0 ∨ s.isr.notifying = true ∨ 0 < s.mbox

/-- The thread has taken a mail and has not seen eth_rx return NULL since. -/
def EthRxPc.draining : EthRxPc → Bool
  | .recv => false
  | _ => true

/-- A completed descriptor does not wait with nothing scheduled to fetch it. -/
def Scheduled (s : WakeState) : Prop := s.ready → s.wake ∨ s.thread.draining = true

/-- The step drops a completed descriptor: its status word is refused, or pbuf_alloc fails. -/
def drops (s : WakeState) : WakeAct → Bool
  | .thread g =>
    match s.thread with
    | .call t =>
      t.pc == .status && !(s.ring.rxDesc s.ring.rxIndex).own &&
        !rxAccept (s.ring.rxDesc s.ring.rxIndex).des3 ||
        t.pc == .alloc && g == none
    | _ => false
  | _ => false

/-- A descriptor is dropped only while the one after it is still with the engine, or a wake-up
is on its way anyhow. -/
def DropsLast (s : WakeState) (a : WakeAct) : Prop :=
  drops s a = true → (s.ring.rxDesc (rxNext s.ring.rxIndex)).own = true ∨ s.wake

instance (s : WakeState) : Decidable s.wake := inferInstanceAs (Decidable (_ ∨ _ ∨ _))

instance (s : WakeState) (a : WakeAct) : Decidable (DropsLast s a) :=
  inferInstanceAs (Decidable (_ → _))

/-- What a call owes to the descriptor after its own: once it is bound to return NULL, a
completed one must have a wake-up coming. -/
def RxOwes (s : WakeState) (t : RxCall) : Prop :=
  match t.pc with
  | .status | .alloc => True
  | .copy => t.p ≠ none
  | .tail => t.p = none → s.ready → s.wake
  | _ => t.p = none → (s.ring.rxDesc (rxNext s.ring.rxIndex)).own = false → s.wake

def WakeThread (pool : Nat) (s : WakeState) : Prop :=
  match s.thread with
  | .recv => s.ready → s.wake
  | .call t => RxHeld pool s.ring t ∧ RxOwes s t
  | _ => True

structure WakeInv (pool : Nat) (s : WakeState) : Prop where
  index_lt : s.ring.rxIndex < gmacRxDescCount
  netif : s.dev.netif = true
  notice : s.dev.rxNotice = true → 0 < s.mbox ∨ s.thread = .link ∨ s.thread = .clear
  thread : WakeThread pool s

theorem rtMbSend_pos (n : Nat) : 0 < rtMbSend n := by
  unfold rtMbSend
  split
  · exact Nat.succ_pos n
  · rename_i h
    simp only [rtLwipEththreadMboxSize] at h
    omega

theorem or_ne_zero {x y : BitVec 32} (h : x ≠ 0) : x ||| y ≠ 0 :=
  fun he => h (BitVec.or_eq_zero_iff.mp he).1

theorem enabled_mask (x : BitVec 32) :
    x &&& dmaIntEnabled &&& rxStatusMask = x &&& rxStatusMask := by
  rw [BitVec.and_assoc, show dmaIntEnabled &&& rxStatusMask = rxStatusMask by decide]

theorem ack_status {x st : BitVec 32} (h : x &&& rxStatusMask ≠ 0) (hst : st &&& rxStatusMask = 0) :
    (x &&& ~~~st) &&& rxStatusMask ≠ 0 := by
  intro he
  apply h
  apply BitVec.eq_of_getLsbD_eq
  intro i hi
  have h1 := congrArg (·.getLsbD i) he
  have h2 := congrArg (·.getLsbD i) hst
  simp only [BitVec.getLsbD_and, BitVec.getLsbD_not, hi, decide_true, Bool.true_and] at h1 h2 ⊢
  cases hm : rxStatusMask.getLsbD i with
  | false => simp
  | true =>
    have hst' : st.getLsbD i = false := by simpa [hm] using h2
    simpa [hm, hst'] using h1

/-- No step of the handler loses a wake-up, unless the thread has taken the mail and not yet
cleared rx_notice. -/
theorem wake_isr {pool : Nat} {s : WakeState} (h : WakeInv pool s) (hl : s.thread ≠ .link)
    (hc : s.thread ≠ .clear) (hw : s.wake) : (gmacIsr s).wake := by
  simp only [WakeState.wake, enabled_mask] at hw ⊢
  cases hi : s.isr with
  | idle =>
    simp only [gmacIsr, hi]
    simp only [hi, IsrPc.notifying] at hw
    simpa [IsrPc.notifying] using hw
  | ack st =>
    simp only [gmacIsr, hi, IsrPc.notifying]
    simp only [hi, IsrPc.notifying] at hw
    by_cases hst : st &&& rxStatusMask = 0
    · cases hw with
      | inl hw => exact .inl (ack_status hw hst)
      | inr hw => exact .inr (.inr (by simpa using hw))
    · exact .inr (.inl (by simpa using hst))
  | notify st =>
    simp only [hi, IsrPc.notifying] at hw
    by_cases hst : st &&& rxStatusMask = 0
    · have hw : s.status &&& rxStatusMask ≠ 0 ∨ 0 < s.mbox := by simpa [hst] using hw
      simp only [gmacIsr, hi, hst, ne_eq, not_true_eq_false, if_false]
      cases hw with
      | inl hw => left; split <;> exact hw
      | inr hw => right; right; split <;> exact hw
    · -- eth_device_ready posts a mail, or rx_notice says that one is queued
      right; right
      simp only [gmacIsr, hi, ne_eq, hst, not_false_eq_true, if_true, ethDeviceReady]
      have hpos : s.dev.rxNotice = true → 0 < s.mbox := fun hn =>
        (h.notice hn).resolve_right fun hor => hor.elim hl hc
      cases hn : s.dev.rxNotice with
      | true =>
        have := hpos hn
        split <;> simpa [h.netif, hn] using this
      | false => split <;> simp [h.netif, rtMbSend_pos]

theorem RxOwes.mono {s s' : WakeState} {t : RxCall} (h : RxOwes s t)
    (hi : s'.ring.rxIndex = s.ring.rxIndex)
    (hd : ∀ i, (s'.ring.rxDesc i).own = false → (s.ring.rxDesc i).own = false ∨ s'.wake)
    (hw : s.wake → s'.wake) : RxOwes s' t := by
  cases hp : t.pc <;> simp only [RxOwes, hp] at h ⊢
  case copy => exact h
  case tail =>
    intro hn hr
    rw [WakeState.ready, hi] at hr
    cases hd _ hr with
    | inl hr => exact hw (h hn hr)
    | inr hr => exact hr
  all_goals
    intro hn hr
    rw [hi] at hr
    cases hd _ hr with
    | inl hr => exact hw (h hn hr)
    | inr hr => exact hr

/-- A step beside the thread: the ring moves only by completions, which raise a wake-up. -/
theorem WakeThread.beside {pool : Nat} {s s' : WakeState} (h : WakeThread pool s)
    (hth : s'.thread = s.thread)
    (hi : s'.ring.rxIndex = s.ring.rxIndex)
    (hheld : ∀ t, RxHeld pool s.ring t → RxHeld pool s'.ring t)
    (hd : ∀ i, (s'.ring.rxDesc i).own = false → (s.ring.rxDesc i).own = false ∨ s'.wake)
    (hw : s.thread ≠ .link → s.thread ≠ .clear → s.wake → s'.wake) : WakeThread pool s' := by
  cases ht : s.thread with
  | recv =>
    simp only [WakeThread, hth, ht] at h ⊢
    intro hr
    rw [WakeState.ready, hi] at hr
    cases hd _ hr with
    | inl hr => exact hw (by simp [ht]) (by simp [ht]) (h hr)
    | inr hr => exact hr
  | call t =>
    simp only [WakeThread, hth, ht] at h ⊢
    exact ⟨hheld t h.1, h.2.mono hi hd (hw (by simp [ht]) (by simp [ht]))⟩
  | link => simp [WakeThread, hth, ht]
  | clear => simp [WakeThread, hth, ht]
  | drain => simp [WakeThread, hth, ht]

theorem wakeInv_complete {pool i : Nat} {s s' : WakeState} {wb : GmacDesc} {data : List Byte}
    {bits : BitVec 32} (h : WakeInv pool s)
    (hs : wakeStep pool s (.complete i wb data bits) = some s') :
    WakeInv pool s' := by
  simp only [wakeStep] at hs
  split at hs <;> cases hs
  rename_i ho
  refine ⟨h.index_lt, h.netif, h.notice,
    h.thread.beside rfl rfl (fun t ht => ht.complete ho.2) ?_ ?_⟩
  · intro _ _
    right; left
    rw [enabled_mask, BitVec.and_comm, BitVec.and_or_distrib_left, BitVec.and_or_distrib_left,
      ← BitVec.or_assoc]
    apply or_ne_zero
    rw [BitVec.or_comm]
    exact or_ne_zero (by decide)
  · intro _ _ hw
    cases hw with
    | inl hw =>
      left
      rw [enabled_mask] at hw ⊢
      rw [BitVec.and_comm, BitVec.and_or_distrib_left, BitVec.and_comm]
      exact or_ne_zero hw
    | inr hw => exact .inr hw

theorem wakeInv_isr {pool : Nat} {s : WakeState} (h : WakeInv pool s) :
    WakeInv pool (gmacIsr s) := by
  have hframe : (gmacIsr s).ring = s.ring ∧ (gmacIsr s).thread = s.thread ∧
      (gmacIsr s).dev.netif = s.dev.netif := by
    simp only [gmacIsr, ethDeviceReady]
    split
    · exact ⟨rfl, rfl, rfl⟩
    · exact ⟨rfl, rfl, rfl⟩
    · split <;> split <;> (try split) <;> (try split) <;> exact ⟨rfl, rfl, rfl⟩
  obtain ⟨hring, hth, hnet⟩ := hframe
  refine ⟨hring ▸ h.index_lt, hnet.trans h.netif, ?_, ?_⟩
  · rw [hth]
    cases hi : s.isr with
    | idle => simpa [gmacIsr, hi] using h.notice
    | ack st => simpa [gmacIsr, hi] using h.notice
    | notify st =>
      simp only [gmacIsr, hi, ethDeviceReady]
      cases hn : s.dev.rxNotice with
      | true =>
        intro _
        have hq := h.notice hn
        split <;> split <;> simpa [h.netif, hn] using hq
      | false => split <;> split <;> simp [h.netif, hn, rtMbSend_pos]
  · exact h.thread.beside hth (by rw [hring]) (fun t ht => hring ▸ ht)
      (fun i hi => .inl (hring ▸ hi))
      fun hl hc hw => wake_isr h hl hc hw

theorem own_rxNext {r : RxRing} {i : Nat} {f : DescField} {v : BitVec 32} (he : i = r.rxIndex) :
    (r.perform (.desc i f v)).rxDesc (rxNext r.rxIndex) = r.rxDesc (rxNext r.rxIndex) := by
  have hne : rxNext r.rxIndex ≠ i := by
    rw [he]
    simp only [rxNext, gmacRxDescCount]
    omega
  exact Function.update_of_ne hne _ _

/-- One access of the receive path: a drop that is bound to return NULL owes the next
descriptor nothing, or a wake-up is coming. -/
theorem RxOwes.step {pool : Nat} {s : WakeState} {g : Option (List Nat)}
    {t u : RxCall} {a : RxAccess} (h : RxOwes s t) (hh : RxHeld pool s.ring t)
    (hth : s.thread = .call t) (hdrop : DropsLast s (.thread g))
    (hr : rk3576GmacDmaReceive pool s.pool s.ring g t = (a, .next u)) :
    RxOwes { s with ring := s.ring.perform a, thread := .call u } u := by
  -- a dropped descriptor leaves the next one with the engine
  have howes : drops s (.thread g) = true →
      (s.ring.rxDesc (rxNext s.ring.rxIndex)).own = false → s.wake := fun hd hn =>
    (hdrop hd).resolve_left (by simp [hn])
  cases hp : t.pc <;> simp only [RxOwes, hp] at h <;> simp only [RxHeld, hp] at hh <;>
    simp only [rk3576GmacDmaReceive, hp] at hr
  case status =>
    split at hr <;> cases hr
    rename_i ho
    cases hacc : rxAccept (s.ring.rxDesc s.ring.rxIndex).des3 with
    | true => simp [RxOwes]
    | false =>
      intro _ hn
      exact howes (by simp [drops, hth, hp, ho, hacc]) hn
  case alloc =>
    split at hr <;> cases hr
    · intro _ hn
      exact howes (by simp [drops, hth, hp]) hn
    · simp [RxOwes]
  case copy =>
    split at hr
    · cases hr
      intro hn
      exact absurd hn h
    · split at hr <;> cases hr <;> simp [RxOwes, h]
  case des0 => cases hr; intro hn ho; exact h hn (by rw [← own_rxNext hh.1]; exact ho)
  case des1 => cases hr; intro hn ho; exact h hn (by rw [← own_rxNext hh.1]; exact ho)
  case des2 => cases hr; intro hn ho; exact h hn (by rw [← own_rxNext hh.1]; exact ho)
  case des3 => cases hr; intro hn ho; exact h hn (by rw [← own_rxNext hh.1]; exact ho)
  case index => cases hr; exact h
  case tail => cases hr

theorem wakeInv_thread {pool : Nat} {s s' : WakeState} {g : Option (List Nat)} (h : WakeInv pool s)
    (hdrop : DropsLast s (.thread g)) (hs : wakeStep pool s (.thread g) = some s') :
    WakeInv pool s' := by
  simp only [wakeStep, ethRxThreadEntry] at hs
  cases ht : s.thread with
  | recv =>
    simp only [ht] at hs
    split at hs <;> cases hs
    exact ⟨h.index_lt, h.netif, fun _ => .inr (.inl rfl), trivial⟩
  | link =>
    simp only [ht] at hs
    cases hs
    refine ⟨h.index_lt, ?_, fun _ => .inr (.inr rfl), trivial⟩
    simp only
    split <;> exact h.netif
  | clear =>
    simp only [ht] at hs
    cases hs
    exact ⟨h.index_lt, h.netif, by simp, trivial⟩
  | drain =>
    simp only [ht] at hs
    cases hs
    exact ⟨h.index_lt, h.netif, fun hn => .inl (by simpa [ht] using h.notice hn), trivial, trivial⟩
  | call t =>
    have hnotice : s.dev.rxNotice = true → 0 < s.mbox := fun hn => by simpa [ht] using h.notice hn
    have hthread := h.thread
    simp only [WakeThread, ht] at hthread
    obtain ⟨hh, ho⟩ := hthread
    simp only [ht] at hs
    split at hs
    · rename_i hg
      split at hs <;> cases hs <;> rename_i a u hr
      · refine ⟨?_, h.netif, fun hn => .inl (hnotice hn), hh.step hg hr, ho.step hh ht hdrop hr⟩
        exact rxIndex_lt_perform h.index_lt hr
      · refine ⟨?_, h.netif, fun hn => .inl (hnotice hn), trivial⟩
        exact rxIndex_lt_perform h.index_lt hr
      · refine ⟨rxIndex_lt_perform h.index_lt hr, h.netif, fun hn => .inl (hnotice hn), ?_⟩
        -- NULL is returned from an empty ring, or at the end of a drop
        cases hp : t.pc <;> simp only [rk3576GmacDmaReceive, hp] at hr
        case status =>
          split at hr <;> cases hr
          rename_i hown
          intro hr
          simp [WakeState.ready, RxRing.perform, hown] at hr
        case tail =>
          simp only [RxOwes, hp] at ho
          obtain ⟨rfl, hnone⟩ := Prod.mk.inj hr
          intro hr
          exact ho (RxGoto.ret.inj hnone) hr
        case alloc => split at hr <;> cases hr
        case copy =>
          split at hr
          · cases hr
          · split at hr <;> cases hr
        all_goals cases hr
    · cases hs

theorem wakeInv_step {pool : Nat} {s s' : WakeState} {a : WakeAct} (h : WakeInv pool s)
    (hdrop : DropsLast s a) (hs : wakeStep pool s a = some s') : WakeInv pool s' := by
  cases a with
  | complete i wb data bits => exact wakeInv_complete h hs
  | raise bits =>
    cases hs
    refine ⟨h.index_lt, h.netif, h.notice,
      h.thread.beside rfl rfl (fun _ ht => ht) (fun _ hi => .inl hi) ?_⟩
    intro _ _ hw
    cases hw with
    | inl hw =>
      left
      rw [enabled_mask] at hw ⊢
      rw [BitVec.and_comm, BitVec.and_or_distrib_left, BitVec.and_comm]
      exact or_ne_zero hw
    | inr hw => exact .inr hw
  | isr => cases hs; exact wakeInv_isr h
  | thread g => exact wakeInv_thread h hdrop hs
  | linkchange up =>
    cases hs
    refine ⟨h.index_lt, h.netif, fun _ => .inl (rtMbSend_pos _), ?_⟩
    exact h.thread.beside rfl rfl (fun _ ht => ht) (fun _ hi => .inl hi) fun _ _ _ =>
      .inr (.inr (rtMbSend_pos _))

theorem wakeInv_init (pool : Nat) (g : GmacDev) (buf : Nat → Byte) :
    WakeInv pool (wakeInit pool g buf) where
  index_lt := (by decide : 0 < gmacRxDescCount)
  netif := rfl
  notice h := by simp [wakeInit] at h
  thread hr := by
    have hown : ((wakeInit pool g buf).ring.rxDesc 0).own = true :=
      own_rxRingInit pool g (by decide)
    exact absurd (hown.symm.trans hr) Bool.noConfusion

theorem WakeInv.scheduled {pool : Nat} {s : WakeState} (h : WakeInv pool s) : Scheduled s := by
  intro hr
  cases ht : s.thread with
  | recv =>
    have hth := h.thread
    simp only [WakeThread, ht] at hth
    exact .inl (hth hr)
  | _ => exact .inr rfl

/-- No receive wake-up is lost in a run that drops no descriptor with a completed one, and no
wake-up, behind it. -/
theorem receive_scheduled (pool : Nat) (g : GmacDev) (buf : Nat → Byte) (as : List WakeAct)
    (s : WakeState) (hr : runs (wakeStep pool) (wakeInit pool g buf) as = some s)
    (hdrop : Along (wakeStep pool) (fun s a _ => DropsLast s a)
      (wakeInit pool g buf) as) : Scheduled s :=
  (runs_invariant_along (fun s a _ (h : WakeInv pool s) (hd : DropsLast s a) hs =>
    wakeInv_step h hd hs)
    (wakeInv_init pool g buf) hdrop hr).scheduled

def wakeThread : List WakeAct :=
  [.isr, .isr, .isr, .thread none, .thread none, .thread none, .thread none]

def dropOne : List WakeAct := List.replicate 7 (.thread none)

def errorFrame : GmacDesc := ⟨0, 0, 0, desc3Fd ||| desc3Ld ||| desc3RxError ||| 60⟩
def goodFrame : GmacDesc := ⟨0, 0, 0, desc3Fd ||| desc3Ld ||| 60⟩

def wakeStart : WakeState := wakeInit 0x40000000 gmac0 fun _ => 0

def wakeView (s : WakeState) : Bool × BitVec 32 × Nat × IsrPc × Bool :=
  ((s.ring.rxDesc s.ring.rxIndex).own, s.status, s.mbox, s.isr, s.thread.draining)

/-- The good frame completes while the bad one is being dropped: its interrupt is still to come. -/
theorem receive_scheduled_lateFrame :
    ∃ s, runs (wakeStep 0x40000000) wakeStart ([.complete 0 errorFrame [] 0] ++ wakeThread ++
        [.thread none, .complete 1 goodFrame [] 0] ++ List.replicate 6 (.thread none)) = some s ∧
      s.ready ∧ s.thread.draining = false ∧ Scheduled s := by
  obtain ⟨s, hs, hv⟩ := Option.map_eq_some_iff.mp
    (by decide +kernel : (runs (wakeStep 0x40000000) wakeStart
      ([.complete 0 errorFrame [] 0] ++ wakeThread ++
          [.thread none, .complete 1 goodFrame [] 0] ++ List.replicate 6 (.thread none))).map
            wakeView =
      some (false, gmacDmaStatusRxInterrupt, 0, .idle, false))
  simp only [wakeView, Prod.mk.injEq] at hv
  exact ⟨s, hs, hv.1, hv.2.2.2.2, receive_scheduled _ _ _ _ s hs (by decide +kernel)⟩

/-- Both frames are there when the thread starts: it drops the first, takes NULL for the end of
the ring, and goes to sleep on the second. -/
theorem not_scheduled_errorFirst :
    ∃ s, runs (wakeStep 0x40000000) wakeStart
      ([.complete 0 errorFrame [] 0, .complete 1 goodFrame [] 0] ++
        wakeThread ++ dropOne) = some s ∧ ¬ Scheduled s := by
  obtain ⟨s, hs, hv⟩ := Option.map_eq_some_iff.mp
    (by decide +kernel : (runs (wakeStep 0x40000000) wakeStart ([.complete 0 errorFrame [] 0,
        .complete 1 goodFrame [] 0] ++ wakeThread ++ dropOne)).map wakeView =
          some (false, 0, 0, .idle, false))
  simp only [wakeView, Prod.mk.injEq] at hv
  obtain ⟨hready, hstatus, hmbox, hisr, hth⟩ := hv
  refine ⟨s, hs, fun hsch => ?_⟩
  cases hsch hready with
  | inl hw => simp [WakeState.wake, hstatus, hmbox, hisr, IsrPc.notifying] at hw
  | inr hd => simp [hth] at hd

end Rk3576.Gmac
