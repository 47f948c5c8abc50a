import Rk3576.Gmac.Link
import Rk3576.Gmac.ReceiveWakeup
import Rk3576.Ipc.Mailbox

/-! How a change of the link comes from the PHY thread through `eth_device_linkchange` and the
receive thread to lwIP's netif. -/
namespace Rk3576.Net
open Rk3576.Run Rk3576.Ipc Rk3576.Gmac

/-- Where the receive thread is in its loop; `take` is before the part with interrupts off, and
`apply` before the call of netif_set_link_up or netif_set_link_down. -/
inductive ErxPc where
  | recv
  | waiting
  | check
  | take
  | apply (status : Bool)
  | clear
  | drain
  deriving DecidableEq

/-- `posting` is true between the two parts of `eth_device_linkchange`; `linkUp` is
NETIF_FLAG_LINK_UP of the netif. Every mail is the one Ethernet device. -/
structure LinkWorld where
  phy : LinkState
  thread : PhyThread
  posting : Bool
  dev : EthDevice
  mb : MbWorld Unit
  rx : ErxPc
  linkUp : Bool

inductive LinkAction where
  | phy (poll : Option (BitVec 16))
  | ready
  | rx (frame : Bool)

def erx : Tid := 0

/-- rt_mb_send to `eth_rx_thread_mb`; a full mailbox refuses the mail and nobody looks at the
result. -/
def LinkWorld.post (w : LinkWorld) : LinkWorld :=
  { w with mb := rtMbSendWait (fun _ _ => false) w.mb 0 () false }

/-- `gmac_phy_thread`, with `eth_device_linkchange` in two steps. -/
def phyStep (poll : Option (BitVec 16)) (w : LinkWorld) : LinkWorld :=
  let next := gmacPhyThread poll w.phy w.thread
  if w.thread.pc = .notify then
    if w.posting then LinkWorld.post { w with phy := next.1, thread := next.2, posting := false }
    else
      { w with
        dev := { w.dev with linkChanged := true, linkStatus := w.thread.link.up }, posting := true }
  else { w with phy := next.1, thread := next.2 }

def readyStep (w : LinkWorld) : LinkWorld :=
  if w.dev.netif ∧ w.dev.rxNotice = false then
    LinkWorld.post { w with dev := { w.dev with rxNotice := true } } else w

def LinkWorld.received (w : LinkWorld) (r : MbWorld Unit × Option Unit) : LinkWorld :=
  { w with mb := r.1, rx := match r.2 with | none => .waiting | some _ => .check }

/-- `eth_rx_thread_entry`; `frame` is whether eth_rx returns a pbuf. -/
def erxStep (frame : Bool) (w : LinkWorld) : Option LinkWorld :=
  match w.rx with
  | .recv => some (w.received (w.mb.tryRecv erx))
  | .waiting => (w.mb.tryAgain erx).map w.received
  | .check => some { w with rx := if w.dev.linkChanged then .take else .clear }
  | .take =>
    some { w with dev := { w.dev with linkChanged := false }, rx := .apply w.dev.linkStatus }
  | .apply status => some { w with linkUp := status, rx := .clear }
  | .clear => some { w with dev := { w.dev with rxNotice := false }, rx := .drain }
  | .drain => some { w with rx := if frame then .drain else .recv }

def linkStep (w : LinkWorld) : LinkAction → Option LinkWorld
  | .phy poll => some (phyStep poll w)
  | .ready => some (readyStep w)
  | .rx frame => erxStep frame w

/-- After `eth_device_init_with_flag` without ETHIF_LINK_PHYUP: the link is down at first. -/
def linkInit (g : GmacDev) (con : BitVec 16) (msgPool : Nat → Unit) : LinkWorld where
  phy := ⟨g, con, []⟩
  thread := {}
  posting := false
  dev := ⟨true, false, false, false⟩
  mb := rtMbInit msgPool rtLwipEththreadMboxSize
  rx := .recv
  linkUp := false

def ErxPc.waits : ErxPc → Bool
  | .waiting => true
  | _ => false

/-- What the netif is told next, or was told last. -/
def LinkWorld.told (w : LinkWorld) : Bool :=
  match w.rx with
  | .apply status => status
  | _ => w.linkUp

/-- The thread has taken a mail and not cleared `link_changed` since. -/
def ErxPc.looks : ErxPc → Prop
  | .check | .take => True
  | _ => False

/-- The PHY thread keeps `link_up`, the device `link_status`: they differ only while a report is
on its way. -/
structure PhyOk (w : LinkWorld) : Prop where
  report : w.thread.pc = .notify → w.phy.dev.linkUp = w.thread.link.up
  posted : w.posting = true → w.thread.pc = .notify ∧ w.dev.linkStatus = w.phy.dev.linkUp
  agree : w.thread.pc ≠ .notify → w.dev.linkStatus = w.phy.dev.linkUp

structure LinkNetInv (w : LinkWorld) : Prop where
  phy : PhyOk w
  mb : OneReceiver erx w.rx.waits w.mb
  pos : 0 < w.mb.mb.size
  same : w.dev.linkChanged = false → w.told = w.dev.linkStatus
  pending : w.dev.linkChanged = true → w.posting = true ∨ w.mb.mb.mails ≠ [] ∨ w.rx.looks

theorem gmacPhyThread_linkUp (poll : Option (BitVec 16)) {s : LinkState} {t : PhyThread}
    (h : t.pc ≠ .notify) :
    ((gmacPhyThread poll s t).2.pc = .notify ∧
      (gmacPhyThread poll s t).1.dev.linkUp = (gmacPhyThread poll s t).2.link.up) ∨
      ((gmacPhyThread poll s t).2.pc ≠ .notify ∧
        (gmacPhyThread poll s t).1.dev.linkUp = s.dev.linkUp) := by
  rw [gmacPhyThread]
  cases hpc : t.pc with
  | notify => exact absurd hpc h
  | linkUp => exact Or.inl ⟨rfl, rfl⟩
  | check =>
    refine Or.inr ⟨?_, rfl⟩
    dsimp only
    split <;> decide
  | poll =>
    dsimp only
    split
    · exact Or.inr ⟨fun he => (by cases he), rfl⟩
    · exact Or.inr ⟨fun he => (by cases he), rfl⟩
  | test =>
    dsimp only
    split
    · exact Or.inr ⟨fun he => (by cases he), rfl⟩
    · exact Or.inr ⟨fun he => (by cases he), rfl⟩
  | flag =>
    refine Or.inr ⟨?_, rfl⟩
    dsimp only
    split <;> decide
  | clock | load | store | speed | duplex => exact Or.inr ⟨fun he => (by cases he), rfl⟩

/-- After a post there is a mail: the one posted, or those that fill the mailbox. -/
theorem LinkWorld.post_mails {w : LinkWorld} (hmb : OneReceiver erx w.rx.waits w.mb)
    (hpos : 0 < w.mb.mb.size) :
    OneReceiver erx w.rx.waits w.post.mb ∧ 0 < w.post.mb.mb.size ∧ w.post.mb.mb.mails ≠ [] := by
  rw [LinkWorld.post, rtMbSendWait]
  dsimp only
  by_cases hfull : w.mb.mb.entry = w.mb.mb.size
  · rw [if_pos hfull, if_neg (by decide)]
    refine ⟨hmb.full hfull, hpos, fun hnil => ?_⟩
    have hlen := w.mb.mb.mails_length
    rw [hnil, List.length_nil, hfull] at hlen
    omega
  · rw [if_neg hfull]
    obtain ⟨h1, h2, h3⟩ := hmb.put hfull ()
    refine ⟨h1, h3.symm ▸ hpos, fun hnil => ?_⟩
    rw [h2] at hnil
    cases (List.append_eq_nil_iff.mp hnil).2

theorem LinkNetInv.phyStep {w : LinkWorld} (h : LinkNetInv w) (poll : Option (BitVec 16)) :
    LinkNetInv (phyStep poll w) := by
  rw [Net.phyStep]
  dsimp only
  split
  · next hpc =>
    split
    · next hposting =>
      obtain ⟨-, hstatus⟩ := h.phy.posted hposting
      have hnext : gmacPhyThread poll w.phy w.thread =
        ({ w.phy with notices := w.phy.notices ++ [w.phy.notice w.thread.link.up] },
          { w.thread with pc := .check }) := by
        rw [gmacPhyThread, hpc]
      rw [hnext]
      obtain ⟨h1, h2, h3⟩ := LinkWorld.post_mails (w := { w with
        phy := { w.phy with notices := w.phy.notices ++ [w.phy.notice w.thread.link.up] }
        thread := { w.thread with pc := .check }, posting := false }) h.mb h.pos
      refine ⟨⟨fun hc => (by cases hc), fun hp => (by cases hp), fun _ => hstatus⟩, h1, h2, h.same,
        fun _ => Or.inr (Or.inl h3)⟩
    · refine ⟨⟨h.phy.report, fun _ => ⟨hpc, (h.phy.report hpc).symm⟩, fun hne => absurd hpc hne⟩,
        h.mb, h.pos,
        fun hc => ?_, fun _ => Or.inl rfl⟩
      cases hc
  · next hpc =>
    have hposting : w.posting = false := by
      cases hp : w.posting with
      | false => rfl
      | true => exact absurd (h.phy.posted hp).1 hpc
    refine ⟨⟨fun hn => ?_, fun hp => ?_, fun hn => ?_⟩, h.mb, h.pos, h.same, h.pending⟩
    · rcases gmacPhyThread_linkUp poll (s := w.phy) hpc with hup | hup
      · exact hup.2
      · exact absurd hn hup.1
    · cases hposting.symm.trans hp
    · rcases gmacPhyThread_linkUp poll (s := w.phy) hpc with hup | hup
      · exact absurd hup.1 hn
      · exact (h.phy.agree hpc).trans hup.2.symm

theorem LinkNetInv.readyStep {w : LinkWorld} (h : LinkNetInv w) : LinkNetInv (readyStep w) := by
  rw [Net.readyStep]
  split
  · obtain ⟨h1, h2, h3⟩ :=
      LinkWorld.post_mails (w := { w with dev := { w.dev with rxNotice := true } }) h.mb h.pos
    exact ⟨⟨h.phy.report, h.phy.posted, h.phy.agree⟩, h1, h2, h.same, fun _ => Or.inr (Or.inl h3)⟩
  · exact h

theorem LinkNetInv.received {w : LinkWorld} (h : LinkNetInv w)
    (hrx : w.rx = .recv ∨ w.rx = .waiting)
    {r : MbWorld Unit × Option Unit} (hsize : r.1.mb.size = w.mb.mb.size)
    (hr : (w.mb.mb.mails = [] ∧ r.2 = none ∧ OneReceiver erx true r.1 ∧ r.1.mb.mails = []) ∨
      ∃ v, r.2 = some v ∧ OneReceiver erx false r.1 ∧ w.mb.mb.mails = v :: r.1.mb.mails) :
      LinkNetInv (w.received r) := by
  obtain ⟨mb, o⟩ := r
  have hpos : 0 < mb.mb.size := hsize.symm ▸ h.pos
  have htold : w.told = w.linkUp := by
    rcases hrx with hrx | hrx <;> rw [LinkWorld.told, hrx]
  have hsame := h.same
  rw [htold] at hsame
  have hphy : PhyOk (w.received (mb, o)) := ⟨h.phy.report, h.phy.posted, h.phy.agree⟩
  rcases hr with ⟨hnil, rfl, hmb, -⟩ | ⟨v, rfl, hmb, -⟩
  · refine ⟨hphy, hmb, hpos, hsame, fun hc => ?_⟩
    rcases h.pending hc with hp | hm | hl
    · exact Or.inl hp
    · exact absurd hnil hm
    · rcases hrx with hrx | hrx <;> rw [hrx] at hl <;> exact hl.elim
  · exact ⟨hphy, hmb, hpos, hsame, fun _ => Or.inr (Or.inr trivial)⟩

theorem LinkNetInv.erxStep {w w' : LinkWorld} (h : LinkNetInv w) {frame : Bool}
    (hs : erxStep frame w = some w') :
    LinkNetInv w' := by
  have hmb := h.mb
  have hsame := h.same
  have hpend := h.pending
  rw [Net.erxStep] at hs
  rw [LinkWorld.told] at hsame
  cases hrx : w.rx with
  | recv =>
    rw [hrx] at hs hmb
    obtain rfl := Option.some.inj hs
    obtain ⟨hsize, hr⟩ := hmb.tryRecv
    exact h.received (Or.inl hrx) hsize hr
  | waiting =>
    rw [hrx] at hs hmb
    obtain ⟨r, hr, rfl⟩ := Option.map_eq_some_iff.mp hs
    rcases hmb.tryAgain with ⟨hnone, -⟩ | ⟨r', hr', hsize, hcase⟩
    · rw [hnone] at hr
      cases hr
    · obtain rfl : r = r' := Option.some.inj (hr.symm.trans hr')
      exact h.received (Or.inr hrx) hsize hcase
  | check =>
    rw [hrx] at hs hmb hsame
    obtain rfl := Option.some.inj hs
    cases hc : w.dev.linkChanged with
    | true =>
      rw [if_pos rfl]
      exact ⟨⟨h.phy.report, h.phy.posted, h.phy.agree⟩, hmb, h.pos, hsame,
        fun _ => Or.inr (Or.inr trivial)⟩
    | false =>
      rw [if_neg (by decide)]
      refine ⟨⟨h.phy.report, h.phy.posted, h.phy.agree⟩, hmb, h.pos, hsame, fun hc' => ?_⟩
      cases hc.symm.trans hc'
  | take =>
    rw [hrx] at hs hmb
    obtain rfl := Option.some.inj hs
    exact ⟨⟨h.phy.report, h.phy.posted, h.phy.agree⟩, hmb, h.pos, fun _ => rfl,
      fun hc => (by cases hc)⟩
  | apply status =>
    rw [hrx] at hs hmb hsame hpend
    obtain rfl := Option.some.inj hs
    exact ⟨⟨h.phy.report, h.phy.posted, h.phy.agree⟩, hmb, h.pos, hsame, hpend⟩
  | clear =>
    rw [hrx] at hs hmb hsame hpend
    obtain rfl := Option.some.inj hs
    exact ⟨⟨h.phy.report, h.phy.posted, h.phy.agree⟩, hmb, h.pos, hsame, hpend⟩
  | drain =>
    rw [hrx] at hs hmb hsame hpend
    obtain rfl := Option.some.inj hs
    cases frame <;> exact ⟨⟨h.phy.report, h.phy.posted, h.phy.agree⟩, hmb, h.pos, hsame, hpend⟩

theorem linkStep_inv (w : LinkWorld) (a : LinkAction) (w' : LinkWorld) (h : LinkNetInv w)
    (hs : linkStep w a = some w') :
    LinkNetInv w' := by
  cases a with
  | phy poll =>
    obtain rfl := Option.some.inj hs
    exact h.phyStep poll
  | ready =>
    obtain rfl := Option.some.inj hs
    exact h.readyStep
  | rx frame => exact h.erxStep hs

theorem linkInit_inv (g : GmacDev) (con : BitVec 16) (msgPool : Nat → Unit)
    (hdown : g.linkUp = false) :
    LinkNetInv (linkInit g con msgPool) where
  phy := ⟨fun hc => (by cases hc), fun hp => (by cases hp), fun _ => hdown.symm⟩
  mb := rtMbInit_oneReceiver msgPool (by decide) erx
  pos := (by decide : 0 < rtLwipEththreadMboxSize)
  same _ := rfl
  pending hc := by cases hc

/-- The PHY thread polls whatever it gets, interrupts and frames come as they like, mails are
refused when the mailbox is full: whenever the PHY thread is not inside a report and the receive
thread is suspended, the netif has the link state the driver last saw. -/
theorem link_settles (g : GmacDev) (con : BitVec 16) (msgPool : Nat → Unit)
    (hdown : g.linkUp = false)
    {as : List LinkAction} {w : LinkWorld} (hr : runs linkStep (linkInit g con msgPool) as = some w)
    (hphy : w.thread.pc ≠ .notify) (hrx : ∀ frame, erxStep frame w = none) :
    w.linkUp = w.phy.dev.linkUp := by
  have h := runs_invariant linkStep_inv (linkInit_inv g con msgPool hdown) hr
  have hmb := h.mb
  have hsame := h.same
  have hpend := h.pending
  have hnone := hrx false
  rw [erxStep] at hnone
  rw [LinkWorld.told] at hsame
  cases hpc : w.rx with
  | waiting =>
    rw [hpc] at hmb hsame hpend hnone
    obtain hnone' : w.mb.tryAgain erx = none := Option.map_eq_none_iff.mp hnone
    have hmails : w.mb.mb.mails = [] := by
      rcases hmb.tryAgain with ⟨-, hnil⟩ | ⟨r, hr', -⟩
      · exact hnil
      · cases hnone'.symm.trans hr'
    have hposting : w.posting = false :=
      Bool.eq_false_of_not_eq_true fun hp => hphy (h.phy.posted hp).1
    have hclean : w.dev.linkChanged = false := by
      refine Bool.eq_false_of_not_eq_true fun hc => ?_
      rcases hpend hc with hp | hm | hl
      · cases hposting.symm.trans hp
      · exact hm hmails
      · exact hl
    exact (hsame hclean).trans (h.phy.agree hphy)
  | recv | check | take | apply _ | clear | drain =>
    rw [hpc] at hnone
    cases hnone

/-- The link comes up while the receive thread waits. -/
theorem link_settles_up :
    ∃ w, runs linkStep (linkInit { gmac0 with initialized := true } 0 fun _ => ())
        (.rx false :: List.replicate 12 (.phy (some 0xa400)) ++ List.replicate 7 (.rx false)) =
          some w ∧
      w.phy.dev.linkUp = true ∧ w.linkUp = w.phy.dev.linkUp := by
  obtain ⟨w, hw, hup, hpc, hrx⟩ : ∃ w,
    runs linkStep (linkInit { gmac0 with initialized := true } 0 fun _ => ())
      (.rx false :: List.replicate 12 (.phy (some 0xa400)) ++ List.replicate 7 (.rx false)) =
        some w ∧
      w.phy.dev.linkUp = true ∧ w.thread.pc ≠ .notify ∧ ∀ frame, erxStep frame w = none :=
    ⟨_, rfl, rfl, (by decide), fun _ => rfl⟩
  exact ⟨w, hw, hup, link_settles { gmac0 with initialized := true } 0 (fun _ => ()) rfl hw hpc hrx⟩

end Rk3576.Net
