import Mathlib.Data.List.Forall2
import Mathlib.Data.List.Induction
import Rk3576.Lib.Edges
import Rk3576.Lib.Hiword
import Rk3576.Gmac.Start

/-! The link state machine: `gmac_phy_thread` with `gmac_adjust_link`, one shared access per
step, and what a whole iteration of its loop amounts to. -/
namespace Rk3576.Gmac
open Rk3576.Edges

structure PhyLink where
  up : Bool
  speed : BitVec 32
  fullDuplex : Bool
  deriving DecidableEq, Repr

/-- `none` is a failed MDIO read, the 16 bits are those of status register 0x11. -/
def yt8521sGetLink : Option (BitVec 16) → Option PhyLink
  | none => none
  | some v =>
    let value := v.setWidth 32
    let speedMode := (value &&& (3#32 <<< 14)) >>> 14
    some
      { up := value &&& gmacBit 10 != 0
        fullDuplex := value &&& gmacBit 13 != 0
        speed := if speedMode = 2 then 1000 else if speedMode = 1 then 100 else 10 }

def gmacHiwordUpdate (mask value : BitVec 32) : BitVec 32 := Hiword.word mask value

def rk3576GmacClockSetSpeed (con : BitVec 16) (speed : BitVec 32) : BitVec 16 :=
  let value :=
    if speed = 1000 then 0 else if speed = 100 then gmacBit 6 ||| gmacBit 5 else gmacBit 6
  Hiword.merge con (gmacHiwordUpdate (gmacBit 6 ||| gmacBit 5) value)

/-- A call of `eth_device_linkchange`, with the registers as they are at that moment. -/
structure LinkNotice where
  up : Bool
  speed : BitVec 32
  fullDuplex : Bool
  config : BitVec 32
  con : BitVec 16
  deriving DecidableEq

/-- `con` is SDGMAC_GRF_GMAC0_CON; `notices` is the history of calls. -/
structure LinkState where
  dev : GmacDev
  con : BitVec 16
  notices : List LinkNotice

/-- The points of the loop body between two accesses to the device or to a register. -/
inductive PhyPc where
  | check | poll | test
  | clock | load | store | speed | duplex
  | flag | linkUp | notify
  deriving DecidableEq, Repr

structure PhyThread where
  link : PhyLink := ⟨false, 0, false⟩
  value : BitVec 32 := 0
  pc : PhyPc := .check

def configLinkMask : BitVec 32 := gmacConfigPs ||| gmacConfigFes ||| gmacConfigDm
def conSpeedMask : BitVec 32 := gmacBit 6 ||| gmacBit 5

def adjustedConfig (value speed : BitVec 32) (fullDuplex : Bool) : BitVec 32 :=
  let value := value &&& ~~~configLinkMask
  let value :=
    if speed ≠ 1000 then
      let value := value ||| gmacConfigPs
      if speed = 100 then value ||| gmacConfigFes else value
    else value
  if fullDuplex then value ||| gmacConfigDm else value

def LinkState.notice (s : LinkState) (up : Bool) : LinkNotice :=
  ⟨up, s.dev.speed, s.dev.fullDuplex, s.dev.reg gmacConfig, s.con⟩

/-- The next step of the loop. `poll` is what the MDIO read gives; `check` is the head of the
loop, where an iteration begins and ends. -/
def gmacPhyThread (poll : Option (BitVec 16)) (s : LinkState) (t : PhyThread) :
    LinkState × PhyThread :=
  match t.pc with
  | .check => (s, { t with pc := if s.dev.initialized then .poll else .check })
  | .poll =>
    match yt8521sGetLink poll with
    | none => (s, { t with pc := .check })
    | some l => (s, { t with link := l, pc := .test })
  | .test =>
    if t.link.up &&
        (!s.dev.linkUp || t.link.speed != s.dev.speed || t.link.fullDuplex != s.dev.fullDuplex) then
      (s, { t with pc := .clock })
    else (s, { t with pc := .flag })
  | .clock => ({ s with con := rk3576GmacClockSetSpeed s.con t.link.speed }, { t with pc := .load })
  | .load => (s, { t with value := gmacRead s.dev gmacConfig, pc := .store })
  | .store =>
    ({ s with
      dev := gmacWrite s.dev gmacConfig (adjustedConfig t.value t.link.speed t.link.fullDuplex) },
      { t with pc := .speed })
  | .speed => ({ s with dev := { s.dev with speed := t.link.speed } }, { t with pc := .duplex })
  | .duplex =>
    ({ s with dev := { s.dev with fullDuplex := t.link.fullDuplex } }, { t with pc := .flag })
  | .flag => (s, { t with pc := if t.link.up != s.dev.linkUp then .linkUp else .check })
  | .linkUp => ({ s with dev := { s.dev with linkUp := t.link.up } }, { t with pc := .notify })
  | .notify => ({ s with notices := s.notices ++ [s.notice t.link.up] }, { t with pc := .check })

def phySteps (poll : Option (BitVec 16)) : Nat → LinkState × PhyThread → LinkState × PhyThread
  | 0, x => x
  | n + 1, x =>
    let y := gmacPhyThread poll x.1 x.2
    if y.2.pc = .check then y else phySteps poll n y

/-- One undisturbed iteration; it takes at most eleven steps. -/
def phyIteration (poll : Option (BitVec 16)) (s : LinkState) : LinkState :=
  (phySteps poll 11 (s, {})).1

def gmacAdjustLink (s : LinkState) (l : PhyLink) : LinkState :=
  { s with
    con := rk3576GmacClockSetSpeed s.con l.speed
    dev :=
      { gmacWrite s.dev gmacConfig
        (adjustedConfig (gmacRead s.dev gmacConfig) l.speed l.fullDuplex) with
        speed := l.speed
        fullDuplex := l.fullDuplex } }

/-- The MAC is reprogrammed when the link is up and anything about it is new. -/
def LinkState.adjust (s : LinkState) (l : PhyLink) : LinkState :=
  if l.up && (!s.dev.linkUp || l.speed != s.dev.speed || l.fullDuplex != s.dev.fullDuplex) then
    gmacAdjustLink s l
  else s

def LinkState.report (s : LinkState) (l : PhyLink) : LinkState :=
  if l.up != s.dev.linkUp then
    { s with dev := { s.dev with linkUp := l.up }, notices := s.notices ++ [s.notice l.up] }
  else s

/-- What an iteration does, as a whole: nothing before initialisation and after a failed read. -/
theorem phyIteration_eq (poll : Option (BitVec 16)) (s : LinkState) :
    phyIteration poll s =
      if s.dev.initialized then
        match yt8521sGetLink poll with
        | none => s
        | some l => (s.adjust l).report l
      else s := by
  cases hi : s.dev.initialized with
  | false => simp [phyIteration, phySteps, gmacPhyThread, hi]
  | true =>
    cases hl : yt8521sGetLink poll with
    | none => simp [phyIteration, phySteps, gmacPhyThread, hi, hl]
    | some l =>
      simp only [if_true]
      by_cases hadj : (l.up &&
        (!s.dev.linkUp || l.speed != s.dev.speed || l.fullDuplex != s.dev.fullDuplex)) = true
      · by_cases hup : (l.up != s.dev.linkUp) = true
        · simp [phyIteration, phySteps, gmacPhyThread, LinkState.adjust, LinkState.report,
            gmacAdjustLink, gmacWrite, LinkState.notice, hi, hl, hadj, hup]
        · simp [phyIteration, phySteps, gmacPhyThread, LinkState.adjust, LinkState.report,
            gmacAdjustLink, gmacWrite, hi, hl, hadj, hup]
      · by_cases hup : (l.up != s.dev.linkUp) = true
        · simp [phyIteration, phySteps, gmacPhyThread, LinkState.adjust, LinkState.report,
            LinkState.notice, hi, hl, hadj, hup]
        · simp [phyIteration, phySteps, gmacPhyThread, LinkState.adjust, LinkState.report, hi,
            hl, hadj, hup]

/-- PS, FES and DM: 1000 Mbit has neither PS nor FES, 100 Mbit both, 10 Mbit only PS. -/
def configFor (speed : BitVec 32) (fullDuplex : Bool) : BitVec 32 :=
  (if speed = 1000 then 0 else if speed = 100 then gmacConfigPs ||| gmacConfigFes
    else gmacConfigPs) |||
    (if fullDuplex then gmacConfigDm else 0)

/-- Bits 6:5 of the GRF register: 00 for 1000 Mbit, 11 for 100, 10 for 10. -/
def conFor (speed : BitVec 32) : BitVec 32 :=
  if speed = 1000 then 0 else if speed = 100 then gmacBit 6 ||| gmacBit 5 else gmacBit 6

structure Encodes (config : BitVec 32) (con : BitVec 16) (speed : BitVec 32) (fullDuplex : Bool) :
    Prop where
  config : config &&& configLinkMask = configFor speed fullDuplex
  con : con.setWidth 32 &&& conSpeedMask = conFor speed

theorem adjustedConfig_eq (value speed : BitVec 32) (fullDuplex : Bool) :
    adjustedConfig value speed fullDuplex = (value &&& ~~~configLinkMask) |||
      configFor speed fullDuplex := by
  simp only [adjustedConfig, configFor]
  by_cases h1000 : speed = 1000#32
  · cases fullDuplex <;> simp [h1000]
  · by_cases h100 : speed = 100#32
    · cases fullDuplex <;> simp [h100, BitVec.or_assoc]
    · cases fullDuplex <;> simp [h1000, h100, BitVec.or_assoc]

theorem configFor_mask (speed : BitVec 32) (fullDuplex : Bool) :
    configFor speed fullDuplex &&& configLinkMask = configFor speed fullDuplex := by
  unfold configFor
  split
  · cases fullDuplex <;> decide
  · split <;> cases fullDuplex <;> decide

theorem conFor_mask (speed : BitVec 32) : conFor speed &&& conSpeedMask = conFor speed := by
  unfold conFor
  split
  · decide
  · split <;> decide

theorem rk3576GmacClockSetSpeed_field (con : BitVec 16) (speed : BitVec 32) :
    (rk3576GmacClockSetSpeed con speed).setWidth 32 &&& conSpeedMask = conFor speed :=
  (Hiword.merge_and con (by decide) _).trans (conFor_mask speed)

theorem rk3576GmacClockSetSpeed_rest (con : BitVec 16) (speed : BitVec 32) :
    rk3576GmacClockSetSpeed con speed &&& ~~~(conSpeedMask.setWidth 16) =
      con &&& ~~~(conSpeedMask.setWidth 16) :=
  Hiword.merge_rest con conSpeedMask _

structure SameRest (s s' : LinkState) : Prop where
  initialized : s'.dev.initialized = s.dev.initialized
  config : s'.dev.reg gmacConfig &&& ~~~configLinkMask = s.dev.reg gmacConfig &&& ~~~configLinkMask
  con : s'.con &&& ~~~(conSpeedMask.setWidth 16) = s.con &&& ~~~(conSpeedMask.setWidth 16)
  reg : ∀ off, off ≠ gmacConfig → s'.dev.reg off = s.dev.reg off

theorem SameRest.refl (s : LinkState) : SameRest s s := ⟨rfl, rfl, rfl, fun _ _ => rfl⟩

theorem SameRest.trans {s t u : LinkState} (h : SameRest s t) (h' : SameRest t u) :
    SameRest s u where
  initialized := h'.initialized.trans h.initialized
  config := h'.config.trans h.config
  con := h'.con.trans h.con
  reg off ho := (h'.reg off ho).trans (h.reg off ho)

def LinkState.encoded (s : LinkState) : Prop :=
  Encodes (s.dev.reg gmacConfig) s.con s.dev.speed s.dev.fullDuplex

theorem gmacAdjustLink_config (s : LinkState) (l : PhyLink) :
    (gmacAdjustLink s l).dev.reg gmacConfig =
      (s.dev.reg gmacConfig &&& ~~~configLinkMask) ||| configFor l.speed l.fullDuplex := by
  rw [← adjustedConfig_eq]
  simp [gmacAdjustLink, gmacWrite, gmacRead, gmacConfig, dmaCh0Status]

theorem gmacAdjustLink_encoded (s : LinkState) (l : PhyLink) : (gmacAdjustLink s l).encoded where
  config := by
    rw [gmacAdjustLink_config]
    exact field_read (configFor_mask _ _)
  con := rk3576GmacClockSetSpeed_field s.con l.speed

theorem gmacAdjustLink_rest (s : LinkState) (l : PhyLink) : SameRest s (gmacAdjustLink s l) where
  initialized := rfl
  config := by
    rw [gmacAdjustLink_config]
    exact field_rest (configFor_mask _ _)
  con := rk3576GmacClockSetSpeed_rest s.con l.speed
  reg off ho := by simp [gmacAdjustLink, gmacWrite, Function.update_of_ne ho]

theorem LinkState.adjust_up {s : LinkState} {l : PhyLink} (h : s.dev.linkUp = true → s.encoded)
    (hup : l.up = true) :
    (s.adjust l).dev.speed = l.speed ∧ (s.adjust l).dev.fullDuplex = l.fullDuplex ∧
    (s.adjust l).encoded := by
  unfold LinkState.adjust
  split
  · exact ⟨rfl, rfl, gmacAdjustLink_encoded s l⟩
  · rename_i hold
    simp only [hup, Bool.true_and, Bool.or_eq_true, Bool.not_eq_true', bne_iff_ne, ne_eq,
      not_or, not_not] at hold
    obtain ⟨⟨hlink, hspeed⟩, hduplex⟩ := hold
    exact ⟨hspeed.symm, hduplex.symm, h (by simpa using hlink)⟩

theorem LinkState.adjust_frame (s : LinkState) (l : PhyLink) :
    SameRest s (s.adjust l) ∧ (s.adjust l).dev.linkUp = s.dev.linkUp ∧
    (s.adjust l).notices = s.notices := by
  unfold LinkState.adjust
  split
  · exact ⟨gmacAdjustLink_rest s l, rfl, rfl⟩
  · exact ⟨.refl s, rfl, rfl⟩

/-- The call that reports poll `l`. When it says up, the MAC has been programmed for `l`. -/
structure Notified (n : LinkNotice) (l : PhyLink) : Prop where
  up : n.up = l.up
  programmed : l.up = true →
    n.speed = l.speed ∧ n.fullDuplex = l.fullDuplex ∧ Encodes n.config n.con l.speed l.fullDuplex

structure LinkInv (s₀ s : LinkState) (oks : List PhyLink) : Prop where
  rest : SameRest s₀ s
  linkUp : s.dev.linkUp = last false (oks.map (·.up))
  agree : s.dev.linkUp = true →
    ∃ l, oks.getLast? = some l ∧ s.dev.speed = l.speed ∧ s.dev.fullDuplex = l.fullDuplex ∧ s.encoded
  notices : List.Forall₂ Notified s.notices (edges PhyLink.up false oks)

theorem LinkInv.encoded {s₀ s : LinkState} {oks : List PhyLink} (h : LinkInv s₀ s oks)
    (hup : s.dev.linkUp = true) : s.encoded := by
  obtain ⟨l, -, -, -, he⟩ := h.agree hup
  exact he

theorem LinkInv.poll {s₀ s : LinkState} {oks : List PhyLink} (h : LinkInv s₀ s oks) (l : PhyLink) :
    LinkInv s₀ ((s.adjust l).report l) (oks ++ [l]) := by
  obtain ⟨hrest, hlink, hnotes⟩ := s.adjust_frame l
  have hup := LinkState.adjust_up (s := s) (l := l) fun hu => h.encoded hu
  by_cases hchange : (l.up != (s.adjust l).dev.linkUp) = true
  · -- the decoded bit differs from the last one: one notification
    have hne : l.up ≠ last false (oks.map (·.up)) := by
      rw [← h.linkUp, ← hlink]
      simpa using hchange
    have hs : (s.adjust l).report l =
        { s.adjust l with
          dev := { (s.adjust l).dev with linkUp := l.up }
          notices := (s.adjust l).notices ++ [(s.adjust l).notice l.up] } := by
      simp only [LinkState.report, hchange, if_true]
    rw [hs]
    refine ⟨h.rest.trans ⟨hrest.initialized, hrest.config, hrest.con, hrest.reg⟩,
      ?_, fun hu => ?_, ?_⟩
    · simp
    · obtain ⟨hspeed, hduplex, henc⟩ := hup hu
      exact ⟨l, by simp, hspeed, hduplex, henc⟩
    · rw [hnotes, edges_snoc, if_neg hne]
      refine List.rel_append h.notices (.cons ⟨rfl, fun hu => ?_⟩ .nil)
      obtain ⟨hspeed, hduplex, henc⟩ := hup hu
      exact ⟨hspeed, hduplex, hspeed ▸ hduplex ▸ henc⟩
  · have heq : l.up = last false (oks.map (·.up)) := by
      rw [← h.linkUp, ← hlink]
      simpa using hchange
    have hs : (s.adjust l).report l = s.adjust l := by simp only [LinkState.report, hchange]; rfl
    rw [hs]
    refine ⟨h.rest.trans hrest, ?_, fun hu => ?_, ?_⟩
    · rw [hlink, h.linkUp]
      simpa using heq.symm
    · have hlup : l.up = true := by rw [heq, ← h.linkUp, ← hlink, hu]
      obtain ⟨hspeed, hduplex, henc⟩ := hup hlup
      exact ⟨l, by simp, hspeed, hduplex, henc⟩
    · rw [hnotes, edges_snoc, if_pos heq, List.append_nil]
      exact h.notices

def pollHistory (s : LinkState) (polls : List (Option (BitVec 16))) : LinkState :=
  polls.foldl (fun s p => phyIteration p s) s

theorem linkInv_polls {s₀ : LinkState} (hinit : s₀.dev.initialized = true)
    (hdown : s₀.dev.linkUp = false) (hnone : s₀.notices = []) (polls : List (Option (BitVec 16))) :
    LinkInv s₀ (pollHistory s₀ polls) (polls.filterMap yt8521sGetLink) := by
  induction polls using List.reverseRecOn with
  | nil =>
    refine ⟨.refl s₀, hdown, fun hu => ?_, ?_⟩
    · simp [pollHistory, hdown] at hu
    · simp [pollHistory, hnone, edges]
  | append_singleton polls p ih =>
    have hi : (pollHistory s₀ polls).dev.initialized = true := ih.rest.initialized.trans hinit
    have hstep : pollHistory s₀ (polls ++ [p]) = phyIteration p (pollHistory s₀ polls) := by
      simp [pollHistory]
    rw [hstep, phyIteration_eq, hi, List.filterMap_append]
    cases hl : yt8521sGetLink p with
    | none => simpa [hl] using ih
    | some l => simpa [hl] using ih.poll l

theorem notices_up {ns : List LinkNotice} {ls : List PhyLink} (h : List.Forall₂ Notified ns ls) :
    ns.map (·.up) = ls.map (·.up) := by
  induction h with
  | nil => rfl
  | cons hn _ ih => rw [List.map_cons, List.map_cons, hn.up, ih]

/-- The link state machine, after any history of polls since initialisation: software fields
and both registers agree with the last successful poll while the link is up; the rest of the
registers is untouched; each change of the link bit is notified once, with the MAC programmed
for the new link before an up; a failed poll changes nothing. -/
theorem link_agrees (g : GmacDev) (con : BitVec 16) (hinit : g.initialized = true)
    (hdown : g.linkUp = false)
    (polls : List (Option (BitVec 16))) (s : LinkState) (hs : s = pollHistory ⟨g, con, []⟩ polls) :
    (s.dev.linkUp = true → ∃ l, (polls.filterMap yt8521sGetLink).getLast? = some l ∧
      s.dev.speed = l.speed ∧ s.dev.fullDuplex = l.fullDuplex ∧
      Encodes (s.dev.reg gmacConfig) s.con l.speed l.fullDuplex) ∧
      SameRest ⟨g, con, []⟩ s ∧
      List.Forall₂ Notified s.notices (edges PhyLink.up false (polls.filterMap yt8521sGetLink)) ∧
      (false :: s.notices.map (·.up)).IsChain (· ≠ ·) ∧
      phyIteration none s = s := by
  have h : LinkInv ⟨g, con, []⟩ s (polls.filterMap yt8521sGetLink) :=
    hs ▸ linkInv_polls hinit hdown rfl polls
  refine ⟨fun hu => ?_, h.rest, h.notices, ?_, ?_⟩
  · obtain ⟨l, hlast, hspeed, hduplex, henc⟩ := h.agree hu
    exact ⟨l, hlast, hspeed, hduplex, hspeed ▸ hduplex ▸ henc⟩
  · rw [notices_up h.notices]
    exact edges_alternate PhyLink.up false _
  · rw [phyIteration_eq]
    simp [yt8521sGetLink]

/-- Up at 1000 full, a failed read, 100 half, down, up at 10 half. -/
def flapping : List (Option (BitVec 16)) := [some 0xa400, none, some 0x4400, some 0, some 0x0400]

theorem link_agrees_flapping :
    let s := pollHistory ⟨{ gmac0 with initialized := true }, 0, []⟩ flapping
    s.dev.linkUp = true ∧ s.dev.speed = 10 ∧ s.notices.map (·.up) = [true, false, true] ∧
      ∃ l, (flapping.filterMap yt8521sGetLink).getLast? = some l ∧ s.dev.speed = l.speed ∧
        s.dev.fullDuplex = l.fullDuplex ∧
        Encodes (s.dev.reg gmacConfig) s.con l.speed l.fullDuplex :=
  ⟨by decide +kernel, by decide +kernel, by decide +kernel,
    (link_agrees { gmac0 with initialized := true } 0 rfl rfl flapping _ rfl).1 (by decide +kernel)⟩

end Rk3576.Gmac
