import Rk3576.Gmac.Link
import Rk3576.Gmac.Transmit

/-! `gmac_device_init` step by step, beside the PHY thread that is already running: what the
thread may see between `initialized = RT_TRUE` and the end of `rk3576_gmac_dma_start`. -/
namespace Rk3576.Gmac
open Rk3576.Run

/-- Where rt_device_open stands with `gmac_device_init`: not in it, inside `gmac_hw_init`,
before the install, before the unmask, at statement `k` of `rk3576_gmac_dma_start`, through. -/
inductive InitPc where
  | idle | hw | install | umask
  | start (k : Nat)
  | done
  deriving DecidableEq, Repr

/-- `frame` holds the locals of `rk3576_gmac_dma_start`; its device is the shared one. -/
structure BringupState where
  link : LinkState
  phy : PhyThread
  init : InitPc
  frame : StartFrame

/-- After rk3576_gmac0_register: the PHY thread runs, nothing is initialised. -/
def bringupInit (g : GmacDev) (con : BitVec 16) : BringupState where
  link := ⟨{ g with initialized := false, linkUp := false, txDesc := none, txBuffer := none },
    con, []⟩
  phy := {}
  init := .idle
  frame := { dev := g }

inductive BringupAct where
  /-- rt_device_open on a device that is not activated; also a retry after a failure -/
  | open
  /-- `gmac_hw_init` comes back; the resets in it leave the registers at `reg` -/
  | hw (ok : Bool) (reg : Nat → BitVec 32)
  | init
  | phy (poll : Option (BitVec 16))

def bringupStep (pool : Nat) (s : BringupState) : BringupAct → Option BringupState
  | .open =>
    match s.init with
    | .idle => some { s with init := if s.link.dev.initialized then .install else .hw }
    | .done => some s
    | _ => none
  | .hw ok reg =>
    match s.init with
    | .hw => some
      { s with
        link := { s.link with dev := { s.link.dev with reg := reg, initialized := ok } }
        init := if ok then .install else .idle }
    | _ => none
  | .init =>
    match s.init with
    | .install => some { s with init := .umask }
    | .umask => some { s with init := .start 0 }
    | .start k =>
      match (rk3576GmacDmaStartOps pool)[k]? with
      | some op =>
        let f := op { s.frame with dev := s.link.dev }
        some { s with link := { s.link with dev := f.dev }, frame := f, init := .start (k + 1) }
      | none => some { s with init := .done }
    | _ => none
  | .phy poll =>
    let x := gmacPhyThread poll s.link s.phy
    some { s with link := x.1, phy := x.2 }

/-- `initialized` has been published and the rings are not set up yet. -/
def InitPc.ringless : InitPc → Bool
  | .install | .umask => true
  | .start k => decide (k ≤ ringsStatement)
  | _ => false

/-- The speed and duplex with which the iteration in progress leaves the link up, if it stores
GMAC_CONFIG no more and the PHY does not answer again. -/
def PhyThread.leaves (s : LinkState) (t : PhyThread) : Option (BitVec 32 × Bool) :=
  match t.pc with
  | .check | .poll | .notify => if s.dev.linkUp then some (s.dev.speed, s.dev.fullDuplex) else none
  | .test =>
    if s.dev.linkUp && t.link.up && t.link.speed == s.dev.speed &&
      t.link.fullDuplex == s.dev.fullDuplex
    then some (s.dev.speed, s.dev.fullDuplex) else none
  | .clock | .load | .store => none
  | .speed => if t.link.up then some (t.link.speed, t.link.fullDuplex) else none
  | .duplex => if t.link.up then some (s.dev.speed, t.link.fullDuplex) else none
  | .flag | .linkUp => if t.link.up then some (s.dev.speed, s.dev.fullDuplex) else none

def startMode : BitVec 32 × Bool := (1000, true)

/-- The link thread sets link_up before the rings are there, or the store of
`rk3576_gmac_dma_start` to GMAC_CONFIG comes after the one of the link thread and is for
another mode. -/
def collides (s : BringupState) : BringupAct → Bool
  | .phy _ => s.phy.pc == .linkUp && s.phy.link.up && s.init.ringless
  | .init => s.init == .start configStatement && (s.phy.leaves s.link).any (· != startMode)
  | _ => false

/-- No transmit gets past its link check without descriptors and buffers, and after
initialisation the MAC configuration encodes speed and duplex whenever the link is up (looked
at between two iterations of the PHY thread). -/
structure BringupOk (s : BringupState) : Prop where
  rings : ∀ p, txAccepts s.link.dev.linkUp p → s.link.dev.txDesc.isSome = true ∧
    s.link.dev.txBuffer.isSome = true
  config : s.init = .done → s.phy.pc = .check → s.link.dev.linkUp = true →
    s.link.dev.reg gmacConfig &&& configLinkMask = configFor s.link.dev.speed s.link.dev.fullDuplex

def modeOf (g : GmacDev) : BitVec 32 := g.reg gmacConfig &&& configLinkMask

def PhyAgrees (s : LinkState) (t : PhyThread) : Prop :=
  ∀ m, t.leaves s = some m → modeOf s.dev = configFor m.1 m.2

def pointersSet (g : GmacDev) : Prop := g.txDesc.isSome = true ∧ g.txBuffer.isSome = true

def ConfigValue (k : Nat) (v : BitVec 32) : Prop :=
  (k + 1 = configStatement → v &&& (gmacConfigPs ||| gmacConfigFes) = 0) ∧
    (k = configStatement → v &&& configLinkMask = configFor startMode.1 startMode.2)

structure StartInv (k : Nat) (s : BringupState) : Prop where
  before : k ≤ ringsStatement → s.link.dev.linkUp = false ∧ s.link.dev.txDesc = none
  rings : ringsStatement < k → pointersSet s.link.dev
  value : ConfigValue k s.frame.value
  config : configStatement < k → PhyAgrees s.link s.phy

def BringupInv (s : BringupState) : Prop :=
  match s.init with
  | .idle | .hw => s.link.dev.initialized = false ∧ s.link.dev.linkUp = false ∧
      s.link.dev.txDesc = none ∧ s.phy.pc = .check
  | .install | .umask => s.link.dev.linkUp = false ∧ s.link.dev.txDesc = none
  | .start k => StartInv k s
  | .done => pointersSet s.link.dev ∧ PhyAgrees s.link s.phy

theorem configFor_start {speed : BitVec 32} {fullDuplex : Bool} :
    configFor speed fullDuplex = configFor startMode.1 startMode.2 ↔
    (speed, fullDuplex) = startMode := by
  rw [startMode, Prod.mk.injEq]
  unfold configFor
  by_cases h1000 : speed = 1000#32
  · subst h1000
    cases fullDuplex <;> decide
  · by_cases h100 : speed = 100#32
    · cases fullDuplex <;> simp [h100] <;> decide
    · cases fullDuplex <;> simp [h1000, h100] <;> decide

/-- The iteration ends as it would have, or stores GMAC_CONFIG for what it ends with. -/
theorem PhyAgrees.step {s : LinkState} {t : PhyThread} (poll : Option (BitVec 16))
    (h : PhyAgrees s t) : PhyAgrees (gmacPhyThread poll s t).1 (gmacPhyThread poll s t).2 := by
  intro m hm
  cases hp : t.pc <;> simp only [gmacPhyThread, hp] at hm ⊢ <;>
    simp only [PhyAgrees, PhyThread.leaves, hp] at h
  case check =>
    cases hi : s.dev.initialized with
    | true =>
      rw [hi] at hm
      exact h m hm
    | false =>
      rw [hi] at hm
      exact h m hm
  case poll =>
    cases hl : yt8521sGetLink poll with
    | none =>
      rw [hl] at hm
      exact h m hm
    | some l =>
      rw [hl] at hm
      apply h m
      simp only [PhyThread.leaves] at hm
      split at hm
      · rename_i hup
        simp only [Bool.and_eq_true] at hup
        rw [if_pos hup.1.1.1]
        exact hm
      · cases hm
  case test =>
    split at hm
    · cases hm
    · rename_i hadj
      rw [if_neg hadj]
      apply h m
      simp only [PhyThread.leaves] at hm
      split at hm
      · rename_i hup
        simp only [hup, Bool.true_and, Bool.or_eq_true, Bool.not_eq_true', bne_iff_ne, not_or,
          Bool.not_eq_false, not_not] at hadj
        rw [if_pos (by simp [hup, hadj])]
        exact hm
      · cases hm
  case clock => cases hm
  case load => cases hm
  case store =>
    simp only [PhyThread.leaves] at hm
    split at hm
    · obtain rfl := Option.some.inj hm
      simp only [modeOf, gmacWrite, Function.update_self]
      rw [if_neg (by decide), adjustedConfig_eq]
      exact field_read (configFor_mask _ _)
    · cases hm
  case speed => exact h m hm
  case duplex => exact h m hm
  case flag =>
    by_cases hne : (t.link.up != s.dev.linkUp) = true
    · simp only [hne, if_true, PhyThread.leaves] at hm
      exact h m hm
    · have heq : t.link.up = s.dev.linkUp := by simpa using hne
      simp only [hne, PhyThread.leaves] at hm
      rw [heq] at h
      exact h m hm
  case linkUp => exact h m hm
  case notify => exact h m hm

theorem phyThread_frame (poll : Option (BitVec 16)) (s : LinkState) (t : PhyThread) :
    (gmacPhyThread poll s t).1.dev.txDesc = s.dev.txDesc ∧
      (gmacPhyThread poll s t).1.dev.txBuffer = s.dev.txBuffer ∧
      (t.pc ≠ .linkUp → (gmacPhyThread poll s t).1.dev.linkUp = s.dev.linkUp) ∧
      (t.pc = .linkUp → (gmacPhyThread poll s t).1.dev.linkUp = t.link.up) := by
  cases hp : t.pc <;> unfold gmacPhyThread <;> rw [hp] <;> dsimp only [gmacWrite] <;>
    (try split) <;> exact ⟨rfl, rfl, by simp, by simp⟩

theorem linkUp_stays_down {s : LinkState} {t : PhyThread} (poll : Option (BitVec 16))
    (hdown : s.dev.linkUp = false) (hno : t.pc = .linkUp → t.link.up = false) :
    (gmacPhyThread poll s t).1.dev.linkUp = false := by
  obtain ⟨-, -, hother, hset⟩ := phyThread_frame poll s t
  by_cases hp : t.pc = .linkUp
  · rw [hset hp, hno hp]
  · rw [hother hp, hdown]

theorem bringupInv_phy {s : BringupState} {poll : Option (BitVec 16)} (h : BringupInv s)
    (hno : collides s (.phy poll) = false) :
    BringupInv { s with
      link := (gmacPhyThread poll s.link s.phy).1,
      phy := (gmacPhyThread poll s.link s.phy).2 } := by
  obtain ⟨hdesc, hbuf, -, -⟩ := phyThread_frame poll s.link s.phy
  have hquiet : s.init.ringless = true → s.phy.pc = .linkUp → s.phy.link.up = false := by
    intro hr hp
    simpa [collides, hr, hp] using hno
  have hptr : pointersSet s.link.dev → pointersSet (gmacPhyThread poll s.link s.phy).1.dev := by
    intro hset
    simpa only [pointersSet, hdesc, hbuf] using hset
  cases hi : s.init with
  | idle | hw =>
    simp only [BringupInv, hi] at h ⊢
    obtain ⟨hinit, hdown, hnone, hp⟩ := h
    simp [gmacPhyThread, hp, hinit, hdown, hnone]
  | install | umask =>
    simp only [BringupInv, hi] at h ⊢
    exact ⟨linkUp_stays_down poll h.1 (hquiet (by rw [hi]; rfl)), hdesc.trans h.2⟩
  | start k =>
    simp only [BringupInv, hi] at h ⊢
    refine ⟨fun hk => ?_, fun hk => hptr (h.rings hk), h.value, fun hk => (h.config hk).step poll⟩
    have hr : s.init.ringless = true := by
      rw [hi]
      exact decide_eq_true hk
    exact ⟨linkUp_stays_down poll (h.before hk).1 (hquiet hr), hdesc.trans (h.before hk).2⟩
  | done =>
    simp only [BringupInv, hi] at h ⊢
    exact ⟨hptr h.1, h.2.step poll⟩

theorem configValue_step (pool : Nat) {k : Nat} {op : StartFrame → StartFrame} {f : StartFrame}
    (hop : (rk3576GmacDmaStartOps pool)[k]? = some op) (h : ConfigValue k f.value) :
    ConfigValue (k + 1) (op f).value := by
  constructor
  · intro hk
    obtain rfl : k = 35 := by simpa [configStatement] using hk
    obtain rfl := Option.some.inj hop
    change f.value &&& ~~~(gmacConfigPs ||| gmacConfigFes) &&& (gmacConfigPs ||| gmacConfigFes) = 0
    rw [BitVec.and_assoc]
    simp
  · intro hk
    obtain rfl : k = 36 := by simpa [configStatement] using hk
    obtain rfl := Option.some.inj hop
    have hclear := h.1 rfl
    have hset :
      (gmacConfigCst ||| gmacConfigAcs ||| gmacConfigDm ||| gmacConfigTe ||| gmacConfigRe) &&&
        configLinkMask = gmacConfigDm := by decide
    have hkept : f.value &&& configLinkMask = f.value &&& gmacConfigDm := by
      change f.value &&& (gmacConfigPs ||| gmacConfigFes ||| gmacConfigDm) = _
      rw [BitVec.and_or_distrib_left, hclear]
      exact BitVec.zero_or
    have habsorb : f.value &&& gmacConfigDm ||| gmacConfigDm = gmacConfigDm := by
      ext i
      simp
    change (f.value ||| (gmacConfigCst ||| gmacConfigAcs ||| gmacConfigDm ||| gmacConfigTe |||
      gmacConfigRe)) &&& configLinkMask = _
    rw [BitVec.and_or_distrib_right, hkept, hset, habsorb]
    decide

theorem modeOf_config {g : GmacDev} {v : BitVec 32} :
    modeOf (gmacWrite g gmacConfig v) = v &&& configLinkMask := by
  simp only [modeOf, gmacWrite, Function.update_self]
  rw [if_neg (by decide)]

theorem modeOf_write {g : GmacDev} {off : Nat} {v : BitVec 32} (h : gmacConfig ≠ off) :
    modeOf (gmacWrite g off v) = modeOf g := by
  simp only [modeOf, gmacWrite, Function.update_of_ne h]

theorem bringupInv_init {pool : Nat} {s s' : BringupState} (h : BringupInv s)
    (hno : collides s .init = false) (hs : bringupStep pool s .init = some s') : BringupInv s' := by
  simp only [bringupStep] at hs
  cases hi : s.init with
  | install => simp only [hi] at hs; cases hs; simpa only [BringupInv, hi] using h
  | umask =>
    simp only [hi] at hs
    cases hs
    simp only [BringupInv, hi] at h ⊢
    exact ⟨fun _ => h, fun hk => absurd hk (Nat.not_lt_zero _), ⟨by simp [configStatement],
      by simp [configStatement]⟩, fun hk => absurd hk (Nat.not_lt_zero _)⟩
  | start k =>
    simp only [hi] at hs
    simp only [BringupInv, hi] at h
    split at hs
    · rename_i op hop
      cases hs
      have hmem := List.mem_of_getElem? hop
      have hkeep := startOps_keep pool op hmem { s.frame with dev := s.link.dev }
      refine ⟨fun hk => ?_, fun hk => ?_, configValue_step pool hop h.value, fun hk => ?_⟩
      · obtain ⟨hdown, hnone⟩ := h.before (by omega)
        have hearly := startOps_before_rings pool op
          (List.mem_of_getElem? (i := k) (by rw [List.getElem?_take_of_lt (by omega), hop]))
        exact ⟨hkeep.linkUp.trans hdown, (hearly _).trans hnone⟩
      · by_cases he : k = ringsStatement
        · subst he
          obtain rfl := Option.some.inj ((startOps_init pool).symm.trans hop)
          exact (keeps_init pool { s.frame with dev := s.link.dev }).2
        · exact hkeep.pointers (h.rings (by omega))
      · by_cases he : k = configStatement
        · subst he
          obtain rfl := Option.some.inj ((startOps_config pool).symm.trans hop)
          intro m hm
          have hmode : m = startMode := by
            have hnone : (s.phy.leaves s.link).any (· != startMode) = false := by
              simpa [collides, hi] using hno
            have hsame : s.phy.leaves s.link = some m := hm
            rw [hsame] at hnone
            simpa using hnone
          rw [hmode]
          exact modeOf_config.trans (h.value.2 rfl)
        · have hlen := (List.getElem?_eq_some_iff.mp hop).1
          rw [startOps_length] at hlen
          obtain rfl : k = 38 := by
            simp only [configStatement] at hk he
            omega
          obtain rfl := Option.some.inj hop
          intro m hm
          exact (modeOf_write (by decide)).trans (h.config (by decide) m hm)
    · rename_i hend
      cases hs
      have hlen : 39 ≤ k := List.getElem?_eq_none_iff.mp hend
      exact ⟨h.rings (by simp only [ringsStatement]; omega),
        h.config (by simp only [configStatement]; omega)⟩
  | idle | hw | done =>
    simp only [hi] at hs
    cases hs

theorem bringupInv_step {pool : Nat} {s s' : BringupState} {a : BringupAct} (h : BringupInv s)
    (hno : collides s a = false) (hs : bringupStep pool s a = some s') : BringupInv s' := by
  cases a with
  | «open» =>
    simp only [bringupStep] at hs
    split at hs <;> cases hs <;> rename_i hi
    · simp only [BringupInv, hi] at h
      simp only [BringupInv, h.1]
      exact ⟨trivial, h.2⟩
    · exact h
  | hw ok reg =>
    simp only [bringupStep] at hs
    split at hs <;> cases hs
    rename_i hi
    simp only [BringupInv, hi] at h
    obtain ⟨-, hdown, hnone, hp⟩ := h
    cases ok with
    | true => exact ⟨hdown, hnone⟩
    | false => exact ⟨rfl, hdown, hnone, hp⟩
  | init => exact bringupInv_init h hno hs
  | phy poll => cases hs; exact bringupInv_phy h hno

def Clear (pool : Nat) : BringupState → List BringupAct → Prop :=
  Along (bringupStep pool) fun s a _ => collides s a = false

instance (pool : Nat) (s : BringupState) (as : List BringupAct) : Decidable (Clear pool s as) :=
  inferInstanceAs (Decidable (Along _ _ _ _))

theorem bringupInv_run {pool : Nat} {s t : BringupState} {as : List BringupAct} (h : BringupInv s)
    (hr : runs (bringupStep pool) s as = some t) (hno : Clear pool s as) : BringupInv t :=
  runs_invariant_along
    (fun s a _ (h : BringupInv s) (hn : collides s a = false) hs =>
      bringupInv_step h hn hs) h hno hr

theorem bringupInv_start (g : GmacDev) (con : BitVec 16) : BringupInv (bringupInit g con) :=
  ⟨rfl, rfl, rfl, rfl⟩

theorem BringupInv.ok {s : BringupState} (h : BringupInv s) : BringupOk s := by
  have hset : s.link.dev.linkUp = true → pointersSet s.link.dev := by
    intro hu
    cases hi : s.init with
    | start k =>
      simp only [BringupInv, hi] at h
      refine h.rings (Nat.lt_of_not_le fun hk => ?_)
      rw [(h.before hk).1] at hu
      cases hu
    | done =>
      simp only [BringupInv, hi] at h
      exact h.1
    | _ => simp [BringupInv, hi, hu] at h
  refine ⟨fun p hp => hset ?_, fun hi hp hu => ?_⟩
  · simp only [txAccepts, not_or] at hp
    simpa using hp.2.2
  · simp only [BringupInv, hi] at h
    exact h.2 (s.link.dev.speed, s.link.dev.fullDuplex)
      (by rw [PhyThread.leaves, hp]; exact if_pos hu)

/-- Steps to the head of the loop, if the PHY does not answer again. -/
def PhyPc.left : PhyPc → Nat
  | .check => 0
  | .poll | .notify => 1
  | .linkUp => 2
  | .flag => 3
  | .test | .duplex => 4
  | .speed => 5
  | _ => 6

theorem leaves_step {s : LinkState} {t : PhyThread} {m : BitVec 32 × Bool}
    (h : t.leaves s = some m) (hp : t.pc ≠ .check) :
    (gmacPhyThread none s t).2.leaves (gmacPhyThread none s t).1 = some m ∧
      (gmacPhyThread none s t).2.pc.left < t.pc.left ∧
      modeOf (gmacPhyThread none s t).1.dev = modeOf s.dev := by
  cases hpc : t.pc <;> simp only [PhyThread.leaves, hpc] at h <;>
    unfold gmacPhyThread <;> rw [hpc] <;> dsimp only
  case check => exact absurd hpc hp
  case poll => exact ⟨h, Nat.zero_lt_one, rfl⟩
  case test =>
    split at h
    · rename_i hsame
      simp only [Bool.and_eq_true, beq_iff_eq] at hsame
      have hold : (t.link.up && (!s.dev.linkUp || t.link.speed != s.dev.speed ||
          t.link.fullDuplex != s.dev.fullDuplex)) = false := by simp [hsame]
      rw [hold]
      exact ⟨by simpa [PhyThread.leaves, hsame] using h, (by decide : 3 < 4), rfl⟩
    · cases h
  case clock => cases h
  case load => cases h
  case store => cases h
  case speed => exact ⟨h, by decide, rfl⟩
  case duplex => exact ⟨h, by decide, rfl⟩
  case flag =>
    split at h
    · rename_i hup
      by_cases hne : (t.link.up != s.dev.linkUp) = true
      · rw [if_pos hne]
        exact ⟨by simpa [PhyThread.leaves, hup] using h, by decide, rfl⟩
      · rw [if_neg hne]
        have heq : s.dev.linkUp = true := by simpa [hup] using hne
        exact ⟨by simpa [PhyThread.leaves, heq] using h, by decide, rfl⟩
    · cases h
  case linkUp => exact ⟨h, by decide, rfl⟩
  case notify => exact ⟨h, by decide, rfl⟩

/-- Behind its store to GMAC_CONFIG the bring-up can wait for the iteration to end. -/
theorem iteration_ends {pool : Nat} {s : BringupState} {m : BitVec 32 × Bool}
    (hi : s.init = .start (configStatement + 1)) (h : s.phy.leaves s.link = some m) :
    ∃ bs t, runs (bringupStep pool) s bs = some t ∧ Clear pool s bs ∧ t.init = s.init ∧
      t.phy.pc = .check ∧ t.phy.leaves t.link = some m ∧ modeOf t.link.dev = modeOf s.link.dev := by
  generalize hn : s.phy.pc.left = n
  induction n using Nat.strong_induction_on generalizing s with
  | _ n ih =>
    by_cases hp : s.phy.pc = .check
    · exact ⟨[], s, rfl, trivial, rfl, hp, h, rfl⟩
    · obtain ⟨hleaves, hless, hmode⟩ := leaves_step h hp
      let u : BringupState :=
        { s with
          link := (gmacPhyThread none s.link s.phy).1, phy := (gmacPhyThread none s.link s.phy).2 }
      have hstep : bringupStep pool s (.phy none) = some u := rfl
      have hclear : collides s (.phy none) = false := by
        simp [collides, hi, InitPc.ringless, configStatement, ringsStatement]
      obtain ⟨bs, t, hrun, hbs, hinit, hcheck, hend, hkept⟩ := 
        ih u.phy.pc.left (hn ▸ hless) (s := u) hi hleaves rfl
      refine ⟨.phy none :: bs, t, runs_cons.mpr ⟨_, hstep, hrun⟩,
        (along_cons hstep).mpr ⟨hclear, hbs⟩,
        hinit, hcheck, hend, hkept.trans hmode⟩

theorem bringup_ends {pool : Nat} {s : BringupState} {m : BitVec 32 × Bool}
    (hi : s.init = .start (configStatement + 1)) (hp : s.phy.pc = .check)
    (h : s.phy.leaves s.link = some m) (hm : modeOf s.link.dev = configFor startMode.1 startMode.2)
    (hne : m ≠ startMode) :
    ∃ t, runs (bringupStep pool) s [.init, .init] = some t ∧ Clear pool s [.init, .init] ∧
      ¬ BringupOk t := by
  obtain ⟨link, phy, init, frame⟩ := s
  dsimp only at hi hp h hm
  subst hi
  refine ⟨_, rfl, ⟨rfl, rfl, trivial⟩, fun hok => hne ?_⟩
  simp only [PhyThread.leaves, hp] at h
  split at h
  · rename_i hup
    obtain rfl := Option.some.inj h
    have hconfig := hok.config rfl hp hup
    have hmode : modeOf link.dev = configFor link.dev.speed link.dev.fullDuplex := by
      have htail : gmacConfig ≠ dmaCh0RxdescTail := by decide
      rw [← modeOf_write htail]
      exact hconfig
    exact configFor_start.mp (hmode.symm.trans hm)
  · cases h

theorem collides_breaks {pool : Nat} {s s' : BringupState} {a : BringupAct} (h : BringupInv s)
    (hc : collides s a = true) (hs : bringupStep pool s a = some s') :
    ∃ bs t, runs (bringupStep pool) s' bs = some t ∧ Clear pool s' bs ∧ ¬ BringupOk t := by
  cases a with
  | phy poll =>
    -- link_up is set, and there is no ring for the first transmit
    obtain rfl := Option.some.inj hs
    simp only [collides, Bool.and_eq_true, beq_iff_eq] at hc
    obtain ⟨⟨hp, hup⟩, hr⟩ := hc
    obtain ⟨hdesc, -, -, hset⟩ := phyThread_frame poll s.link s.phy
    have hnone : s.link.dev.txDesc = none := by
      cases hi : s.init with
      | install =>
        simp only [BringupInv, hi] at h
        exact h.2
      | umask =>
        simp only [BringupInv, hi] at h
        exact h.2
      | start k =>
        simp only [BringupInv, hi] at h
        rw [hi] at hr
        exact (h.before (of_decide_eq_true hr)).2
      | _ => simp [hi, InitPc.ringless] at hr
    refine ⟨[], _, rfl, trivial, fun hok => ?_⟩
    have haccept :
        txAccepts (gmacPhyThread poll s.link s.phy).1.dev.linkUp [⟨[0x5a], 1, by decide⟩] := by
      rw [hset hp, hup]
      simp [txAccepts, totLen, gmacDmaBufferSize]
    have hring := (hok.rings _ haccept).1
    rw [hdesc, hnone] at hring
    cases hring
  | init =>
    -- the store takes the mode of the link away, and nobody puts it back
    simp only [collides, Bool.and_eq_true, beq_iff_eq] at hc
    obtain ⟨hi, hmode⟩ := hc
    obtain ⟨m, hm, hne⟩ := (Option.any_eq_true _ _).mp hmode
    have hv : s.frame.value &&& configLinkMask = configFor startMode.1 startMode.2 := by
      simp only [BringupInv, hi] at h
      exact h.value.2 rfl
    obtain ⟨hleaves, hinit, hconfig⟩ : s'.phy.leaves s'.link = some m ∧
        s'.init = .start (configStatement + 1) ∧
        modeOf s'.link.dev = configFor startMode.1 startMode.2 := by
      simp only [bringupStep, hi, startOps_config] at hs
      obtain rfl := Option.some.inj hs
      exact ⟨hm, rfl, modeOf_config.trans hv⟩
    obtain ⟨bs, t, hrun, hclear, hinit', hcheck, hend, hkept⟩ :=
      iteration_ends hinit hleaves
    obtain ⟨u, hfinish, hclear', hbad⟩ :=
      bringup_ends (hinit'.trans hinit) hcheck hend (hkept.trans hconfig) (by simpa using hne)
    have hboth : Clear pool s' (bs ++ [.init, .init]) := (along_append hrun).mpr ⟨hclear, hclear'⟩
    exact ⟨bs ++ [.init, .init], u, runs_append.mpr ⟨t, hrun, hfinish⟩, hboth, hbad⟩
  | _ => cases hc

/-- In every run in which no step collides, initialisation and the link thread do not get into
each other's way; and a step collides exactly if a run with no further collision breaks after it. -/
theorem bringup_ok (pool : Nat) (g : GmacDev) (con : BitVec 16) (as : List BringupAct)
    (s : BringupState) (hr : runs (bringupStep pool) (bringupInit g con) as = some s)
    (hno : Clear pool (bringupInit g con) as) :
    BringupOk s ∧ ∀ a s', bringupStep pool s a = some s' →
      (collides s a = true ↔ ∃ bs t, runs (bringupStep pool) s' bs = some t ∧ Clear pool s' bs ∧
        ¬ BringupOk t) := by
  have h := bringupInv_run (bringupInv_start g con) hr hno
  refine ⟨h.ok, fun a s' hs => ⟨fun hc => collides_breaks h hc hs, ?_⟩⟩
  rintro ⟨bs, t, hrun, hclear, hbad⟩
  by_contra hc
  have hinv := bringupInv_step h (Bool.eq_false_iff.mpr hc) hs
  exact hbad (bringupInv_run hinv hrun hclear).ok

def upIteration : List BringupAct := List.replicate 11 (.phy (some 0x4400))

/-- An open whose hardware part succeeds, and the rest of `gmac_device_init`. -/
def openHw : List BringupAct := [.open, .hw true fun _ => 0]
def finishInit : List BringupAct := List.replicate 42 .init

/-- A failed attempt first; then the thread polls while there are no rings, but sees the link
down, and sees it up right behind the store to GMAC_CONFIG. -/
def lateUp : List BringupAct :=
  [.open, .phy none, .hw false fun _ => 0] ++ openHw ++ List.replicate 4 (.phy (some 0)) ++
    List.replicate 40 .init ++ upIteration ++ List.replicate 2 .init

theorem bringup_ok_lateUp :
    ∃ s, runs (bringupStep 0x40000000) (bringupInit gmac0 0) lateUp = some s ∧
      s.link.dev.linkUp = true ∧ s.init = .done ∧ BringupOk s := by
  obtain ⟨s, hs, hv⟩ := Option.map_eq_some_iff.mp
    (by decide +kernel : (runs (bringupStep 0x40000000) (bringupInit gmac0 0) lateUp).map
      (fun s => (s.link.dev.linkUp, s.init)) = some (true, .done))
  obtain ⟨hup, hdone⟩ := Prod.mk.inj hv
  exact ⟨s, hs, hup, hdone, (bringup_ok _ _ _ _ s hs (by decide +kernel)).1⟩

/-- The thread sees the link up inside the window: a transmit passes its check while there is
no descriptor ring, and `rk3576_gmac_dma_start` then puts the MAC back to 1000 Mbit full. -/
theorem not_bringupOk_upInWindow :
    (∃ s, runs (bringupStep 0x40000000) (bringupInit gmac0 0) (openHw ++ upIteration) = some s ∧
      ¬ ∀ p, txAccepts s.link.dev.linkUp p → s.link.dev.txDesc.isSome = true ∧
        s.link.dev.txBuffer.isSome = true) ∧
    ∃ s, runs (bringupStep 0x40000000) (bringupInit gmac0 0) (openHw ++ upIteration ++ finishInit) =
      some s ∧
      ¬ BringupOk s := by
  constructor
  · obtain ⟨s, hs, hv⟩ := Option.map_eq_some_iff.mp
      (by decide +kernel : (runs (bringupStep 0x40000000) (bringupInit gmac0 0)
        (openHw ++ upIteration)).map
        (fun s => (s.link.dev.linkUp, s.link.dev.txDesc)) = some (true, none))
    obtain ⟨hup, hdesc⟩ := Prod.mk.inj hv
    refine ⟨s, hs, fun h => ?_⟩
    have hacc : txAccepts s.link.dev.linkUp [⟨[0x5a], 1, by decide⟩] := by
      rw [hup]
      simp [txAccepts, totLen, gmacDmaBufferSize]
    simpa [hdesc] using (h _ hacc).1
  · obtain ⟨s, hs, hv⟩ := Option.map_eq_some_iff.mp
      (by decide +kernel : (runs (bringupStep 0x40000000) (bringupInit gmac0 0)
        (openHw ++ upIteration ++ finishInit)).map
          (fun s => (s.link.dev.linkUp, s.init, s.phy.pc,
            s.link.dev.reg gmacConfig &&& configLinkMask ==
            configFor s.link.dev.speed s.link.dev.fullDuplex)) = some (true, .done, .check, false))
    simp only [Prod.mk.injEq, beq_eq_false_iff_ne] at hv
    exact ⟨s, hs, fun h => hv.2.2.2 (h.config hv.2.1 hv.2.2.1 hv.1)⟩

end Rk3576.Gmac
