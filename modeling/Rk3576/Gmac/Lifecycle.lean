import Rk3576.Lib.Run
import Rk3576.Kernel.Device
import Rk3576.Gmac.Start

/-! The open/close life cycle of e0: `rt_device_open` and `rt_device_close` of the device
framework over the driver's init, open and close operations. -/
namespace Rk3576.Gmac
open Rk3576.Run Rk3576.Atomic Rk3576.Atomic.Prog Rk3576.Kernel

/-- `struct eth_device` of e0, the driver below it, and the mask of GMAC0_SBD_IRQ. -/
structure GmacDevice extends RtDevice where
  dev : GmacDev
  irqMasked : Bool

instance : HasRtDevice GmacDevice where
  device := GmacDevice.toRtDevice
  update f d := { d with toRtDevice := f d.toRtDevice }
  device_update _ _ := rfl

def e0 : GmacDevice where
  flag := rtDeviceFlagRdwr
  openFlag := rtDeviceOflagClose
  refCount := 0
  ret := .eok
  halted := false
  dev := gmac0
  irqMasked := true

/-- `gmac_device_init`, its hardware part succeeding; the resets in it leave `reg`. -/
def gmacDeviceInit (pool : Nat) (reg : Nat → BitVec 32) (d : GmacDevice) : GmacDevice :=
  let dev := if d.dev.initialized then d.dev else { d.dev with reg := reg, initialized := true }
  { d with irqMasked := false, dev := rk3576GmacDmaStart pool dev }

def gmacDeviceOpen (d : GmacDevice) : GmacDevice := d

def gmacDeviceClose (d : GmacDevice) : GmacDevice :=
  if d.dev.initialized then
    { d with irqMasked := true, dev := rk3576GmacDmaStop (rk3576GmacDmaInterruptDisable d.dev) }
  else d

/-- The operations of e0; the resets in an init leave the register values given to it. -/
def gmacDeviceOps (pool : Nat) : RtDeviceOps GmacDevice (Nat → BitVec 32) where
  init reg := .upd (gmacDeviceInit pool reg) (finish .eok)
  «open» _ := .upd gmacDeviceOpen (finish .eok)
  close next := .upd gmacDeviceClose ((finish .eok).seq next)

inductive LifeAct where
  | open (reg : Nat → BitVec 32) (oflag : BitVec 16)
  | close

def lifeCall (pool : Nat) : LifeAct → Prog GmacDevice
  | .open reg oflag => rtDeviceOpen (gmacDeviceOps pool) reg oflag
  | .close => rtDeviceClose (gmacDeviceOps pool)

/-- There is no state after a call that an RT_ASSERT stops. -/
def lifeStep (pool : Nat) (d : GmacDevice) (a : LifeAct) : Option GmacDevice :=
  let t := (lifeCall pool a).run d
  if t.halted then none else some t

structure DataPathOn (d : GmacDevice) : Prop where
  tx : d.dev.reg dmaCh0TxControl &&& dmaTxStart ≠ 0
  rx : d.dev.reg dmaCh0RxControl &&& dmaRxStart ≠ 0
  int : d.dev.reg dmaCh0IntEnable = dmaIntEnabled
  irq : d.irqMasked = false

structure DataPathOff (d : GmacDevice) : Prop where
  tx : d.dev.reg dmaCh0TxControl &&& dmaTxStart = 0
  rx : d.dev.reg dmaCh0RxControl &&& dmaRxStart = 0
  int : d.dev.reg dmaCh0IntEnable = 0
  irq : d.irqMasked = true

/-- The data path is on exactly while somebody has the device open. -/
def LifeOk (d : GmacDevice) : Prop :=
  (d.refCount ≠ 0 → DataPathOn d) ∧ (d.refCount = 0 → DataPathOff d)

def GmacDevice.activated (d : GmacDevice) : Bool := d.flag &&& rtDeviceFlagActivated != 0

/-- An open of a device that has been opened before and is not open now. -/
def reopens (d : GmacDevice) : LifeAct → Bool
  | .open _ _ => d.activated && d.refCount == 0
  | .close => false

section
variable (pool : Nat)

theorem dmaStart_txControl (g : GmacDev) :
    (rk3576GmacDmaStart pool g).reg dmaCh0TxControl =
      (8#32 <<< 16 ||| gmacBit 4) ||| dmaTxStart := rfl

theorem dmaStart_rxControl (g : GmacDev) :
    (rk3576GmacDmaStart pool g).reg dmaCh0RxControl =
      (8#32 <<< 16 ||| BitVec.ofNat 32 gmacDmaBufferSize <<< 1) ||| dmaRxStart := rfl

theorem dmaStart_intEnable (g : GmacDev) :
    (rk3576GmacDmaStart pool g).reg dmaCh0IntEnable = dmaIntEnabled := rfl

theorem gmacDeviceInit_on (reg : Nat → BitVec 32) (d : GmacDevice) :
    DataPathOn (gmacDeviceInit pool reg d) where
  tx := by
    simp only [gmacDeviceInit, dmaStart_txControl]
    decide
  rx := by
    simp only [gmacDeviceInit, dmaStart_rxControl]
    decide
  int := dmaStart_intEnable pool _
  irq := rfl

theorem gmacDeviceInit_initialized (reg : Nat → BitVec 32) (d : GmacDevice) :
    (gmacDeviceInit pool reg d).dev.initialized = true := by
  simp only [gmacDeviceInit, rk3576GmacDmaStart_initialized]
  split
  · assumption
  · rfl

theorem and_not_self_and (x m : BitVec 32) : x &&& ~~~m &&& m = 0 := by
  rw [BitVec.and_assoc, BitVec.and_comm (~~~m), BitVec.and_not_self]
  exact BitVec.and_zero

theorem gmacDeviceClose_off (d : GmacDevice) (h : d.dev.initialized = true) :
    DataPathOff (gmacDeviceClose d) := by
  simp only [gmacDeviceClose, h, if_true]
  constructor
  · exact and_not_self_and _ dmaTxStart
  · exact and_not_self_and _ dmaRxStart
  · rfl
  · rfl

theorem gmacDeviceClose_flag (d : GmacDevice) : (gmacDeviceClose d).flag = d.flag := by
  unfold gmacDeviceClose
  split <;> rfl

theorem gmacDeviceClose_refCount (d : GmacDevice) : (gmacDeviceClose d).refCount = d.refCount := by
  unfold gmacDeviceClose
  split <;> rfl

theorem gmacDeviceClose_initialized (d : GmacDevice) :
    (gmacDeviceClose d).dev.initialized = d.dev.initialized := by
  unfold gmacDeviceClose
  split <;> rfl

/-- What the first part of an open makes of e0: init runs until it has succeeded once. -/
def activate (reg : Nat → BitVec 32) (d : GmacDevice) : GmacDevice :=
  if d.activated then d
  else { gmacDeviceInit pool reg d with flag := d.flag ||| rtDeviceFlagActivated }

theorem activate_cases (reg : Nat → BitVec 32) (d : GmacDevice) :
    d.activated = true ∧ activate pool reg d = d ∨
      d.activated = false ∧ activate pool reg d =
        { gmacDeviceInit pool reg d with flag := d.flag ||| rtDeviceFlagActivated } := by
  cases h : d.activated with
  | true => exact .inl ⟨rfl, by rw [activate, if_pos h]⟩
  | false => exact .inr ⟨rfl, by rw [activate, if_neg (Bool.eq_false_iff.mp h)]⟩

theorem activate_standalone (reg : Nat → BitVec 32) {d : GmacDevice}
    (h : d.flag &&& rtDeviceFlagStandalone = 0) :
    (activate pool reg d).flag &&& rtDeviceFlagStandalone = 0 := by
  cases activate_cases pool reg d with
  | inl ha => rw [ha.2, h]
  | inr ha =>
    rw [ha.2, BitVec.and_or_distrib_right, h]
    rfl

theorem activate_refCount (reg : Nat → BitVec 32) (d : GmacDevice) :
    (activate pool reg d).refCount = d.refCount := by
  unfold activate
  split <;> rfl

theorem activate_keeps (reg : Nat → BitVec 32) (d : GmacDevice) :
    (rtDeviceActivate (gmacDeviceOps pool) reg).Keeps (fun _ => True)
      (fun t => t = { activate pool reg d with ret := .eok }) d := by
  refine rtDeviceActivate_keeps trivial trivial (fun ha => ?_) fun ha => ?_
  · have hact : d.activated = true := bne_iff_ne.mpr ha
    rw [activate, if_pos hact]
    rfl
  · have hact : ¬d.activated = true := fun h => bne_iff_ne.mp h ha
    rw [activate, if_neg hact]
    exact ⟨trivial, trivial, trivial, trivial, rfl, trivial, rfl⟩

/-- e0 is no stand-alone device: an open always reaches the count. -/
theorem open_step {reg : Nat → BitVec 32} {oflag : BitVec 16} {d t : GmacDevice}
    (hf : d.flag &&& rtDeviceFlagStandalone = 0) (h : lifeStep pool d (.open reg oflag) = some t) :
    d.refCount + 1 ≠ 0 ∧ t = { activate pool reg d with
      openFlag := (activate pool reg d).openFlag ||| rtDeviceOflagOpen, refCount := d.refCount + 1,
        ret := .eok } := by
  have hopen : (rtDeviceOpen (gmacDeviceOps pool) reg oflag).Keeps (fun _ => True)
      (fun t => t.halted = false → d.refCount + 1 ≠ 0 ∧ t = { activate pool reg d with
        openFlag := (activate pool reg d).openFlag ||| rtDeviceOflagOpen,
        refCount := d.refCount + 1, ret := .eok }) d := by
    refine rtDeviceOpen_keeps (keeps_mono ?_ (activate_keeps pool reg d))
    rintro t rfl
    have hcount := activate_refCount pool reg d
    refine ⟨trivial, rfl, activate_standalone pool reg hf, trivial, trivial, trivial,
      rtDeviceCount_keeps trivial rfl trivial rfl trivial
        (fun _ => ⟨trivial, trivial, fun hh => by cases hh⟩) ?_⟩
    intro h0 _
    refine ⟨fun hz => h0 (hcount ▸ hz), ?_⟩
    rw [← hcount]
    rfl
  rw [lifeStep] at h
  split at h
  · cases h
  · next hh =>
    obtain rfl := Option.some.inj h
    exact (keeps_iff.mp hopen).2 (Bool.eq_false_iff.mpr hh)

theorem close_cases {d t : GmacDevice} (h : lifeStep pool d .close = some t) :
    d.refCount = 0 ∧ t = { d with ret := .error } ∨
      d.refCount ≠ 0 ∧ d.refCount - 1 ≠ 0 ∧ t = { d with refCount := d.refCount - 1, ret := .eok } ∨
      d.refCount ≠ 0 ∧ d.refCount - 1 = 0 ∧
      t = { gmacDeviceClose { d with refCount := d.refCount - 1 } with
        openFlag := rtDeviceOflagClose, ret := .eok } := by
  have hclose : (rtDeviceClose (gmacDeviceOps pool)).Keeps (fun _ => True)
      (fun t => d.refCount = 0 ∧ t = { d with ret := .error } ∨
        d.refCount ≠ 0 ∧ d.refCount - 1 ≠ 0 ∧
        t = { d with refCount := d.refCount - 1, ret := .eok } ∨
        d.refCount ≠ 0 ∧ d.refCount - 1 = 0 ∧
        t = { gmacDeviceClose { d with refCount := d.refCount - 1 } with
          openFlag := rtDeviceOflagClose, ret := .eok }) d := by
    refine rtDeviceClose_keeps trivial rfl (fun h0 => ?_) (fun h0 h1 => ?_) fun h0 h1 => ?_
    · exact ⟨trivial, trivial, .inl ⟨h0, rfl⟩⟩
    · exact ⟨trivial, trivial, trivial, .inr (.inl ⟨h0, h1, rfl⟩)⟩
    · exact ⟨trivial, trivial, trivial, trivial, trivial, trivial, .inr (.inr ⟨h0, h1, rfl⟩)⟩
  rw [lifeStep] at h
  split at h
  · cases h
  · obtain rfl := Option.some.inj h
    exact (keeps_iff.mp hclose).2

structure LifeInv (d : GmacDevice) : Prop where
  ok : LifeOk d
  opened : d.refCount ≠ 0 → d.activated = true
  initialized : d.activated = true → d.dev.initialized = true
  shared : d.flag &&& rtDeviceFlagStandalone = 0

theorem lifeInv_e0 : LifeInv e0 where
  ok := ⟨fun h => absurd rfl h, fun _ => ⟨rfl, rfl, rfl, rfl⟩⟩
  opened h := absurd rfl h
  initialized h := by cases h
  shared := rfl

theorem activated_set (f : BitVec 16) :
    (f ||| rtDeviceFlagActivated) &&& rtDeviceFlagActivated ≠ 0 := by
  rw [BitVec.and_or_distrib_right, BitVec.and_self]
  intro h
  exact absurd (BitVec.or_eq_zero_iff.mp h).2 (by decide)

theorem activate_inv (reg : Nat → BitVec 32) {d : GmacDevice} (h : LifeInv d) :
    (activate pool reg d).activated = true ∧ (activate pool reg d).dev.initialized = true := by
  cases activate_cases pool reg d with
  | inl ha => rw [ha.2]; exact ⟨ha.1, h.initialized ha.1⟩
  | inr ha =>
    rw [ha.2]
    exact ⟨by simpa [GmacDevice.activated] using activated_set d.flag,
      gmacDeviceInit_initialized pool reg d⟩

/-- What an open leaves of the data path: an open that runs the init operation turns it on, any
other leaves it as it was. -/
theorem open_dataPath (reg : Nat → BitVec 32) {d : GmacDevice} (h : LifeInv d) :
    DataPathOn (activate pool reg d) ↔ ¬ (d.activated = true ∧ d.refCount = 0) := by
  cases activate_cases pool reg d with
  | inl ha =>
    rw [ha.2]
    by_cases hc : d.refCount = 0
    · have hoff := h.ok.2 hc
      exact ⟨fun hon => absurd hoff.tx hon.tx, fun hn => absurd ⟨ha.1, hc⟩ hn⟩
    · exact ⟨fun _ hn => hc hn.2, fun _ => h.ok.1 hc⟩
  | inr ha =>
    rw [ha.2]
    have hon := gmacDeviceInit_on pool reg d
    exact ⟨fun _ hn => by simp [ha.1] at hn, fun _ => ⟨hon.tx, hon.rx, hon.int, hon.irq⟩⟩

theorem reopens_open (d : GmacDevice) (reg : Nat → BitVec 32) (oflag : BitVec 16) :
    reopens d (.open reg oflag) = false ↔ ¬ (d.activated = true ∧ d.refCount = 0) := by
  simp [reopens]

theorem lifeInv_open {reg : Nat → BitVec 32} {oflag : BitVec 16} {d t : GmacDevice} (h : LifeInv d)
    (hs : lifeStep pool d (.open reg oflag) = some t) (hr : reopens d (.open reg oflag) = false) :
    LifeInv t := by
  obtain ⟨hc, rfl⟩ := open_step pool h.shared hs
  have hon := (open_dataPath pool reg h).mpr ((reopens_open d reg oflag).mp hr)
  obtain ⟨ha, hi⟩ := activate_inv pool reg h
  exact {
    ok := ⟨fun _ => ⟨hon.tx, hon.rx, hon.int, hon.irq⟩, fun h0 => absurd h0 hc⟩
    opened := fun _ => ha
    initialized := fun _ => hi
    shared := activate_standalone pool reg h.shared }

theorem lifeInv_close {d t : GmacDevice} (h : LifeInv d) (hs : lifeStep pool d .close = some t) :
    LifeInv t := by
  obtain ⟨hc, rfl⟩ | ⟨hc, hc', rfl⟩ | ⟨hc, hc', rfl⟩ := close_cases pool hs
  · have hoff := h.ok.2 hc
    exact {
      ok := ⟨fun h0 => absurd hc h0, fun _ => ⟨hoff.tx, hoff.rx, hoff.int, hoff.irq⟩⟩
      opened := h.opened
      initialized := h.initialized
      shared := h.shared }
  · have hon := h.ok.1 hc
    exact {
      ok := ⟨fun _ => ⟨hon.tx, hon.rx, hon.int, hon.irq⟩, fun h0 => absurd h0 hc'⟩
      opened := fun _ => h.opened hc
      initialized := h.initialized
      shared := h.shared }
  · have hi := h.initialized (h.opened hc)
    have hoff := gmacDeviceClose_off { d with refCount := d.refCount - 1 } hi
    exact {
      ok := ⟨fun h0 => absurd ((gmacDeviceClose_refCount _).trans hc') h0,
        fun _ => ⟨hoff.tx, hoff.rx, hoff.int, hoff.irq⟩⟩
      opened := fun h0 => absurd ((gmacDeviceClose_refCount _).trans hc') h0
      initialized := fun _ => (gmacDeviceClose_initialized _).trans hi
      shared := by
        show (gmacDeviceClose _).flag &&& _ = 0
        rw [gmacDeviceClose_flag]
        exact h.shared }

theorem lifeInv_step {d t : GmacDevice} {a : LifeAct} (h : LifeInv d)
    (hs : lifeStep pool d a = some t) :
    LifeOk t ↔ reopens d a = false := by
  cases a with
  | close => exact ⟨fun _ => rfl, fun _ => (lifeInv_close pool h hs).ok⟩
  | «open» reg oflag =>
    refine ⟨fun hok => ?_, fun hr => (lifeInv_open pool h hs hr).ok⟩
    obtain ⟨hc, rfl⟩ := open_step pool h.shared hs
    have hon := hok.1 hc
    exact (reopens_open d reg oflag).mpr
      ((open_dataPath pool reg h).mp ⟨hon.tx, hon.rx, hon.int, hon.irq⟩)

/-- Along a history of opens and closes the data path follows the reference count at every
point exactly if no open comes after a last close. -/
theorem lifecycle_ok (as : List LifeAct) :
    Along (lifeStep pool) (fun _ _ t => LifeOk t) e0 as ↔
      Along (lifeStep pool) (fun d a _ => reopens d a = false) e0 as := by
  suffices h : ∀ d, LifeInv d → (Along (lifeStep pool) (fun _ _ t => LifeOk t) d as ↔
      Along (lifeStep pool) (fun d a _ => reopens d a = false) d as) from h e0 lifeInv_e0
  induction as with
  | nil => exact fun _ _ => Iff.rfl
  | cons a as ih =>
    intro d hd
    cases hs : lifeStep pool d a with
    | none => simp [Along, hs]
    | some t =>
      rw [along_cons hs, along_cons hs, lifeInv_step pool hd hs]
      refine and_congr_right fun hr => ih t ?_
      cases a with
      | close => exact lifeInv_close pool hd hs
      | «open» reg oflag => exact lifeInv_open pool hd hs hr

/-- Open, close, open: the device is open and its transmitter and receiver are stopped. -/
theorem not_lifeOk_reopened :
    ∃ d, runs (lifeStep 0x40400000) e0 [.open (fun _ => 0) rtDeviceFlagRdwr, .close,
      .open (fun _ => 0) rtDeviceFlagRdwr] = some d ∧
      d.refCount = 1 ∧ d.dev.reg dmaCh0TxControl &&& dmaTxStart = 0 ∧ ¬ LifeOk d := by
  refine ⟨_, rfl, rfl, rfl, fun h => ?_⟩
  exact (h.1 (by decide)).tx rfl

end

end Rk3576.Gmac
