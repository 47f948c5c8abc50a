import Rk3576.Lib.Atomic
import Rk3576.Pin.PinMap

/-! `drv_gpio.c` and `gpio_hw.c`. Each register write, each plain read of `gpio_open_drain` and
each update of it with interrupts disabled is one step. Below the registers are read as the
states of 160 pins, and every step is shown to change one pin alone. -/
namespace Rk3576.Pin
open Rk3576.Hiword Rk3576.Atomic
open Rk3576.Gmac (RtErr)

/-- The IOC registers, the GPIO registers by address, and `gpio_open_drain` by bank. -/
structure GpioState where
  ioc : IocRegs
  gpio : BitVec 64 → BitVec 16
  openDrain : BitVec 32 → BitVec 32

def gpioBases : List (BitVec 64) := [0x27320000, 0x2ae10000, 0x2ae20000, 0x2ae30000, 0x2ae40000]

def gpioSwportDrL : BitVec 32 := 0x0000
def gpioSwportDdrL : BitVec 32 := 0x0008

def gpioAddr (bank reg pin : BitVec 32) : BitVec 64 :=
  gpioBases.getD bank.toNat 0 + (reg + pin / 16 * 4).setWidth 64

def rk3576GpioWriteBit (s : GpioState) (bank reg pin : BitVec 32) (set : Bool) : GpioState :=
  let bit := 1#32 <<< (pin % 16)
  { s with
    gpio := write s.gpio (gpioAddr bank reg pin) ((bit <<< 16) ||| (if set then bit else 0)) }

def rk3576GpioHwSetDirection (bank pin : BitVec 32) (output : Bool) (s : GpioState) : GpioState :=
  rk3576GpioWriteBit s bank gpioSwportDdrL pin output

def rk3576GpioHwSetValue (bank pin : BitVec 32) (high : Bool) (s : GpioState) : GpioState :=
  rk3576GpioWriteBit s bank gpioSwportDrL pin high

/-- Bank and offset of a pin number, a signed machine word; `none` is RT_FALSE. -/
def rk3576GpioDecode (pin : BitVec 64) : Option (BitVec 32 × BitVec 32) :=
  if pin.slt 0 ∨ pin ≥ 5 * 32 then none
  else some (pin.setWidth 32 / 32, pin.setWidth 32 % 32)

def pinModeOutput : BitVec 64 := 0
def pinModeInput : BitVec 64 := 1
def pinModeInputPullup : BitVec 64 := 2
def pinModeInputPulldown : BitVec 64 := 3
def pinModeOutputOd : BitVec 64 := 4
def pinLow : BitVec 64 := 0

/-- The modes `rk3576_pin_mode` does not return from at once. -/
def Supported (mode : BitVec 64) : Prop :=
  ¬(mode ≠ pinModeOutput ∧ mode ≠ pinModeInput ∧ mode ≠ pinModeInputPullup ∧
    mode ≠ pinModeInputPulldown ∧
    mode ≠ pinModeOutputOd)

instance (mode : BitVec 64) : Decidable (Supported mode) :=
  inferInstanceAs
    (Decidable (¬(mode ≠ pinModeOutput ∧ mode ≠ pinModeInput ∧ mode ≠ pinModeInputPullup ∧
    mode ≠ pinModeInputPulldown ∧ mode ≠ pinModeOutputOd)))

def muxGpio (bank offset : BitVec 32) (s : GpioState) : GpioState :=
  { s with ioc := (rk3576IomuxSet s.ioc bank offset 0).2 }

def pullTo (bank offset pull : BitVec 32) (s : GpioState) : GpioState :=
  { s with ioc := (rk3576PullSet s.ioc bank offset pull).2 }

def clearOpenDrain (bank bit : BitVec 32) (s : GpioState) : GpioState :=
  { s with openDrain := Function.update s.openDrain bank (s.openDrain bank &&& ~~~bit) }

def setOpenDrain (bank bit : BitVec 32) (s : GpioState) : GpioState :=
  { s with openDrain := Function.update s.openDrain bank (s.openDrain bank ||| bit) }

def modeSwitch (bank offset : BitVec 32) (mode : BitVec 64) : Prog GpioState :=
  if mode = pinModeOutput then
    .upd (pullTo bank offset rk3576PullNone) <|
    .upd (rk3576GpioHwSetDirection bank offset true) .done
  else if mode = pinModeInput then
    .upd (rk3576GpioHwSetDirection bank offset false) <|
    .upd (pullTo bank offset rk3576PullNone) .done
  else if mode = pinModeInputPullup then
    .upd (rk3576GpioHwSetDirection bank offset false) <|
    .upd (pullTo bank offset rk3576PullUp) .done
  else if mode = pinModeInputPulldown then
    .upd (rk3576GpioHwSetDirection bank offset false) <|
    .upd (pullTo bank offset rk3576PullDown) .done
  else if mode = pinModeOutputOd then
    .upd (rk3576GpioHwSetDirection bank offset false) <|
    .upd (rk3576GpioHwSetValue bank offset false) <|
    .upd (setOpenDrain bank (1#32 <<< offset)) .done
  else .done

def rk3576PinMode (pin mode : BitVec 64) : Prog GpioState :=
  match rk3576GpioDecode pin with
  | none => .done
  | some (bank, offset) =>
    if ¬Supported mode then .done
    else
      .act (muxGpio bank offset) fun s =>
      if (rk3576IomuxSet s.ioc bank offset 0).1 ≠ .eok then .done
      else .upd (clearOpenDrain bank (1#32 <<< offset)) (modeSwitch bank offset mode)

def rk3576PinWrite (pin value : BitVec 64) : Prog GpioState :=
  match rk3576GpioDecode pin with
  | none => .done
  | some (bank, offset) =>
    .read fun s =>
    if s.openDrain bank &&& (1#32 <<< offset) ≠ 0 then
      if value = pinLow then
        .upd (rk3576GpioHwSetValue bank offset false) <|
        .upd (rk3576GpioHwSetDirection bank offset true) .done
      else .upd (rk3576GpioHwSetDirection bank offset false) .done
    else .upd (rk3576GpioHwSetValue bank offset (value != pinLow)) .done

structure PinId where
  bank : Fin 5
  pin : Fin 32
  deriving DecidableEq

def PinId.bankNo (q : PinId) : BitVec 32 := BitVec.ofNat 32 q.bank
def PinId.pinNo (q : PinId) : BitVec 32 := BitVec.ofNat 32 q.pin

def PinId.number (q : PinId) : BitVec 64 := BitVec.ofNat 64 (q.bank * 32 + q.pin)

@[ext] structure PinState where
  mux : BitVec 16
  pull : BitVec 16
  output : Bool
  high : Bool
  openDrain : Bool
  deriving DecidableEq

def GpioState.bit (s : GpioState) (reg : BitVec 32) (q : PinId) : Bool :=
  (s.gpio (gpioAddr q.bankNo reg q.pinNo)).getLsbD (q.pin.val % 16)

def GpioState.pin (s : GpioState) (q : PinId) : PinState where
  mux := (PinField.mk .mux q.bank q.pin).slot.get s.ioc
  pull := (PinField.mk .pull q.bank q.pin).slot.get s.ioc
  output := s.bit gpioSwportDdrL q
  high := s.bit gpioSwportDrL q
  openDrain := (s.openDrain q.bankNo).getLsbD q.pin

theorem decode_number (q : PinId) : rk3576GpioDecode q.number = some (q.bankNo, q.pinNo) := by
  have h : ∀ (b : Fin 5) (i : Fin 32), rk3576GpioDecode (PinId.number ⟨b, i⟩) =
      some (PinId.bankNo ⟨b, i⟩, PinId.pinNo ⟨b, i⟩) := by decide +kernel
  exact h q.bank q.pin

theorem decode_cases (pin : BitVec 64) :
    rk3576GpioDecode pin = none ∨ ∃ q : PinId, pin = q.number := by
  by_cases h : pin.slt 0 ∨ pin ≥ 5 * 32
  · exact Or.inl (if_pos h)
  · right
    have hlt : pin.toNat < 160 := by
      have := fun h' => h (Or.inr h')
      bv_omega
    refine ⟨⟨⟨pin.toNat / 32, by omega⟩, ⟨pin.toNat % 32, by omega⟩⟩, ?_⟩
    simp [PinId.number, Nat.div_add_mod']

theorem bankNo_inj {p q : PinId} : p.bankNo = q.bankNo ↔ p.bank = q.bank := by
  simp only [PinId.bankNo, ← BitVec.toNat_inj, BitVec.toNat_ofNat, Fin.ext_iff]
  omega

theorem pinNo_inj {p q : PinId} : p.pinNo = q.pinNo ↔ p.pin = q.pin := by
  simp only [PinId.pinNo, ← BitVec.toNat_inj, BitVec.toNat_ofNat, Fin.ext_iff]
  omega

theorem number_of_decode {pin : BitVec 64} {q : PinId}
    (h : rk3576GpioDecode pin = some (q.bankNo, q.pinNo)) :
    pin = q.number := by
  cases decode_cases pin with
  | inl hn => simp [hn] at h
  | inr hp =>
    obtain ⟨p, rfl⟩ := hp
    rw [decode_number, Option.some_inj, Prod.mk.injEq, bankNo_inj, pinNo_inj] at h
    cases p
    cases q
    simp_all

section Steps
variable (q : PinId)

theorem checkPin_id : rk3576CheckPin q.bankNo q.pinNo = .eok := checkPin_field ⟨.mux, q.bank, q.pin⟩

theorem is_field (f g : Family) (p : PinId) :
    (PinField.mk f p.bank p.pin).Is g q.bankNo q.pinNo ↔ f = g ∧ p = q := by
  have h := is_iff_eq ⟨f, p.bank, p.pin⟩ ⟨g, q.bank, q.pin⟩
  refine h.trans ?_
  cases p
  cases q
  simp

theorem set_fields (f : Family) (ioc : IocRegs) {v : BitVec 32} (hv : f.accepts v)
    (g : Family) (p : PinId) :
    (PinField.mk g p.bank p.pin).slot.get (f.set ioc q.bankNo q.pinNo v).2 =
      if g = f ∧ p = q then f.encode v else (PinField.mk g p.bank p.pin).slot.get ioc := by
  rw [(set_accept f ioc ⟨checkPin_id q, hv⟩).2]
  exact if_congr (is_field q g f p) rfl rfl

theorem set_changes (f : Family) {v : BitVec 32} (hv : f.accepts v) :
    Changes GpioState.pin (fun s => { s with ioc := (f.set s.ioc q.bankNo q.pinNo v).2 }) q fun p =>
      { p with
        mux := if .mux = f then f.encode v else p.mux
        pull := if .pull = f then f.encode v else p.pull } := by
  have h := fun ioc => set_fields q f ioc hv
  refine changes_of_parts (fun s => ?_) fun s p hp => ?_
  · have hm := h s.ioc .mux q
    have hl := h s.ioc .pull q
    simp only [and_true] at hm hl
    exact PinState.ext hm hl rfl rfl rfl
  · have hm := h s.ioc .mux p
    have hl := h s.ioc .pull p
    rw [if_neg fun h => hp h.2] at hm hl
    exact PinState.ext hm hl rfl rfl rfl

theorem muxGpio_changes :
    Changes GpioState.pin (muxGpio q.bankNo q.pinNo) q fun p => { p with mux := 0 } :=
  set_changes q .mux (v := 0) (by decide)

theorem pullTo_changes {v : BitVec 32} (hv : Family.pull.accepts v) :
    Changes GpioState.pin (pullTo q.bankNo q.pinNo v) q fun p =>
      { p with pull := Family.pull.encode v } :=
  set_changes q .pull hv

def gpioAt (addr : BitVec 64) : Nat × Nat × Nat :=
  (addr.toNat / 0x10000, addr.toNat % 0x10000 / 8, addr.toNat % 8 / 4)

def gpioBlock (b : Fin 5) : Nat := if b.val = 0 then 0x2732 else 0x2ae0 + b.val

def portReg : Bool → BitVec 32
  | false => gpioSwportDrL
  | true => gpioSwportDdrL

theorem gpioAt_addr (k : Bool) :
    gpioAt (gpioAddr q.bankNo (portReg k) q.pinNo) =
      (gpioBlock q.bank, k.toNat, q.pin.val / 16) := by
  have h : ∀ (k : Bool) (b : Fin 5) (i : Fin 32),
      gpioAt (gpioAddr (PinId.bankNo ⟨b, i⟩) (portReg k) (PinId.pinNo ⟨b, i⟩)) =
        (gpioBlock b, k.toNat, i.val / 16) := by
    decide +kernel
  exact h k q.bank q.pin

theorem gpioAddr_inj {p : PinId} {k l : Bool}
    (ha : gpioAddr p.bankNo (portReg l) p.pinNo = gpioAddr q.bankNo (portReg k) q.pinNo)
    (hb : p.pin.val % 16 = q.pin.val % 16) : l = k ∧ p = q := by
  have h := congrArg gpioAt ha
  rw [gpioAt_addr p l, gpioAt_addr q k] at h
  simp only [Prod.mk.injEq] at h
  have hbank : ∀ b c : Fin 5, gpioBlock b = gpioBlock c → b = c := by decide
  have hreg : ∀ k l : Bool, l.toNat = k.toNat → l = k := by decide
  refine ⟨hreg k l h.2.1, ?_⟩
  have hb' := hbank _ _ h.1
  cases p
  cases q
  simp only [PinId.mk.injEq, Fin.ext_iff] at *
  exact ⟨hb', by omega⟩

theorem writeBit_word (set : Bool) :
    ((1#32 <<< (q.pinNo % 16)) <<< 16) ||| (if set then 1#32 <<< (q.pinNo % 16) else 0) =
      word (1#32 <<< (q.pin.val % 16)) (if set then 1#32 <<< (q.pin.val % 16) else 0) := by
  have h : ∀ (i : Fin 32) (set : Bool), ((1#32 <<< (BitVec.ofNat 32 i % 16)) <<< 16) |||
      (if set then 1#32 <<< (BitVec.ofNat 32 i % 16) else 0) =
        word (1#32 <<< (i.val % 16)) (if set then 1#32 <<< (i.val % 16) else 0) := by decide +kernel
  exact h q.pin set

theorem writeBit_bit (p : PinId) (k l : Bool) (s : GpioState) (set : Bool) :
    (rk3576GpioWriteBit s q.bankNo (portReg k) q.pinNo set).bit (portReg l) p =
      if l = k ∧ p = q then set else s.bit (portReg l) p := by
  have hone : ∀ i j : Fin 16, (1#32 <<< i.val).getLsbD j = decide (i = j) := by decide +kernel
  simp only [GpioState.bit, rk3576GpioWriteBit, writeBit_word, write]
  by_cases ha : gpioAddr p.bankNo (portReg l) p.pinNo = gpioAddr q.bankNo (portReg k) q.pinNo
  · rw [ha, Function.update_self, merge_bit _ _ _ _ (Nat.mod_lt _ (by decide))]
    have hm :=
      hone ⟨q.pin.val % 16, Nat.mod_lt _ (by decide)⟩ ⟨p.pin.val % 16, Nat.mod_lt _ (by decide)⟩
    simp only [Fin.mk.injEq] at hm
    by_cases hb : p.pin.val % 16 = q.pin.val % 16
    · rw [hm, if_pos (by simp [hb]), if_pos (gpioAddr_inj q ha hb)]
      cases set with
      | false => simp
      | true => simpa [hb] using hm
    · have hn : ¬(l = k ∧ p = q) := fun h => hb (by rw [h.2])
      rw [hm, if_neg (by simp [Ne.symm hb]), if_neg hn]
  · have hn : ¬(l = k ∧ p = q) := by
      rintro ⟨rfl, rfl⟩
      exact ha rfl
    rw [Function.update_of_ne ha, if_neg hn]

theorem setDirection_changes (b : Bool) :
    Changes GpioState.pin (rk3576GpioHwSetDirection q.bankNo q.pinNo b) q fun p =>
      { p with output := b } := by
  have h := fun p l s => writeBit_bit q p true l s b
  refine changes_of_parts (fun s => ?_) fun s p hp => ?_
  · exact PinState.ext rfl rfl ((h q true s).trans (if_pos ⟨rfl, rfl⟩))
      ((h q false s).trans (if_neg (by simp))) rfl
  · exact PinState.ext rfl rfl ((h p true s).trans (if_neg fun h => hp h.2))
      ((h p false s).trans (if_neg fun h => hp h.2)) rfl

theorem setValue_changes (b : Bool) :
    Changes GpioState.pin (rk3576GpioHwSetValue q.bankNo q.pinNo b) q fun p =>
      { p with high := b } := by
  have h := fun p l s => writeBit_bit q p false l s b
  refine changes_of_parts (fun s => ?_) fun s p hp => ?_
  · exact PinState.ext rfl rfl ((h q true s).trans (if_neg (by simp)))
      ((h q false s).trans (if_pos ⟨rfl, rfl⟩)) rfl
  · exact PinState.ext rfl rfl ((h p true s).trans (if_neg fun h => hp h.2))
      ((h p false s).trans (if_neg fun h => hp h.2)) rfl

theorem pinBit (i : Fin 32) : (1#32 <<< q.pinNo).getLsbD i = decide (q.pin = i) := by
  have h : ∀ j i : Fin 32, (1#32 <<< BitVec.ofNat 32 j).getLsbD i = decide (j = i) := by
    decide +kernel
  exact h q.pin i

theorem openDrain_changes {f : GpioState → GpioState} {g : BitVec 32 → BitVec 32} (b : Bool)
    (hf : ∀ s,
      f s = { s with openDrain := Function.update s.openDrain q.bankNo (g (s.openDrain q.bankNo)) })
    (hg : ∀ w i, (g w).getLsbD i.val = if q.pin = i then b else w.getLsbD i) :
    Changes GpioState.pin f q fun p => { p with openDrain := b } := by
  refine changes_of_parts (fun s => ?_) fun s p hp => ?_
  · rw [hf]
    refine PinState.ext rfl rfl rfl rfl ?_
    simp only [GpioState.pin, Function.update_self, hg, if_true]
  · rw [hf]
    refine PinState.ext rfl rfl rfl rfl ?_
    simp only [GpioState.pin]
    by_cases hb : p.bankNo = q.bankNo
    · have hpin : q.pin ≠ p.pin := by
        intro h
        have hbank := bankNo_inj.mp hb
        cases p
        cases q
        simp_all
      rw [hb, Function.update_self, hg, if_neg hpin]
    · rw [Function.update_of_ne hb]

theorem clearOpenDrain_changes :
    Changes GpioState.pin (clearOpenDrain q.bankNo (1#32 <<< q.pinNo)) q fun p =>
      { p with openDrain := false } := by
  refine openDrain_changes q (g := fun w => w &&& ~~~(1#32 <<< q.pinNo)) false
    (fun _ => rfl) fun w i => ?_
  have hi : i.val < 32 := i.isLt
  by_cases h : q.pin = i
  · simp only [BitVec.getLsbD_and, BitVec.getLsbD_not, pinBit, h]
    simp
  · simp only [BitVec.getLsbD_and, BitVec.getLsbD_not, pinBit, h]
    simp [hi]

theorem setOpenDrain_changes :
    Changes GpioState.pin (setOpenDrain q.bankNo (1#32 <<< q.pinNo)) q fun p =>
      { p with openDrain := true } := by
  refine openDrain_changes q (g := fun w => w ||| (1#32 <<< q.pinNo)) true
    (fun _ => rfl) fun w i => ?_
  by_cases h : q.pin = i
  · simp only [BitVec.getLsbD_or, pinBit, h]
    simp
  · simp only [BitVec.getLsbD_or, pinBit, h]
    simp

theorem openDrain_test (s : GpioState) :
    s.openDrain q.bankNo &&& (1#32 <<< q.pinNo) ≠ 0 ↔ (s.pin q).openDrain = true := by
  have hbit : ∀ i : Fin 32, (s.openDrain q.bankNo &&& (1#32 <<< q.pinNo)).getLsbD i =
      ((s.openDrain q.bankNo).getLsbD i && decide (q.pin = i)) := by
    intro i
    rw [BitVec.getLsbD_and, pinBit]
  constructor
  · intro h
    by_contra hp
    apply h
    ext i hi
    have := hbit ⟨i, hi⟩
    by_cases hq : q.pin = ⟨i, hi⟩
    · simp_all [GpioState.pin]
    · simp_all
  · intro h h0
    have hq := hbit q.pin
    simp only [GpioState.pin] at h
    rw [h0, h] at hq
    simp at hq

end Steps

def pinSwitch (mode : BitVec 64) : Prog PinState :=
  if mode = pinModeOutput then
    .upd (fun p => { p with pull := 0 }) <| .upd (fun p => { p with output := true }) .done
  else if mode = pinModeInput then
    .upd (fun p => { p with output := false }) <| .upd (fun p => { p with pull := 0 }) .done
  else if mode = pinModeInputPullup then
    .upd (fun p => { p with output := false }) <| .upd (fun p => { p with pull := 3 }) .done
  else if mode = pinModeInputPulldown then
    .upd (fun p => { p with output := false }) <| .upd (fun p => { p with pull := 1 }) .done
  else if mode = pinModeOutputOd then
    .upd (fun p => { p with output := false }) <| .upd (fun p => { p with high := false }) <|
    .upd (fun p => { p with openDrain := true }) .done
  else .done

def pinMode (mode : BitVec 64) : Prog PinState :=
  if ¬Supported mode then .done
  else
    .upd (fun p => { p with mux := 0 }) <|
      .upd (fun p => { p with openDrain := false }) (pinSwitch mode)

def pinWrite (value : BitVec 64) : Prog PinState :=
  .read fun p =>
  if p.openDrain then
    if value = pinLow then
      .upd (fun p => { p with high := false }) <| .upd (fun p => { p with output := true }) .done
    else .upd (fun p => { p with output := false }) .done
  else .upd (fun p => { p with high := value != pinLow }) .done

theorem supported_cases {mode : BitVec 64} (h : Supported mode) :
    mode = pinModeOutput ∨ mode = pinModeInput ∨ mode = pinModeInputPullup ∨
    mode = pinModeInputPulldown ∨
      mode = pinModeOutputOd := by
  rw [Supported] at h
  tauto

/-- The pull that belongs to a mode other than open-drain. -/
def modePull (mode : BitVec 64) : BitVec 16 :=
  if mode = pinModeInputPullup then 3 else if mode = pinModeInputPulldown then 1 else 0

/-- The pin after a supported mode: all of it is new except the data bit, which only the
open-drain mode writes, and the pull, which only the open-drain mode leaves. -/
theorem pinMode_run {mode : BitVec 64} (h : Supported mode) (p : PinState) :
    (pinMode mode).run p =
      { mux := 0
        pull := if mode = pinModeOutputOd then p.pull else modePull mode
        output := decide (mode = pinModeOutput)
        high := if mode = pinModeOutputOd then false else p.high
        openDrain := decide (mode = pinModeOutputOd) } := by
  rcases supported_cases h with rfl | rfl | rfl | rfl | rfl <;> rfl

theorem pinMode_run_unsupported {mode : BitVec 64} (h : ¬Supported mode) (p : PinState) :
    (pinMode mode).run p = p := by
  rw [pinMode, if_pos h]
  rfl

theorem tracks_modeSwitch (q : PinId) (mode : BitVec 64) :
    Tracks GpioState.pin q (modeSwitch q.bankNo q.pinNo mode) (pinSwitch mode) := by
  have hdir := setDirection_changes q
  have hnone := pullTo_changes q (v := rk3576PullNone) (by decide)
  have hup := pullTo_changes q (v := rk3576PullUp) (by decide)
  have hdown := pullTo_changes q (v := rk3576PullDown) (by decide)
  rw [modeSwitch, pinSwitch]
  split
  · exact tracks_upd hnone (tracks_upd (hdir true) tracks_done)
  split
  · exact tracks_upd (hdir false) (tracks_upd hnone tracks_done)
  split
  · exact tracks_upd (hdir false) (tracks_upd hup tracks_done)
  split
  · exact tracks_upd (hdir false) (tracks_upd hdown tracks_done)
  split
  · exact tracks_upd (hdir false) (tracks_upd (setValue_changes q false)
      (tracks_upd (setOpenDrain_changes q) tracks_done))
  · exact tracks_done

theorem tracks_pinMode (q : PinId) (mode : BitVec 64) :
    Tracks GpioState.pin q (rk3576PinMode q.number mode) (pinMode mode) := by
  have hmux : ∀ s : GpioState, (rk3576IomuxSet s.ioc q.bankNo q.pinNo 0).1 = .eok := fun s =>
    (set_accept .mux s.ioc (v := 0) ⟨checkPin_id q, by decide⟩).1
  simp only [rk3576PinMode, decode_number, hmux, ne_eq, not_true_eq_false, if_false]
  rw [pinMode]
  split
  · exact tracks_done
  · exact tracks_upd (muxGpio_changes q)
      (tracks_upd (clearOpenDrain_changes q) (tracks_modeSwitch q mode))

theorem tracks_pinWrite (q : PinId) (value : BitVec 64) :
    Tracks GpioState.pin q (rk3576PinWrite q.number value) (pinWrite value) := by
  simp only [rk3576PinWrite, decode_number]
  refine tracks_read (fun s => ?_) fun s t hst => ?_
  · simp only [openDrain_test]
    split
    · split
      · exact tracks_upd (setValue_changes q false)
          (tracks_upd (setDirection_changes q true) tracks_done)
      · exact tracks_upd (setDirection_changes q false) tracks_done
    · exact tracks_upd (setValue_changes q _) tracks_done
  · simp only [openDrain_test, hst]

inductive GpioCall where
  | pinMode (pin mode : BitVec 64)
  | pinWrite (pin value : BitVec 64)

def GpioCall.pin : GpioCall → BitVec 64
  | .pinMode pin _ => pin
  | .pinWrite pin _ => pin

def GpioCall.prog : GpioCall → Prog GpioState
  | .pinMode pin mode => rk3576PinMode pin mode
  | .pinWrite pin value => rk3576PinWrite pin value

def GpioCall.onPin : GpioCall → Prog PinState
  | .pinMode _ mode => Pin.pinMode mode
  | .pinWrite _ value => Pin.pinWrite value

theorem tracks_call {q : PinId} {c : GpioCall} (h : c.pin = q.number) :
    Tracks GpioState.pin q c.prog c.onPin := by
  cases c with
  | pinMode pin mode =>
    cases h
    exact tracks_pinMode q mode
  | pinWrite pin value =>
    cases h
    exact tracks_pinWrite q value

theorem prog_of_decode_none {c : GpioCall} (h : rk3576GpioDecode c.pin = none) :
    c.prog = .done := by
  cases c with
  | pinMode pin mode =>
    simp only [GpioCall.pin] at h
    simp only [GpioCall.prog, rk3576PinMode, h]
  | pinWrite pin value =>
    simp only [GpioCall.pin] at h
    simp only [GpioCall.prog, rk3576PinWrite, h]

/-- The driver is 160 pins side by side: a call runs on its own pin and leaves the others. -/
theorem run_call {q : PinId} {c : GpioCall} (h : c.pin = q.number) (s : GpioState) :
    (c.prog.run s).pin = Function.update s.pin q (c.onPin.run (s.pin q)) :=
  tracks_run (tracks_call h) s

end Rk3576.Pin
