import Mathlib.Data.Fintype.Basic
import Rk3576.Pin.Iomux

/-! The pin-control registers as a map from the 640 fields (four for each of the 160 pins) to
their values: where each field lies, that no two of them share a bit, and that every sequence of
calls acts on the map alone. -/
namespace Rk3576.Pin
open Rk3576.Hiword
open Rk3576.Gmac (RtErr)

inductive Family where
  | mux | pull | drive | schmitt
  deriving DecidableEq, Repr

instance : Fintype Family where
  elems := {.mux, .pull, .drive, .schmitt}
  complete f := by cases f <;> decide

def Family.bitsPerPin : Family → Nat
  | .mux | .drive => 4
  | .pull => 2
  | .schmitt => 1

def Family.pinsPerReg : Family → Nat
  | .mux | .drive => 4
  | .pull | .schmitt => 8

def Family.reg : Family → BitVec 32 → BitVec 32 → BitVec 32
  | .mux, bank, pin => iomuxReg bank pin
  | .pull, bank, pin => pullOffsets.base bank pin + pin / 8 * 4
  | .drive, bank, pin => drvOffsets.base bank pin + pin / 4 * 4
  | .schmitt, bank, pin => smtOffsets.base bank pin + pin / 8 * 4

structure PinField where
  family : Family
  bank : Fin 5
  pin : Fin 32
  deriving DecidableEq

namespace PinField

def bankNo (x : PinField) : BitVec 32 := BitVec.ofNat 32 x.bank
def pinNo (x : PinField) : BitVec 32 := BitVec.ofNat 32 x.pin

def bit (x : PinField) : Nat := x.pin % x.family.pinsPerReg * x.family.bitsPerPin

theorem bit_fits (x : PinField) : x.bit + x.family.bitsPerPin ≤ 16 := by
  cases x with
  | mk f b p => cases f <;> simp only [bit, Family.pinsPerReg, Family.bitsPerPin] <;> omega

def slot (x : PinField) : Slot (BitVec 32) where
  reg := x.family.reg x.bankNo x.pinNo
  shift := x.bit
  width := x.family.bitsPerPin
  fits := x.bit_fits

end PinField

/-- Consecutive registers of one family and bank. The first of them begins with pin `first`. -/
structure Segment where
  family : Family
  bank : Fin 5
  base : Nat
  first : Nat
  regs : Nat

/-- The hardware's register map, read from the register's side. -/
def segments : List Segment :=
  [⟨.mux, 0, 0x0000, 0, 3⟩, ⟨.mux, 0, 0x2000, 12, 5⟩, ⟨.mux, 1, 0x4020, 0, 8⟩,
    ⟨.mux, 2, 0x4040, 0, 8⟩,
   ⟨.mux, 3, 0x4060, 0, 8⟩, ⟨.mux, 4, 0x4080, 0, 4⟩, ⟨.mux, 4, 0xa390, 16, 2⟩,
   ⟨.mux, 4, 0xb398, 24, 2⟩,
   ⟨.drive, 0, 0x0010, 0, 3⟩, ⟨.drive, 0, 0x2014, 12, 5⟩, ⟨.drive, 1, 0x6020, 0, 8⟩,
   ⟨.drive, 2, 0x6040, 0, 8⟩,
   ⟨.drive, 3, 0x6060, 0, 8⟩, ⟨.drive, 4, 0x6080, 0, 4⟩, ⟨.drive, 4, 0xa090, 16, 2⟩,
   ⟨.drive, 4, 0xb098, 24, 2⟩,
   ⟨.pull, 0, 0x0020, 0, 2⟩, ⟨.pull, 0, 0x2028, 8, 3⟩, ⟨.pull, 1, 0x6110, 0, 4⟩,
   ⟨.pull, 2, 0x6120, 0, 4⟩,
   ⟨.pull, 3, 0x6130, 0, 4⟩, ⟨.pull, 4, 0x6140, 0, 2⟩, ⟨.pull, 4, 0xa148, 16, 1⟩,
   ⟨.pull, 4, 0xb14c, 24, 1⟩,
   ⟨.schmitt, 0, 0x0030, 0, 2⟩, ⟨.schmitt, 0, 0x2040, 8, 3⟩, ⟨.schmitt, 1, 0x6210, 0, 4⟩,
   ⟨.schmitt, 2, 0x6220, 0, 4⟩, ⟨.schmitt, 3, 0x6230, 0, 4⟩, ⟨.schmitt, 4, 0x6240, 0, 2⟩,
   ⟨.schmitt, 4, 0xa248, 16, 1⟩, ⟨.schmitt, 4, 0xb24c, 24, 1⟩]

def fieldAt (reg : BitVec 32) (i : Nat) : Option PinField :=
  (segments.find? fun s => s.base ≤ reg.toNat ∧ reg.toNat < s.base + 4 * s.regs).map fun s =>
    ⟨s.family, s.bank,
      Fin.ofNat 32
        (s.first + (reg.toNat - s.base) / 4 * s.family.pinsPerReg + i / s.family.bitsPerPin)⟩

theorem fieldAt_slot (x : PinField) (i : Nat) (hi : i < x.slot.width) :
    fieldAt x.slot.reg (x.slot.shift + i) = some x := by
  have h : ∀ f b p, ∀ i < f.bitsPerPin,
      fieldAt (PinField.mk f b p).slot.reg ((PinField.mk f b p).slot.shift + i) =
          some ⟨f, b, p⟩ := by
    decide +kernel
  exact h x.family x.bank x.pin i hi

/-- The four address maps are injective and do not overlap: a shared bit has one owner. -/
theorem slot_disjoint {x y : PinField} (hne : x ≠ y) : x.slot.Disjoint y.slot := by
  intro hr
  by_contra ho
  have hpos : ∀ f : Family, 0 < f.bitsPerPin := by decide
  have hwx : 0 < x.slot.width := hpos x.family
  have hwy : 0 < y.slot.width := hpos y.family
  have hax := fieldAt_slot x (max x.slot.shift y.slot.shift - x.slot.shift) (by omega)
  have hay := fieldAt_slot y (max x.slot.shift y.slot.shift - y.slot.shift) (by omega)
  have hsx : x.slot.shift + (max x.slot.shift y.slot.shift - x.slot.shift) =
      max x.slot.shift y.slot.shift := by
    omega
  have hsy : y.slot.shift + (max x.slot.shift y.slot.shift - y.slot.shift) =
      max x.slot.shift y.slot.shift := by
    omega
  rw [hsx, hr] at hax
  rw [hsy, hax] at hay
  exact hne (Option.some.inj hay)

/-- Whether a family has the value at all; the schmitt trigger takes any truth value. -/
def Family.accepts : Family → BitVec 32 → Bool
  | .mux, v => v ≤ 15
  | .pull, v => v ≤ 2
  | .drive, v => v ≤ 7
  | .schmitt, _ => true

/-- The hardware's encoding: the number itself for the mux; 0, 3 and 1 for no pull, up and down;
the three bits of the drive level in reverse order; one bit for the trigger. -/
def Family.encode : Family → BitVec 32 → BitVec 16
  | .mux, v => v.setWidth 16
  | .pull, v => if v = rk3576PullUp then 3 else if v = rk3576PullDown then 1 else 0
  | .drive, v => ((v.setWidth 3).reverse).setWidth 16
  | .schmitt, v => if v = 0 then 0 else 1

def Family.set : Family → IocRegs → BitVec 32 → BitVec 32 → BitVec 32 → RtErr × IocRegs
  | .mux => rk3576IomuxSet
  | .pull => rk3576PullSet
  | .drive => rk3576DriveSet
  | .schmitt => rk3576SchmittSet

def PinField.store (x : PinField) (r : IocRegs) (e : BitVec 16) : IocRegs :=
  write r x.slot.reg (word x.slot.mask (e.setWidth 32 <<< x.bit))

theorem get_store (x : PinField) (r : IocRegs) (e : BitVec 16) :
    x.slot.get (x.store r e) = (e.setWidth x.family.bitsPerPin).setWidth 16 := by
  have hf := x.bit_fits
  have hw : x.slot.width = x.family.bitsPerPin := rfl
  have hs : x.slot.shift = x.bit := rfl
  rw [PinField.store, Slot.get_write _ _ (Slot.enabled_of_and BitVec.and_self), hw, hs]
  ext i hi
  simp only [BitVec.getElem_setWidth, BitVec.getLsbD_setWidth, BitVec.getLsbD_ushiftRight,
    BitVec.getLsbD_shiftLeft]
  by_cases hb : i < x.family.bitsPerPin
  · have h32 : x.bit + i < 32 := by omega
    have hi32 : i < 32 := by omega
    simp [hb, h32, hi32]
  · simp [hb]

theorem get_store_ne {x y : PinField} (hne : x ≠ y) (r : IocRegs) (e : BitVec 16) :
    y.slot.get (x.store r e) = y.slot.get r :=
  Slot.get_write_disjoint r (slot_disjoint hne)

/-- Outside the schmitt family every accepted value is one of sixteen. -/
theorem accepts_small {f : Family} {v : BitVec 32} (hf : f ≠ .schmitt) (h : f.accepts v) :
    ∃ k : Fin 16, v = BitVec.ofNat 32 k := by
  have hv : v.toNat < 16 := by
    cases f with
    | mux =>
      have : v ≤ 15 := by simpa [Family.accepts] using h
      bv_omega
    | pull =>
      have : v ≤ 2 := by simpa [Family.accepts] using h
      bv_omega
    | drive =>
      have : v ≤ 7 := by simpa [Family.accepts] using h
      bv_omega
    | schmitt => contradiction
  exact ⟨⟨v.toNat, hv⟩, by simp⟩

theorem encode_fits (f : Family) {v : BitVec 32} (h : f.accepts v) :
    ((f.encode v).setWidth f.bitsPerPin).setWidth 16 = f.encode v := by
  by_cases hf : f = .schmitt
  · subst hf
    by_cases hv : v = 0
    · simp [Family.encode, hv]
    · simp only [Family.encode, hv, if_false]
      decide
  · have hall : ∀ f : Family, f ≠ .schmitt → ∀ k : Fin 16, f.accepts (BitVec.ofNat 32 k) →
        ((f.encode (BitVec.ofNat 32 k)).setWidth f.bitsPerPin).setWidth 16 =
            f.encode (BitVec.ofNat 32 k) := by
      decide +kernel
    obtain ⟨k, rfl⟩ := accepts_small hf h
    exact hall f hf k h

theorem checkPin_eok_iff (bank pin : BitVec 32) :
    rk3576CheckPin bank pin = .eok ↔ bank < 5 ∧ pin < 32 := by
  simp [rk3576CheckPin]

theorem checkPin_field (x : PinField) : rk3576CheckPin x.bankNo x.pinNo = .eok := by
  have h : ∀ (b : Fin 5) (p : Fin 32), rk3576CheckPin (BitVec.ofNat 32 b) (BitVec.ofNat 32 p) =
    .eok := by decide
  exact h x.bank x.pin

theorem exists_field (f : Family) {bank pin : BitVec 32} (h : rk3576CheckPin bank pin = .eok) :
    ∃ x : PinField, x.family = f ∧ bank = x.bankNo ∧ pin = x.pinNo := by
  have hb := (checkPin_eok_iff bank pin).mp h
  exact ⟨⟨f, ⟨bank.toNat, by bv_omega⟩, ⟨pin.toNat, by bv_omega⟩⟩, rfl, by simp [PinField.bankNo],
    by simp [PinField.pinNo]⟩

theorem shift_toNat (p : Fin 32) :
    (BitVec.ofNat 32 p % 4 * 4).toNat = p % 4 * 4 ∧ (BitVec.ofNat 32 p % 8 * 2).toNat = p % 8 * 2 ∧
      (BitVec.ofNat 32 p % 8 * 1).toNat = p % 8 * 1 := by
  revert p
  decide

theorem write_eq_store (x : PinField) (r : IocRegs) {reg mask value shift : BitVec 32}
    {e : BitVec 16} (hr : reg = x.family.reg x.bankNo x.pinNo) (hs : shift.toNat = x.bit)
    (hm : mask = (1#32 <<< x.family.bitsPerPin) - 1) (hv : value = e.setWidth 32) :
    rk3576IocWrite r reg (word (mask <<< shift) (value <<< shift)) = x.store r e := by
  rw [PinField.store, Slot.mask, rk3576IocWrite, BitVec.shiftLeft_eq', BitVec.shiftLeft_eq',
    hs, hm, hv, hr]
  rfl

section Setters
variable (r : IocRegs) (b : Fin 5) (p : Fin 32) {v : BitVec 32}

theorem iomuxSet_eq (h : Family.mux.accepts v) :
    let x : PinField := ⟨.mux, b, p⟩
    rk3576IomuxSet r x.bankNo x.pinNo v = (.eok, x.store r (Family.mux.encode v)) := by
  intro x
  obtain ⟨k, rfl⟩ := accepts_small (by decide) h
  have hk : ∀ k : Fin 16, ¬BitVec.ofNat 32 k > 0xf ∧
      BitVec.ofNat 32 k &&& 0xf = (Family.mux.encode (BitVec.ofNat 32 k)).setWidth 32 := by decide
  have hm : 0xf#32 = (1#32 <<< 4) - 1 := by decide
  rw [rk3576IomuxSet, checkPin_field, if_neg (not_or.mpr ⟨not_not.mpr rfl, (hk k).1⟩)]
  exact congrArg (Prod.mk RtErr.eok) (write_eq_store x r rfl (shift_toNat p).1 hm (hk k).2)

theorem pullSet_eq (h : Family.pull.accepts v) :
    let x : PinField := ⟨.pull, b, p⟩
    rk3576PullSet r x.bankNo x.pinNo v = (.eok, x.store r (Family.pull.encode v)) := by
  intro x
  obtain ⟨k, rfl⟩ := accepts_small (by decide) h
  have hk : ∀ k : Fin 16, Family.pull.accepts (BitVec.ofNat 32 k) →
      pullHw (BitVec.ofNat 32 k) = some ((Family.pull.encode (BitVec.ofNat 32 k)).setWidth 32) := by
        decide
  rw [rk3576PullSet, rk3576PullRegBit, regBit, checkPin_field, if_neg (not_not.mpr rfl)]
  simp only [hk k h]
  exact congrArg (Prod.mk RtErr.eok) (write_eq_store x r rfl (shift_toNat p).2.1 rfl rfl)

theorem driveSet_eq (h : Family.drive.accepts v) :
    let x : PinField := ⟨.drive, b, p⟩
    rk3576DriveSet r x.bankNo x.pinNo v = (.eok, x.store r (Family.drive.encode v)) := by
  intro x
  obtain ⟨k, rfl⟩ := accepts_small (by decide) h
  have hk : ∀ k : Fin 16, Family.drive.accepts (BitVec.ofNat 32 k) → ¬BitVec.ofNat 32 k > 7 ∧
      ((BitVec.ofNat 32 k &&& (1#32 <<< 2)) >>> 2) |||
        ((BitVec.ofNat 32 k &&& (1#32 <<< 0)) <<< 2) |||
        (BitVec.ofNat 32 k &&& (1#32 <<< 1)) =
          (Family.drive.encode (BitVec.ofNat 32 k)).setWidth 32 := by decide
  rw [rk3576DriveSet, if_neg (hk k h).1, rk3576DriveRegBit, regBit, checkPin_field,
    if_neg (not_not.mpr rfl)]
  exact congrArg (Prod.mk RtErr.eok) (write_eq_store x r rfl (shift_toNat p).1 rfl (hk k h).2)

theorem schmittSet_eq (v : BitVec 32) :
    let x : PinField := ⟨.schmitt, b, p⟩
    rk3576SchmittSet r x.bankNo x.pinNo v = (.eok, x.store r (Family.schmitt.encode v)) := by
  intro x
  have hv : ∀ s : BitVec 32, (if v ≠ 0 then ((1#32 <<< 1) - 1) <<< s else 0) =
      (Family.schmitt.encode v).setWidth 32 <<< s := by
    intro s
    by_cases h : v = 0
    · rw [Family.encode, if_neg (not_not.mpr h), if_pos h]
      simp
    · rw [Family.encode, if_pos h, if_neg h]
      rfl
  rw [rk3576SchmittSet, rk3576SchmittRegBit, regBit, checkPin_field, if_neg (not_not.mpr rfl)]
  simp only [hv]
  exact congrArg (Prod.mk RtErr.eok) (write_eq_store x r rfl (shift_toNat p).2.2 rfl rfl)

end Setters

theorem set_eq (x : PinField) (r : IocRegs) {v : BitVec 32} (h : x.family.accepts v) :
    x.family.set r x.bankNo x.pinNo v = (.eok, x.store r (x.family.encode v)) := by
  cases x with
  | mk f b p =>
    cases f with
    | mux => exact iomuxSet_eq r b p h
    | pull => exact pullSet_eq r b p h
    | drive => exact driveSet_eq r b p h
    | schmitt => exact schmittSet_eq r b p v

theorem set_reject (f : Family) (r : IocRegs) {bank pin v : BitVec 32}
    (h : ¬(rk3576CheckPin bank pin = .eok ∧ f.accepts v)) : f.set r bank pin v = (.einval, r) := by
  by_cases hc : rk3576CheckPin bank pin = .eok
  · have hv : ¬f.accepts v := fun hv => h ⟨hc, hv⟩
    cases f with
    | mux =>
      have hv : v > 0xf := by simpa [Family.accepts] using hv
      exact if_pos (Or.inr hv)
    | pull =>
      have hv : pullHw v = none := by
        have hn : ∀ k : BitVec 32, k ≤ 2 → v ≠ k := by
          rintro k hk rfl
          exact hv (by simpa [Family.accepts] using hk)
        rw [pullHw, if_neg (hn _ (by decide)), if_neg (hn _ (by decide)), if_neg (hn _ (by decide))]
      simp only [Family.set, rk3576PullSet, hv]
      split <;> rfl
    | drive =>
      have hv : v > 7 := by simpa [Family.accepts] using hv
      exact if_pos hv
    | schmitt => simp [Family.accepts] at hv
  · have hn : ∀ o q n, regBit o q n bank pin = none := fun o q n => if_pos hc
    cases f with
    | mux => exact if_pos (Or.inl hc)
    | pull => simp only [Family.set, rk3576PullSet, rk3576PullRegBit, hn]
    | drive =>
      simp only [Family.set, rk3576DriveSet, rk3576DriveRegBit, hn]
      split <;> rfl
    | schmitt => simp only [Family.set, rk3576SchmittSet, rk3576SchmittRegBit, hn]

inductive IocCall where
  | iomuxSet (bank pin mux : BitVec 32)
  | pullSet (bank pin pull : BitVec 32)
  | driveSet (bank pin level : BitVec 32)
  | schmittSet (bank pin enable : BitVec 32)
  | uartIomuxInit (id muxGroup : BitVec 32)

def iocCall (r : IocRegs) : IocCall → RtErr × IocRegs
  | .iomuxSet bank pin mux => rk3576IomuxSet r bank pin mux
  | .pullSet bank pin pull => rk3576PullSet r bank pin pull
  | .driveSet bank pin level => rk3576DriveSet r bank pin level
  | .schmittSet bank pin enable => rk3576SchmittSet r bank pin enable
  | .uartIomuxInit id muxGroup => rk3576UartIomuxInit r id muxGroup

def iocRun (r : IocRegs) : List IocCall → IocRegs
  | [] => r
  | c :: cs => iocRun (iocCall r c).2 cs

def PinField.Is (x : PinField) (f : Family) (bank pin : BitVec 32) : Prop :=
  x.family = f ∧ bank = x.bankNo ∧ pin = x.pinNo

instance (x : PinField) (f : Family) (bank pin : BitVec 32) : Decidable (x.Is f bank pin) :=
  inferInstanceAs (Decidable (x.family = f ∧ bank = x.bankNo ∧ pin = x.pinNo))

def PinField.IsOf (x : PinField) (f : Family) (p : UartPin) : Prop :=
  x.Is f (p.bank.setWidth 32) (p.pin.setWidth 32)

instance (x : PinField) (f : Family) (p : UartPin) : Decidable (x.IsOf f p) :=
  inferInstanceAs (Decidable (x.Is f (p.bank.setWidth 32) (p.pin.setWidth 32)))

/-- The value a call gives to a field, `none` if the call is not for that pin and family. The
UART call is for the mux and the pull of its two pins. -/
def IocCall.gives (x : PinField) : IocCall → Option (BitVec 32)
  | .iomuxSet bank pin mux => if x.Is .mux bank pin then some mux else none
  | .pullSet bank pin pull => if x.Is .pull bank pin then some pull else none
  | .driveSet bank pin level => if x.Is .drive bank pin then some level else none
  | .schmittSet bank pin enable => if x.Is .schmitt bank pin then some enable else none
  | .uartIomuxInit id muxGroup =>
    let group := rk3576UartIomux id.toNat muxGroup.toNat
    if x.IsOf .mux group.tx then some (group.tx.mux.setWidth 32)
    else if x.IsOf .mux group.rx then some (group.rx.mux.setWidth 32)
    else if x.IsOf .pull group.rx ∨ x.IsOf .pull group.tx then some rk3576PullUp
    else none

def lastGiven (x : PinField) (r : IocRegs) : List IocCall → Option (BitVec 32)
  | [] => none
  | c :: cs =>
    (lastGiven x (iocCall r c).2 cs).or (if (iocCall r c).1 = .eok then c.gives x else none)

theorem is_iff_eq (x y : PinField) : x.Is y.family y.bankNo y.pinNo ↔ x = y := by
  constructor
  · rintro ⟨hf, hb, hp⟩
    have hb' := congrArg BitVec.toNat hb
    have hp' := congrArg BitVec.toNat hp
    cases x
    cases y
    simp only [PinField.bankNo, PinField.pinNo, BitVec.toNat_ofNat, PinField.mk.injEq,
      Fin.ext_iff] at *
    exact ⟨hf, by omega, by omega⟩
  · rintro rfl
    exact ⟨rfl, rfl, rfl⟩

/-- An accepted setter changes its own field and no other. -/
theorem set_accept (f : Family) (r : IocRegs) {bank pin v : BitVec 32}
    (h : rk3576CheckPin bank pin = .eok ∧ f.accepts v) :
    (f.set r bank pin v).1 = .eok ∧ ∀ x : PinField, x.slot.get (f.set r bank pin v).2 =
      if x.Is f bank pin then f.encode v else x.slot.get r := by
  obtain ⟨y, rfl, rfl, rfl⟩ := exists_field f h.1
  rw [set_eq y r h.2]
  refine ⟨rfl, fun x => ?_⟩
  by_cases hx : y = x
  · subst hx
    rw [if_pos ⟨rfl, rfl, rfl⟩, get_store, encode_fits _ h.2]
  · rw [if_neg (mt (is_iff_eq x y).mp (Ne.symm hx)), get_store_ne hx]

/-- What one call does: it fails and writes nothing, or every field holds the encoding of the
value given to it, or what it held before if it was given none. -/
def CallSpec (r : IocRegs) (c : IocCall) : Prop :=
  iocCall r c = (.einval, r) ∨ ((iocCall r c).1 = .eok ∧
    ∀ x : PinField, x.slot.get (iocCall r c).2 = (c.gives x).elim (x.slot.get r) x.family.encode)

theorem callSpec_of_set (f : Family) {r : IocRegs} {c : IocCall} {bank pin v : BitVec 32}
    (hc : iocCall r c = f.set r bank pin v)
    (hg : ∀ x, c.gives x = if x.Is f bank pin then some v else none) : CallSpec r c := by
  by_cases h : rk3576CheckPin bank pin = .eok ∧ f.accepts v
  · right
    obtain ⟨he, hx⟩ := set_accept f r h
    refine ⟨hc ▸ he, fun x => ?_⟩
    rw [hc, hx, hg]
    by_cases his : x.Is f bank pin
    · rw [if_pos his, if_pos his, ← his.1]
      rfl
    · rw [if_neg his, if_neg his]
      rfl
  · left
    rw [hc, set_reject f r h]

def UartPin.Good (p : UartPin) : Prop :=
  rk3576CheckPin (p.bank.setWidth 32) (p.pin.setWidth 32) = .eok ∧
  Family.mux.accepts (p.mux.setWidth 32)

instance (p : UartPin) : Decidable p.Good :=
  inferInstanceAs (Decidable (rk3576CheckPin (p.bank.setWidth 32) (p.pin.setWidth 32) = .eok ∧
    Family.mux.accepts (p.mux.setWidth 32)))

theorem uartIomux_good {id muxGroup : BitVec 32} (hi : ¬(id ≥ 12 ∨ muxGroup ≥ 4)) :
    (rk3576UartIomux id.toNat muxGroup.toNat).rx.Good ∧
    (rk3576UartIomux id.toNat muxGroup.toNat).tx.Good := by
  have h : ∀ (i : Fin 12) (g : Fin 4), (rk3576UartIomux i g).rx.Good ∧
      (rk3576UartIomux i g).tx.Good := by
    decide +kernel
  have hid : id.toNat < 12 := by bv_omega
  have hg : muxGroup.toNat < 4 := by bv_omega
  exact h ⟨id.toNat, hid⟩ ⟨muxGroup.toNat, hg⟩

theorem iomuxSet_good {p : UartPin} (hp : p.Good) (r : IocRegs) :
    (p.iomuxSet r).1 = .eok ∧ ∀ x : PinField, x.slot.get (p.iomuxSet r).2 =
      if x.IsOf .mux p then Family.mux.encode (p.mux.setWidth 32) else x.slot.get r :=
  set_accept .mux r hp

theorem pullUp_good {p : UartPin} (hp : p.Good) (r : IocRegs) :
    (p.pullUp r).1 = .eok ∧ ∀ x : PinField, x.slot.get (p.pullUp r).2 =
      if x.IsOf .pull p then Family.pull.encode rk3576PullUp else x.slot.get r :=
  set_accept .pull r ⟨hp.1, by decide⟩

theorem andThen_of_eok {x : RtErr × IocRegs} {f : IocRegs → RtErr × IocRegs} (h : x.1 = .eok) :
    andThen x f = f x.2 :=
  if_neg (not_not.mpr h)

theorem uartIomuxInit_valid (r : IocRegs) {id muxGroup : BitVec 32} (hi : ¬(id ≥ 12 ∨ muxGroup ≥ 4))
    {group : UartIomuxGroup} (hg : rk3576UartIomux id.toNat muxGroup.toNat = group)
    (hv : ¬group.valid = 0) :
    (rk3576UartIomuxInit r id muxGroup).1 = .eok ∧
    ∀ x : PinField, x.slot.get (rk3576UartIomuxInit r id muxGroup).2 =
      if x.IsOf .pull group.tx then Family.pull.encode rk3576PullUp
      else if x.IsOf .pull group.rx then Family.pull.encode rk3576PullUp
      else if x.IsOf .mux group.tx then Family.mux.encode (group.tx.mux.setWidth 32)
      else if x.IsOf .mux group.rx then Family.mux.encode (group.rx.mux.setWidth 32)
      else x.slot.get r := by
  obtain ⟨hrx, htx⟩ := uartIomux_good hi
  rw [hg] at hrx htx
  obtain ⟨e1, g1⟩ := iomuxSet_good hrx r
  obtain ⟨e2, g2⟩ := iomuxSet_good htx (group.rx.iomuxSet r).2
  obtain ⟨e3, g3⟩ := pullUp_good hrx (group.tx.iomuxSet (group.rx.iomuxSet r).2).2
  obtain ⟨e4, g4⟩ :=
    pullUp_good htx (group.rx.pullUp (group.tx.iomuxSet (group.rx.iomuxSet r).2).2).2
  have hcall : rk3576UartIomuxInit r id muxGroup =
      group.tx.pullUp (group.rx.pullUp (group.tx.iomuxSet (group.rx.iomuxSet r).2).2).2 := by
    simp only [rk3576UartIomuxInit, hg, if_neg hi, if_neg hv]
    rw [andThen_of_eok e1, andThen_of_eok e2, andThen_of_eok e3]
  rw [hcall]
  refine ⟨e4, fun x => ?_⟩
  rw [g4, g3, g2, g1]

theorem callSpec_uart (r : IocRegs) (id muxGroup : BitVec 32) :
    CallSpec r (.uartIomuxInit id muxGroup) := by
  by_cases hi : id ≥ 12 ∨ muxGroup ≥ 4
  · exact Or.inl (if_pos hi)
  generalize hg : rk3576UartIomux id.toNat muxGroup.toNat = group
  by_cases hv : group.valid = 0
  · left
    simp only [iocCall, rk3576UartIomuxInit, hg, if_neg hi, if_pos hv]
  · right
    obtain ⟨he, hx⟩ := uartIomuxInit_valid r hi hg hv
    refine ⟨he, fun x => (hx x).trans ?_⟩
    -- a mux field is no pull field, so the order of the two pairs does not matter
    have hmux : ∀ p, x.IsOf .mux p → x.family = .mux := fun p h => h.1
    have hpull : ∀ p, x.IsOf .pull p → x.family = .pull := fun p h => h.1
    simp only [IocCall.gives, hg]
    by_cases hp : x.IsOf .pull group.rx ∨ x.IsOf .pull group.tx
    · have hf : x.family = .pull := hp.elim (hpull _) (hpull _)
      have hn : ∀ p, ¬x.IsOf .mux p := fun p h => by simp [hmux p h] at hf
      simp only [hn, if_false]
      rw [if_pos hp, Option.elim_some, hf]
      by_cases ht : x.IsOf .pull group.tx
      · rw [if_pos ht]
      · rw [if_neg ht, if_pos (hp.resolve_right ht)]
    · rw [if_neg (fun h => hp (Or.inr h)), if_neg (fun h => hp (Or.inl h)), if_neg hp]
      by_cases ht : x.IsOf .mux group.tx
      · rw [if_pos ht, if_pos ht, Option.elim_some, hmux _ ht]
      · rw [if_neg ht, if_neg ht]
        by_cases hr : x.IsOf .mux group.rx
        · rw [if_pos hr, if_pos hr, Option.elim_some, hmux _ hr]
        · rw [if_neg hr, if_neg hr, Option.elim_none]

theorem callSpec (r : IocRegs) (c : IocCall) : CallSpec r c := by
  cases c with
  | iomuxSet bank pin mux => exact callSpec_of_set .mux rfl fun _ => rfl
  | pullSet bank pin pull => exact callSpec_of_set .pull rfl fun _ => rfl
  | driveSet bank pin level => exact callSpec_of_set .drive rfl fun _ => rfl
  | schmittSet bank pin enable => exact callSpec_of_set .schmitt rfl fun _ => rfl
  | uartIomuxInit id muxGroup => exact callSpec_uart r id muxGroup

theorem iocCall_get (r : IocRegs) (c : IocCall) (x : PinField) :
    x.slot.get (iocCall r c).2 =
      (if (iocCall r c).1 = .eok then c.gives x else none).elim (x.slot.get r) x.family.encode := by
  cases callSpec r c with
  | inl h => rw [h]; rfl
  | inr h => rw [if_pos h.1, h.2 x]

theorem iocRun_get (x : PinField) (r : IocRegs) (cs : List IocCall) :
    x.slot.get (iocRun r cs) = (lastGiven x r cs).elim (x.slot.get r) x.family.encode := by
  induction cs generalizing r with
  | nil => rfl
  | cons c cs ih =>
    rw [iocRun, ih, lastGiven]
    cases h : lastGiven x (iocCall r c).2 cs with
    | none => rw [Option.elim_none, Option.none_or, iocCall_get r c x]
    | some v => rfl

/-- The register file refines the map: after any calls each field holds the encoding of the last
value accepted for it, or what it held at first; the next call, if it fails, writes nothing, and
if it succeeds, leaves every field it is not for. -/
theorem iocRun_refines_pinMap (r : IocRegs) (cs : List IocCall) :
    (∀ x : PinField,
      x.slot.get (iocRun r cs) = (lastGiven x r cs).elim (x.slot.get r) x.family.encode) ∧
      ∀ c : IocCall,
        ((iocCall (iocRun r cs) c).1 ≠ .eok → (iocCall (iocRun r cs) c).2 = iocRun r cs) ∧
        ((iocCall (iocRun r cs) c).1 = .eok → ∀ x : PinField, c.gives x = none →
          x.slot.get (iocCall (iocRun r cs) c).2 = x.slot.get (iocRun r cs)) := by
  refine ⟨fun x => iocRun_get x r cs, fun c => ⟨fun he => ?_, fun he x hx => ?_⟩⟩
  · cases callSpec (iocRun r cs) c with
    | inl h => rw [h]
    | inr h => exact absurd h.1 he
  · rw [iocCall_get, if_pos he, hx, Option.elim_none]

end Rk3576.Pin
