import Mathlib.Algebra.Group.Nat.Defs
import Mathlib.Logic.Function.Basic

/-! Registers of sixteen payload bits written through a 32-bit word whose upper half enables
each bit of the lower half, and bit fields inside them. A write needs no read before it, so two
writers of different fields never undo each other. -/
namespace Rk3576.Hiword
variable {A : Type*}

def merge (old : BitVec 16) (w : BitVec 32) : BitVec 16 :=
  let mask := (w >>> 16).setWidth 16
  (old &&& ~~~mask) ||| (w.setWidth 16 &&& mask)

/-- The word that puts `value` in the bits of `mask`. -/
def word (mask value : BitVec 32) : BitVec 32 :=
  ((mask &&& 0xffff#32) <<< 16) ||| (value &&& 0xffff#32)

def write [DecidableEq A] (r : A → BitVec 16) (a : A) (w : BitVec 32) : A → BitVec 16 :=
  Function.update r a (merge (r a) w)

theorem lowHalf_bit {i : Nat} (hi : i < 32) : (0xffff#32).getLsbD i = decide (i < 16) := by
  have h : ∀ j < 32, (0xffff#32).getLsbD j = decide (j < 16) := by decide
  exact h i hi

theorem word_low (mask value : BitVec 32) : (word mask value).setWidth 16 = value.setWidth 16 := by
  ext i hi
  have hb : (0xffff#32).getLsbD i = true := by rw [lowHalf_bit (by omega)]; simp [hi]
  simp only [word, BitVec.getElem_setWidth, BitVec.getLsbD_or, BitVec.getLsbD_shiftLeft,
    BitVec.getLsbD_and, hb]
  simp [hi]

theorem word_high (mask value : BitVec 32) :
    (word mask value >>> 16).setWidth 16 = mask.setWidth 16 := by
  ext i hi
  have hb : (0xffff#32).getLsbD i = true := by rw [lowHalf_bit (by omega)]; simp [hi]
  have hc : (0xffff#32).getLsbD (16 + i) = false := by rw [lowHalf_bit (by omega)]; simp
  simp only [word, BitVec.getElem_setWidth, BitVec.getLsbD_ushiftRight, BitVec.getLsbD_or,
    BitVec.getLsbD_shiftLeft, BitVec.getLsbD_and, hc]
  have hs : 16 + i < 32 := by omega
  simp [hb, hs]

/-- One bit of a written register: the value's where the mask names it, else the old one. -/
theorem merge_bit (old : BitVec 16) (mask value : BitVec 32) (i : Nat) (hi : i < 16) :
    (merge old (word mask value)).getLsbD i =
      if mask.getLsbD i then value.getLsbD i else old.getLsbD i := by
  rw [merge, word_low, word_high]
  cases hm : mask.getLsbD i with
  | true => simp [hm, hi]
  | false => simp [hm, hi]

theorem merge_and (old : BitVec 16) {mask : BitVec 32} (hm : mask.toNat < 2 ^ 16)
    (value : BitVec 32) :
    (merge old (word mask value)).setWidth 32 &&& mask = value &&& mask := by
  ext i hi
  rw [← BitVec.getLsbD_eq_getElem, ← BitVec.getLsbD_eq_getElem, BitVec.getLsbD_and,
    BitVec.getLsbD_and]
  cases hb : mask.getLsbD i with
  | false => rw [Bool.and_false, Bool.and_false]
  | true =>
    have h16 : i < 16 := by
      by_contra hge
      have hz : mask.getLsbD i = false :=
        Nat.testBit_lt_two_pow (Nat.lt_of_lt_of_le hm (Nat.pow_le_pow_right (by decide) (by omega)))
      rw [hb] at hz
      cases hz
    rw [BitVec.getLsbD_setWidth, merge_bit old mask value i h16, hb, if_pos rfl, decide_eq_true hi,
      Bool.true_and]

theorem merge_rest (old : BitVec 16) (mask value : BitVec 32) :
    merge old (word mask value) &&& ~~~(mask.setWidth 16) = old &&& ~~~(mask.setWidth 16) := by
  ext i hi
  rw [← BitVec.getLsbD_eq_getElem, ← BitVec.getLsbD_eq_getElem, BitVec.getLsbD_and,
    BitVec.getLsbD_and, merge_bit _ _ _ _ hi]
  cases hm : mask.getLsbD i with
  | true => simp [hm, hi]
  | false => simp

/-- A field of a register: `width` bits from `shift` on, all of them payload bits. -/
structure Slot (A : Type*) where
  reg : A
  shift : Nat
  width : Nat
  fits : shift + width ≤ 16

def Slot.get (s : Slot A) (r : A → BitVec 16) : BitVec 16 :=
  ((r s.reg).extractLsb' s.shift s.width).setWidth 16

def Slot.Disjoint (s t : Slot A) : Prop :=
  s.reg = t.reg → s.shift + s.width ≤ t.shift ∨ t.shift + t.width ≤ s.shift

theorem Slot.get_bit (s : Slot A) (r : A → BitVec 16) (i : Nat) :
    (s.get r).getLsbD i = (decide (i < s.width) && (r s.reg).getLsbD (s.shift + i)) := by
  have hf := s.fits
  by_cases hi : i < s.width
  · have h16 : i < 16 := by omega
    simp [Slot.get, hi, h16]
  · simp [Slot.get, hi]

/-- A mask that names exactly the bits of the slot. -/
def Slot.Covers (s : Slot A) (mask : BitVec 32) : Prop :=
  ∀ i < 16, mask.getLsbD i = decide (s.shift ≤ i ∧ i < s.shift + s.width)

def Slot.mask (s : Slot A) : BitVec 32 := ((1#32 <<< s.width) - 1) <<< s.shift

theorem Slot.mask_covers (s : Slot A) : s.Covers s.mask := by
  have h : ∀ w : Nat, w ≤ 16 → ∀ sh : Nat, sh ≤ 16 → sh + w ≤ 16 → ∀ i < 16,
      (((1#32 <<< w) - 1) <<< sh).getLsbD i = decide (sh ≤ i ∧ i < sh + w) := by decide +kernel
  have hf := s.fits
  exact h s.width (by omega) s.shift (by omega) hf

theorem Slot.mask_lt (s : Slot A) : s.mask.toNat < 2 ^ 16 := by
  have h : ∀ w : Nat, w ≤ 16 → ∀ sh : Nat, sh ≤ 16 → sh + w ≤ 16 →
      (((1#32 <<< w) - 1) <<< sh).toNat < 2 ^ 16 := by decide +kernel
  have hf := s.fits
  exact h s.width (by omega) s.shift (by omega) hf

/-- A mask that names all bits of the slot. -/
def Slot.Enabled (s : Slot A) (mask : BitVec 32) : Prop :=
  ∀ i, s.shift ≤ i → i < s.shift + s.width → mask.getLsbD i = true

theorem Slot.enabled_of_and {s : Slot A} {mask : BitVec 32} (h : s.mask &&& mask = s.mask) :
    s.Enabled mask := by
  intro i hl hu
  have hf := s.fits
  have hc := s.mask_covers i (by omega)
  rw [← h, BitVec.getLsbD_and] at hc
  simp only [hl, hu, and_self, decide_true, Bool.and_eq_true] at hc
  exact hc.2

theorem Slot.read_eq (s : Slot A) (r : A → BitVec 16) :
    ((r s.reg).setWidth 32 &&& s.mask) >>> s.shift = (s.get r).setWidth 32 := by
  have hf := s.fits
  have hm := s.mask_covers
  ext i hi
  rw [← BitVec.getLsbD_eq_getElem, ← BitVec.getLsbD_eq_getElem, BitVec.getLsbD_ushiftRight,
    BitVec.getLsbD_and, BitVec.getLsbD_setWidth, BitVec.getLsbD_setWidth, Slot.get_bit]
  by_cases hw : i < s.width
  · have hb : s.shift + i < 16 := by omega
    rw [hm _ hb]
    have h32 : s.shift + i < 32 := by omega
    simp [hw, hi, h32]
  · have hz : s.mask.getLsbD (s.shift + i) = false := by
      by_cases hb : s.shift + i < 16
      · rw [hm _ hb]
        simp [hw]
      · exact Nat.testBit_lt_two_pow
          (Nat.lt_of_lt_of_le s.mask_lt (Nat.pow_le_pow_right (by decide) (by omega)))
    simp [hw, hz]

variable [DecidableEq A]

theorem Slot.get_write (s : Slot A) (r : A → BitVec 16) {mask value : BitVec 32}
    (hm : s.Enabled mask) :
    s.get (write r s.reg (word mask value)) =
      ((value >>> s.shift).setWidth s.width).setWidth 16 := by
  have hf := s.fits
  ext i hi
  rw [← BitVec.getLsbD_eq_getElem, ← BitVec.getLsbD_eq_getElem, Slot.get_bit]
  by_cases hw : i < s.width
  · have hb : s.shift + i < 16 := by omega
    rw [write, Function.update_self, merge_bit _ _ _ _ hb, hm _ (by omega) (by omega)]
    simp [hw, hi]
  · simp [hw]

theorem Slot.get_write_disjoint {s t : Slot A} (r : A → BitVec 16) {value : BitVec 32}
    (hd : s.Disjoint t) :
    t.get (write r s.reg (word s.mask value)) = t.get r := by
  have hf := t.fits
  ext i hi
  rw [← BitVec.getLsbD_eq_getElem, ← BitVec.getLsbD_eq_getElem, Slot.get_bit, Slot.get_bit]
  by_cases hw : i < t.width
  · by_cases hr : s.reg = t.reg
    · have hb : t.shift + i < 16 := by omega
      have ho : ¬(s.shift ≤ t.shift + i ∧ t.shift + i < s.shift + s.width) := by
        have := hd hr
        omega
      rw [hr, write, Function.update_self, merge_bit _ _ _ _ hb, s.mask_covers _ hb]
      simp [ho]
    · rw [write, Function.update_of_ne (Ne.symm hr)]
  · simp [hw]

end Rk3576.Hiword
