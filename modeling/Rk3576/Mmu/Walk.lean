import Rk3576.Mmu.Map

/-! What the hardware walk makes of the tables: it reads the section map. -/
namespace Rk3576.Mmu
open Rk3576.Tables

def sectionMask : BitVec 64 := 0x0000ffffffe00000

theorem section_and_mask {p : Nat} (hp : p < 2 ^ 27) :
    BitVec.ofNat 64 (p * 2 ^ 21) &&& sectionMask = BitVec.ofNat 64 (p * 2 ^ 21) := by
  have htn : (BitVec.ofNat 64 (p * 2 ^ 21)).toNat = p * 2 ^ 21 := by
    rw [BitVec.toNat_ofNat, Nat.mod_eq_of_lt (by omega)]
  refine and_eq_self 21 48 (by decide) ?_ ?_
  · rw [htn]
    exact Nat.mul_mod_left p (2 ^ 21)
  · rw [htn]
    omega

section
variable {p : Nat} {attr : BitVec 64}

theorem blockEntry_type (hp : p < 2 ^ 27) {m : BitVec 64} (hs : sectionMask &&& m = 0)
    (ha : mmuAttribMask &&& m = 0) :
    blockEntry p attr &&& m = mmuTypeBlock &&& m := by
  rw [blockEntry, BitVec.and_or_distrib_right, BitVec.and_or_distrib_right,
    and_eq_zero (section_and_mask hp) hs, BitVec.and_assoc, ha]
  simp

theorem blockEntry_attr (hp : p < 2 ^ 27) :
    blockEntry p attr &&& mmuAttribMask = attr &&& mmuAttribMask := by
  rw [blockEntry, BitVec.and_or_distrib_right, BitVec.and_or_distrib_right,
    and_eq_zero (section_and_mask hp) (by decide), BitVec.and_assoc, BitVec.and_self,
    (by decide : mmuTypeBlock &&& mmuAttribMask = 0)]
  simp

theorem blockEntry_address (hp : p < 2 ^ 27) :
    blockEntry p attr &&& mmuAddressMask &&& ~~~offsetMask archSectionShift =
      BitVec.ofNat 64 (p * 2 ^ 21) := by
  rw [BitVec.and_assoc,
    (by decide : mmuAddressMask &&& ~~~offsetMask archSectionShift = sectionMask), blockEntry,
    BitVec.and_or_distrib_right, BitVec.and_or_distrib_right, section_and_mask hp, BitVec.and_assoc,
    (by decide : mmuAttribMask &&& sectionMask = 0), (by decide : mmuTypeBlock &&& sectionMask = 0)]
  simp

theorem output_block (hp : p < 2 ^ 27) (va : BitVec 64) :
    output (blockEntry p attr) va archSectionShift =
      ⟨BitVec.ofNat 64 (p * 2 ^ 21 + va.toNat % 2 ^ 21), attr &&& mmuAttribMask⟩ := by
  have hoff : (va &&& offsetMask archSectionShift).toNat = va.toNat % 2 ^ 21 := by
    rw [BitVec.toNat_and]
    exact Nat.and_two_pow_sub_one_eq_mod _ 21
  have hdisj : BitVec.ofNat 64 (p * 2 ^ 21) &&& (va &&& offsetMask archSectionShift) = 0 := by
    rw [BitVec.and_comm va, ← BitVec.and_assoc, and_eq_zero (section_and_mask hp) (by decide)]
    exact BitVec.zero_and
  simp only [output, blockEntry_address hp, blockEntry_attr hp, Translation.mk.injEq, and_true]
  rw [← BitVec.add_eq_or_of_and_eq_zero _ _ hdisj]
  refine BitVec.eq_of_toNat_eq ?_
  rw [BitVec.toNat_add, hoff, BitVec.toNat_ofNat, BitVec.toNat_ofNat]
  omega

end

section
variable {L : MmuLayout} {budget nodes : List Node} {s : MmuState} {leaf : Nat → BitVec 64}

theorem walkFrom_inner (h : Built L budget s nodes leaf) {va : BitVec 64} {t : Option Nat}
    {l shift : Nat} {shifts : List Nat}
    (hl : l < 2) (hshift : shift = 39 - 9 * l) (hs : shifts ≠ [])
    (hat : At nodes t (nodeOf va.toNat l)) :
    (nodeOf va.toNat (l + 1) ∉ nodes ∧
      walkFrom s va (shift :: shifts) (BitVec.ofNat 64 (tblAddr L t)) = none) ∨
      ∃ k, At nodes (some k) (nodeOf va.toNat (l + 1)) ∧
        walkFrom s va (shift :: shifts) (BitVec.ofNat 64 (tblAddr L t)) =
          walkFrom s va shifts (BitVec.ofNat 64 (tblAddr L (some k))) := by
  subst hshift
  have hchild := nodeOf_child va (l := l) (by omega)
  have ho := levelOff_lt va (39 - 9 * l)
  by_cases hm : nodeOf va.toNat (l + 1) ∈ nodes
  · obtain ⟨k, hk⟩ := List.mem_iff_getElem?.mp hm
    refine .inr ⟨k, hk, ?_⟩
    have hlt : k < mmuTblPageNrMax := h.lt (t := some k) hk k rfl
    rw [walkFrom, h.load_linked hat hl ho (by rw [hchild]; exact hk)]
    rw [pageLink_and hlt (by decide), pageLink_and hlt (by decide), pageLink_address hlt,
      if_neg (by decide), if_pos (by decide), if_neg hs]
  · refine .inl ⟨hm, ?_⟩
    rw [walkFrom, h.load_free hat hl ho (by rwa [hchild])]
    rfl

theorem section_of (va : BitVec 64) :
    (nodeOf va.toNat 2).num * 512 + levelOff va archSectionShift = va.toNat / 2 ^ 21 := by
  rw [levelOff_eq]
  simp only [nodeOf, archSectionShift]
  omega

theorem Built.leaf_bare (h : Built L budget s nodes leaf) {va : BitVec 64}
    (hm : nodeOf va.toNat 2 ∉ nodes) :
    leaf (va.toNat / 2 ^ 21) = 0 := by
  rw [← section_of va]
  exact h.rep.bare (levelOff_lt va archSectionShift) hm

theorem walk_cases (h : Built L budget s nodes leaf) {va : BitVec 64} (hva : va.toNat < 2 ^ 48) :
    (leaf (va.toNat / 2 ^ 21) = 0 ∧ walk L s va = none) ∨
      ∃ t, At nodes t (nodeOf va.toNat 2) ∧
        walk L s va = walkFrom s va [archSectionShift, 12] (BitVec.ofNat 64 (tblAddr L t)) := by
  have hroot : At nodes none (nodeOf va.toNat 0) := nodeOf_zero hva
  cases walkFrom_inner h (l := 0)
    (by decide) rfl (by decide : [30, archSectionShift, 12] ≠ []) hroot with
  | inl h₀ =>
    refine .inl ⟨h.leaf_bare fun hm => ?_, h₀.2⟩
    rw [← nodeOf_child va (by decide : 1 < 3)] at hm
    cases h.rep.closed hm (levelOff_lt va _) with
    | inl hr => simp [nodeOf, Node.root] at hr
    | inr hm' => exact h₀.1 hm'
  | inr h₀ =>
    obtain ⟨j, hj, hw₀⟩ := h₀
    cases walkFrom_inner h (l := 1)
      (by decide) rfl (by decide : [archSectionShift, 12] ≠ []) hj with
    | inl h₁ => exact .inl ⟨h.leaf_bare h₁.1, hw₀.trans h₁.2⟩
    | inr h₁ =>
      obtain ⟨k, hk, hw₁⟩ := h₁
      exact .inr ⟨some k, hk, hw₀.trans hw₁⟩

theorem Built.load_last (h : Built L budget s nodes leaf) {va : BitVec 64} {t : Option Nat}
    (hat : At nodes t (nodeOf va.toNat 2)) :
    s.load (BitVec.ofNat 64 (tblAddr L t)) (levelOff va archSectionShift) =
      leaf (va.toNat / 2 ^ 21) := by
  rw [h.load hat, ← section_of va]
  exact h.rep.last hat rfl (levelOff_lt va archSectionShift)

theorem walk_none (h : Built L budget s nodes leaf) {va : BitVec 64} (hva : va.toNat < 2 ^ 48)
    (hl : leaf (va.toNat / 2 ^ 21) = 0) : walk L s va = none := by
  cases walk_cases h hva with
  | inl hw => exact hw.2
  | inr hw =>
    obtain ⟨t, hat, hw⟩ := hw
    rw [hw, walkFrom, h.load_last hat, hl]
    rfl

theorem walk_block (h : Built L budget s nodes leaf) {va : BitVec 64} (hva : va.toNat < 2 ^ 48)
    {p : Nat} {attr : BitVec 64}
    (hp : p < 2 ^ 27) (hl : leaf (va.toNat / 2 ^ 21) = blockEntry p attr) :
    walk L s va = some ⟨BitVec.ofNat 64 (p * 2 ^ 21 + va.toNat % 2 ^ 21),
      attr &&& mmuAttribMask⟩ := by
  cases walk_cases h hva with
  | inl hw =>
    have hused : blockEntry p attr &&& mmuTypeUsed = mmuTypeBlock &&& mmuTypeUsed :=
      blockEntry_type hp (by decide) (by decide)
    rw [← hl, hw.1] at hused
    exact absurd hused (by decide)
  | inr hw =>
    obtain ⟨t, hat, hw⟩ := hw
    rw [hw, walkFrom, h.load_last hat, hl, blockEntry_type hp (by decide) (by decide),
      blockEntry_type hp (by decide) (by decide), if_neg (by decide), if_neg (by decide),
      if_pos (by decide),
      output_block hp]

end

end Rk3576.Mmu
