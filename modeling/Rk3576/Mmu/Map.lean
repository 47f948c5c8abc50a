import Mathlib.Data.List.Perm.Subperm
import Rk3576.Mmu.Table

/-! What `_kenrel_map_2M` and `rt_hw_mmu_setmtt` do to the tables, stated over the map from
section numbers to block entries that the tables hold, and what the walk reads from it. -/
namespace Rk3576.Mmu
open Rk3576.Tables

theorem and_eq_self {x mask : BitVec 64} (lo hi : Nat)
    (hm : ∀ i < 64, lo ≤ i → i < hi → mask.getLsbD i = true)
    (hlo : x.toNat % 2 ^ lo = 0) (hhi : x.toNat < 2 ^ hi) : x &&& mask = x := by
  refine BitVec.eq_of_getLsbD_eq fun i hi64 => ?_
  rw [BitVec.getLsbD_and]
  cases hx : x.getLsbD i with
  | false => rfl
  | true =>
    have hbit : x.toNat.testBit i = true := hx
    have hge : lo ≤ i := by
      by_contra hlt
      have := Nat.testBit_mod_two_pow x.toNat lo i
      simp [hlo, hbit, Nat.lt_of_not_le hlt] at this
    have hlt : i < hi := by
      by_contra hge'
      have hpow : 2 ^ hi ≤ 2 ^ i := Nat.pow_le_pow_right (by omega) (Nat.le_of_not_lt hge')
      rw [Nat.testBit_lt_two_pow (by omega)] at hbit
      cases hbit
    rw [hm i hi64 hge hlt]
    rfl

theorem and_eq_zero {x m k : BitVec 64} (hx : x &&& m = x) (h : m &&& k = 0) : x &&& k = 0 := by
  rw [← hx, BitVec.and_assoc, h]
  exact BitVec.and_zero

def tblAddr (L : MmuLayout) : Option Nat → Nat
  | none => L.mmuTable
  | some k => L.mmuPage + archPageSize * k

theorem tblAddr_bound (L : MmuLayout) {t : Option Nat} (h : ∀ k ∈ t, k < mmuTblPageNrMax) :
    tblAddr L t % 4096 = 0 ∧ tblAddr L t + 4096 ≤ 2 ^ 48 := by
  have ht := L.table_aligned
  have hp := L.page_aligned
  have htb := L.table_bound
  have hpb := L.page_bound
  simp only [archPageSize, mmuTblPageNrMax] at *
  cases t with
  | none => exact ⟨ht, htb⟩
  | some k =>
    have hk := h k rfl
    simp only [tblAddr, archPageSize]
    omega

def arena (L : MmuLayout) : Arena Nat where
  fan := 512
  capacity := mmuTblPageNrMax
  cell t i := tblAddr L t + 8 * i
  cell_inj := by
    intro t u i j ht hu hi hj h
    have hap := L.apart
    have htb := L.table_bound
    simp only [archPageSize, mmuTblPageNrMax] at hap htb ht hu
    cases t with
    | none =>
      cases u with
      | none =>
        simp only [tblAddr] at h
        exact ⟨rfl, by omega⟩
      | some k =>
        have hk := hu k rfl
        simp only [tblAddr, archPageSize] at h
        omega
    | some l =>
      have hl := ht l rfl
      cases u with
      | none =>
        simp only [tblAddr, archPageSize] at h
        omega
      | some k =>
        have hk := hu k rfl
        simp only [tblAddr, archPageSize] at h
        obtain rfl : l = k := by omega
        exact ⟨rfl, by omega⟩

def pageLink (L : MmuLayout) (k : Nat) : BitVec 64 :=
  BitVec.ofNat 64 (tblAddr L (some k)) ||| mmuTypeTable

section
variable {L : MmuLayout} {k : Nat}

theorem toNat_tblAddr {t : Option Nat} (h : ∀ k ∈ t, k < mmuTblPageNrMax) :
    (BitVec.ofNat 64 (tblAddr L t)).toNat = tblAddr L t := by
  have := (tblAddr_bound L h).2
  rw [BitVec.toNat_ofNat, Nat.mod_eq_of_lt (by omega)]

theorem page_and_mask (h : k < mmuTblPageNrMax) :
    BitVec.ofNat 64 (tblAddr L (some k)) &&& mmuAddressMask =
      BitVec.ofNat 64 (tblAddr L (some k)) := by
  have hk : ∀ j ∈ some k, j < mmuTblPageNrMax := by simpa using h
  have hb := tblAddr_bound L hk
  refine and_eq_self 12 48 (by decide) ?_ ?_
  · rw [toNat_tblAddr hk]
    exact hb.1
  · rw [toNat_tblAddr hk]
    omega

theorem pageLink_and (h : k < mmuTblPageNrMax) {m : BitVec 64} (hm : mmuAddressMask &&& m = 0) :
    pageLink L k &&& m = mmuTypeTable &&& m := by
  rw [pageLink, BitVec.and_or_distrib_right, and_eq_zero (page_and_mask h) hm]
  exact BitVec.zero_or

theorem pageLink_address (h : k < mmuTblPageNrMax) :
    pageLink L k &&& mmuAddressMask = BitVec.ofNat 64 (tblAddr L (some k)) := by
  rw [pageLink, BitVec.and_or_distrib_right, page_and_mask h,
    (by decide : mmuTypeTable &&& mmuAddressMask = 0)]
  exact BitVec.or_zero

end

theorem levelOff_eq (va : BitVec 64) (shift : Nat) :
    levelOff va shift = va.toNat / 2 ^ shift % 512 := by
  simp only [levelOff, mmuLevelMask, BitVec.toNat_and, BitVec.toNat_ushiftRight,
    Nat.shiftRight_eq_div_pow]
  exact Nat.and_two_pow_sub_one_eq_mod _ 9

theorem levelOff_lt (va : BitVec 64) (shift : Nat) : levelOff va shift < 512 := by
  rw [levelOff_eq]
  exact Nat.mod_lt _ (by omega)

def nodeOf (va l : Nat) : Node := ⟨l, va / 2 ^ (48 - 9 * l)⟩

theorem nodeOf_zero {va : Nat} (h : va < 2 ^ 48) : nodeOf va 0 = Node.root := by
  rw [nodeOf, Node.root, Nat.mul_zero, Nat.sub_zero, Nat.div_eq_of_lt h]

theorem nodeOf_child (va : BitVec 64) {l : Nat} (hl : l < 3) :
    (nodeOf va.toNat l).child 512 (levelOff va (39 - 9 * l)) = nodeOf va.toNat (l + 1) := by
  have hdiv : va.toNat / 2 ^ (48 - 9 * l) = va.toNat / 2 ^ (39 - 9 * l) / 512 := by
    rw [Nat.div_div_eq_div_mul, (by rw [show 48 - 9 * l = 39 - 9 * l + 9 by omega, Nat.pow_add] :
      2 ^ (48 - 9 * l) = 2 ^ (39 - 9 * l) * 512)]
  simp only [nodeOf, Node.child, levelOff_eq, hdiv, Node.mk.injEq, true_and,
    show 48 - 9 * (l + 1) = 39 - 9 * l by omega]
  omega

theorem cell_in_page (L : MmuLayout) {k : Nat} (hk : k < mmuTblPageNrMax) {u : Option Nat} {j : Nat}
    (hu : ∀ l ∈ u, l < mmuTblPageNrMax) (hj : j < 512) :
    (tblAddr L (some k) ≤ (arena L).cell u j ∧
      (arena L).cell u j < tblAddr L (some k) + archPageSize) ↔
      u = some k := by
  have hap := L.apart
  simp only [mmuTblPageNrMax, archPageSize] at hk hu hap
  simp only [arena, archPageSize]
  cases u with
  | none =>
    simp only [tblAddr, archPageSize, reduceCtorEq, iff_false]
    omega
  | some l =>
    have hl := hu l rfl
    simp only [tblAddr, archPageSize, Option.some.injEq]
    omega

structure Built (L : MmuLayout) (budget : List Node) (s : MmuState) (nodes : List Node)
    (leaf : Nat → BitVec 64) : Prop where
  rep : Rep (arena L) 2 (pageLink L) 0 s.mem nodes leaf
  count : s.i = nodes.length
  within : nodes ⊆ budget

section
variable {L : MmuLayout} {budget nodes : List Node} {s : MmuState} {leaf : Nat → BitVec 64}

theorem Built.lt (h : Built L budget s nodes leaf) {t : Option Nat} {x : Node}
    (hat : At nodes t x) :
    ∀ k ∈ t, k < mmuTblPageNrMax := At.lt (A := arena L) hat h.rep.room

theorem Built.load (h : Built L budget s nodes leaf) {t : Option Nat} {x : Node}
    (hat : At nodes t x) (off : Nat) :
    s.load (BitVec.ofNat 64 (tblAddr L t)) off = s.mem ((arena L).cell t off) := by
  rw [MmuState.load, toNat_tblAddr (h.lt hat)]
  rfl

theorem Built.load_free (h : Built L budget s nodes leaf) {t : Option Nat} {x : Node}
    (hat : At nodes t x)
    (hx : x.level < 2) {off : Nat} (ho : off < 512) (hnew : x.child 512 off ∉ nodes) :
    s.load (BitVec.ofNat 64 (tblAddr L t)) off = 0 := by
  rw [h.load hat]
  exact h.rep.free hat hx ho hnew

theorem Built.load_linked (h : Built L budget s nodes leaf) {t : Option Nat} {x : Node}
    (hat : At nodes t x)
    (hx : x.level < 2) {off k : Nat} (ho : off < 512) (hk : nodes[k]? = some (x.child 512 off)) :
    s.load (BitVec.ofNat 64 (tblAddr L t)) off = pageLink L k := by
  rw [h.load hat]
  exact h.rep.linked hat hx ho hk

theorem kernelFreePage_some (L : MmuLayout) {s : MmuState} (h : s.i < mmuTblPageNrMax) :
    kernelFreePage L s = (BitVec.ofNat 64 (tblAddr L (some s.i)), { s with i := s.i + 1 }) := by
  rw [kernelFreePage, if_neg (Nat.not_le.mpr h)]
  rfl

theorem page_ne_zero (L : MmuLayout) {k : Nat} (h : k < mmuTblPageNrMax) :
    BitVec.ofNat 64 (tblAddr L (some k)) ≠ 0 := by
  intro h0
  have htn := toNat_tblAddr (L := L) (t := some k) (by simpa using h)
  rw [h0] at htn
  have := L.page_nonnull
  simp [tblAddr] at htn
  omega

theorem Built.count_le (h : Built L budget s nodes leaf) : s.i ≤ budget.length := by
  rw [h.count]
  exact (List.subperm_of_subset h.rep.nodup h.within).length_le

/-- A fresh page fits: the budget has a node that no table stands for yet. -/
theorem Built.room (h : Built L budget s nodes leaf)
    (hb : budget.length ≤ mmuTblPageNrMax) {y : Node}
    (hy : y ∈ budget) (hnew : y ∉ nodes) : nodes.length < mmuTblPageNrMax := by
  have hn : (y :: nodes).Nodup := List.nodup_cons.mpr ⟨hnew, h.rep.nodup⟩
  have hs : y :: nodes ⊆ budget := List.cons_subset.mpr ⟨hy, h.within⟩
  have := (List.subperm_of_subset hn hs).length_le
  simp only [List.length_cons] at this
  omega

theorem Built.grow (h : Built L budget s nodes leaf) (hb : budget.length ≤ mmuTblPageNrMax)
    {t : Option Nat} {x : Node}
    (hat : At nodes t x) (hx : x.level < 2) {off : Nat} (ho : off < 512)
    (hnew : x.child 512 off ∉ nodes) (hy : x.child 512 off ∈ budget) :
    Built L budget
      (({ s with i := s.i + 1 }.clear
        (BitVec.ofNat 64 (tblAddr L (some s.i))).toNat archPageSize).store
        (BitVec.ofNat 64 (tblAddr L t)) off (pageLink L s.i))
          (nodes ++ [x.child 512 off]) leaf := by
  have hroom := h.room hb hy hnew
  have hi : s.i < mmuTblPageNrMax := by rw [h.count]; exact hroom
  have hib : ∀ k ∈ some s.i, k < mmuTblPageNrMax := by simpa using hi
  have hne : t ≠ some s.i := by
    rw [h.count]
    exact hat.ne_fresh
  rw [toNat_tblAddr hib]
  -- the words of the new page, and no others, lie in the cleared range
  have hcell {u j} (hu : ∀ k ∈ u, k < mmuTblPageNrMax) (hj : j < 512) :
      (tblAddr L (some s.i) ≤ (arena L).cell u j ∧
        (arena L).cell u j < tblAddr L (some s.i) + archPageSize) ↔ u = some s.i :=
    cell_in_page L hi hu hj
  have hstore {u j} (huj : (arena L).cell u j ≠ (arena L).cell t off) :
      (({ s with i := s.i + 1 }.clear (tblAddr L (some s.i)) archPageSize).store
        (BitVec.ofNat 64 (tblAddr L t)) off (pageLink L s.i)).mem ((arena L).cell u j) =
        if tblAddr L (some s.i) ≤ (arena L).cell u j ∧
          (arena L).cell u j < tblAddr L (some s.i) + archPageSize then 0
              else s.mem ((arena L).cell u j) := by
    simp only [MmuState.store, toNat_tblAddr (h.lt hat)]
    exact Function.update_of_ne huj _ _
  constructor
  case rep =>
    refine h.rep.grow hat hx ho hnew hroom ?_ ?_ ?_
    · rw [← h.count]
      simp only [MmuState.store, toNat_tblAddr (h.lt hat)]
      exact Function.update_self _ _ _
    · intro j hj
      rw [← h.count, hstore, if_pos ((hcell hib hj).mpr rfl)]
      intro hc
      exact hne ((arena L).cell_inj hib (h.lt hat) hj ho hc).1.symm
    · intro u j hu hj hne' huj
      rw [hstore, if_neg (fun hin => hne' (((hcell hu hj).mp hin).trans (by rw [h.count])))]
      intro hc
      obtain ⟨rfl, rfl⟩ := (arena L).cell_inj hu (h.lt hat) hj ho hc
      exact huj rfl
  case count => simp [MmuState.store, MmuState.clear, h.count]
  case within => exact List.append_subset.mpr ⟨h.within, by simpa using hy⟩

theorem enterTable_link {cur : BitVec 64} {off k : Nat} (hk : k < mmuTblPageNrMax)
    (h : s.load cur off = pageLink L k) :
    enterTable cur off s = (.ok (BitVec.ofNat 64 (tblAddr L (some k))), s) := by
  simp only [enterTable, h, pageLink_and hk (m := mmuTypeMask) (by decide), pageLink_address hk]
  rfl

theorem nextTable_spec (h : Built L budget s nodes leaf) (hb : budget.length ≤ mmuTblPageNrMax)
    {t : Option Nat} {x : Node}
    (hat : At nodes t x) (hx : x.level < 2) (va : BitVec 64) (shift : Nat)
    (hy : x.child 512 (levelOff va shift) ∈ budget) :
    ∃ k s' nodes', nextTable L va (BitVec.ofNat 64 (tblAddr L t)) shift s =
        (.ok (BitVec.ofNat 64 (tblAddr L (some k))), s') ∧
      Built L budget s' nodes' leaf ∧ At nodes' (some k) (x.child 512 (levelOff va shift)) := by
  have ho := levelOff_lt va shift
  by_cases hnew : x.child 512 (levelOff va shift) ∈ nodes
  · obtain ⟨k, hk⟩ := List.mem_iff_getElem?.mp hnew
    have hlt : k < mmuTblPageNrMax := h.lt (t := some k) hk k rfl
    have hl := h.load_linked hat hx ho hk
    refine ⟨k, s, nodes, ?_, h, hk⟩
    rw [nextTable, if_neg, enterTable_link hlt hl]
    rw [hl, pageLink_and hlt (by decide)]
    decide
  · have hi : s.i < mmuTblPageNrMax := by rw [h.count]; exact h.room hb hy hnew
    have hg := h.grow hb hat hx ho hnew hy
    have hk : (nodes ++ [x.child 512 (levelOff va shift)])[s.i]? =
        some (x.child 512 (levelOff va shift)) := by
      simp [h.count]
    refine ⟨s.i, _, _, ?_, hg, hk⟩
    rw [nextTable, if_pos, kernelFreePage_some L hi]
    · dsimp only
      rw [if_neg (page_ne_zero L hi)]
      exact enterTable_link hi (hg.load_linked hat.mono hx ho hk)
    · rw [h.load_free hat hx ho hnew]
      rfl

theorem descend_spec (hb : budget.length ≤ mmuTblPageNrMax) {va : BitVec 64} (levels : Nat)
    {l : Nat} (hl : levels + l = 2)
    (hy : ∀ j, l < j → j ≤ 2 → nodeOf va.toNat j ∈ budget) {t : Option Nat} {nodes : List Node}
    {s : MmuState} (h : Built L budget s nodes leaf) (hat : At nodes t (nodeOf va.toNat l)) :
    ∃ u s' nodes', descend L va levels (BitVec.ofNat 64 (tblAddr L t)) (39 - 9 * l) s =
        (.ok (BitVec.ofNat 64 (tblAddr L u)), s') ∧
      Built L budget s' nodes' leaf ∧ At nodes' u (nodeOf va.toNat 2) := by
  induction levels generalizing l t nodes s with
  | zero =>
    obtain rfl : l = 2 := by omega
    exact ⟨t, s, nodes, rfl, h, hat⟩
  | succ levels ih =>
    have hchild := nodeOf_child va (l := l) (by omega)
    obtain ⟨k, s₁, nodes₁, hnext, h₁, hat₁⟩ :=
      nextTable_spec h hb hat (by simp [nodeOf]; omega) va (39 - 9 * l)
      (by rw [hchild]; exact hy (l + 1) (by omega) (by omega))
    rw [hchild] at hat₁
    obtain ⟨u, s₂, nodes₂, hd, h₂, hat₂⟩ :=
      ih (l := l + 1) (by omega) (fun j hj hj2 => hy j (by omega) hj2) h₁ hat₁
    refine ⟨u, s₂, nodes₂, ?_, h₂, hat₂⟩
    rw [descend, hnext]
    dsimp only
    rw [show 39 - 9 * l - mmuLevelShift = 39 - 9 * (l + 1) by simp [mmuLevelShift]; omega]
    exact hd

end

def blockEntry (p : Nat) (attr : BitVec 64) : BitVec 64 :=
  BitVec.ofNat 64 (p * 2 ^ 21) ||| (attr &&& mmuAttribMask ||| mmuTypeBlock)

theorem section_aligned {n : Nat} (h : n < 2 ^ 27) :
    BitVec.ofNat 64 (n * 2 ^ 21) &&& archSectionMask = 0 := by
  refine BitVec.eq_of_toNat_eq ?_
  rw [BitVec.toNat_and, BitVec.toNat_ofNat, Nat.mod_eq_of_lt (by omega)]
  exact (Nat.and_two_pow_sub_one_eq_mod _ 21).trans (Nat.mul_mod_left n (2 ^ 21))

def Covered (budget : List Node) (n : Nat) : Prop :=
  (⟨1, n / 2 ^ 18⟩ : Node) ∈ budget ∧ (⟨2, n / 2 ^ 9⟩ : Node) ∈ budget

theorem kenrelMap2M_spec {L : MmuLayout} {budget nodes : List Node} {s : MmuState}
    {leaf : Nat → BitVec 64}
    (h : Built L budget s nodes leaf) (hb : budget.length ≤ mmuTblPageNrMax)
    {n p : Nat} (hn : n < 2 ^ 27) (hp : p < 2 ^ 27) (hc : Covered budget n) (attr : BitVec 64) :
    ∃ s' nodes', kenrelMap2M L (BitVec.ofNat 64 L.mmuTable) (BitVec.ofNat 64 (n * 2 ^ 21))
        (BitVec.ofNat 64 (p * 2 ^ 21)) attr s = (0, s') ∧
      Built L budget s' nodes' (Function.update leaf n (blockEntry p attr)) := by
  have hva : (BitVec.ofNat 64 (n * 2 ^ 21)).toNat = n * 2 ^ 21 := by
    rw [BitVec.toNat_ofNat, Nat.mod_eq_of_lt (by omega)]
  have hroot : At nodes none (nodeOf (BitVec.ofNat 64 (n * 2 ^ 21)).toNat 0) :=
    nodeOf_zero (by rw [hva]; omega)
  have hcov : ∀ j, 0 < j → j ≤ 2 → nodeOf (BitVec.ofNat 64 (n * 2 ^ 21)).toNat j ∈ budget := by
    intro j h0 h2
    rw [hva]
    obtain rfl | rfl : j = 1 ∨ j = 2 := by omega
    · rw [show nodeOf (n * 2 ^ 21) 1 =
        ⟨1, n / 2 ^ 18⟩ by simp only [nodeOf, Node.mk.injEq, true_and]; omega]
      exact hc.1
    · rw [show nodeOf (n * 2 ^ 21) 2 =
        ⟨2, n / 2 ^ 9⟩ by simp only [nodeOf, Node.mk.injEq, true_and]; omega]
      exact hc.2
  obtain ⟨u, s₁, nodes₁, hd, h₁, hat⟩ := descend_spec hb 2 (l := 0) rfl hcov h hroot
  have hoff := levelOff_lt (BitVec.ofNat 64 (n * 2 ^ 21)) archSectionShift
  have hsec : (nodeOf (BitVec.ofNat 64 (n * 2 ^ 21)).toNat 2).num * 512 +
      levelOff (BitVec.ofNat 64 (n * 2 ^ 21)) archSectionShift = n := by
    rw [levelOff_eq, hva]
    simp only [nodeOf, archSectionShift]
    omega
  refine ⟨s₁.store (BitVec.ofNat 64 (tblAddr L u))
    (levelOff (BitVec.ofNat 64 (n * 2 ^ 21)) archSectionShift)
    (blockEntry p attr), nodes₁, ?_, ?_, h₁.count, h₁.within⟩
  · rw [kenrelMap2M, if_neg (not_not.mpr (section_aligned hn)),
      if_neg (not_not.mpr (section_aligned hp))]
    have hd' : descend L (BitVec.ofNat 64 (n * 2 ^ 21)) mmuTblBlock2MLevel
      (BitVec.ofNat 64 L.mmuTable) mmuAddressBits s =
      (.ok (BitVec.ofNat 64 (tblAddr L u)), s₁) := hd
    rw [hd']
    rfl
  · have hput := h₁.rep.put hat rfl (by decide) hoff (blockEntry p attr)
    rw [show (nodeOf (BitVec.ofNat 64 (n * 2 ^ 21)).toNat 2).num * (arena L).fan + _ = n
      from hsec] at hput
    simp only [MmuState.store, toNat_tblAddr (h₁.lt hat)]
    exact hput

/-- The first section of a descriptor, the section after its last, and its first physical one. -/
def MemDesc.first (d : MemDesc) : Nat := d.vaddrStart.toNat / 2 ^ 21
def MemDesc.limit (d : MemDesc) : Nat := (d.vaddrEnd.toNat + (2 ^ 21 - 1)) / 2 ^ 21
def MemDesc.firstPhys (d : MemDesc) : Nat := d.paddrStart.toNat / 2 ^ 21

def MemDesc.entry (d : MemDesc) (n : Nat) : BitVec 64 :=
  blockEntry (d.firstPhys + (n - d.first)) (mmuMapCustom mmuApKaun d.attr)

def MemDesc.overlay (d : MemDesc) (leaf : Nat → BitVec 64) (n : Nat) : BitVec 64 :=
  if d.first ≤ n ∧ n < d.limit then d.entry n else leaf n

/-- A descriptor of at least one section that stays in 48-bit address spaces. -/
structure MemDesc.Fits (d : MemDesc) : Prop where
  nonempty : d.vaddrStart.toNat < d.vaddrEnd.toNat
  virt : d.vaddrEnd.toNat ≤ 2 ^ 48
  phys : d.firstPhys + (d.limit - d.first) ≤ 2 ^ 27

section
variable {L : MmuLayout} {budget nodes : List Node} {s : MmuState} {leaf : Nat → BitVec 64}

theorem section_succ (n : Nat) :
    BitVec.ofNat 64 (n * 2 ^ 21) + archSectionSize = BitVec.ofNat 64 ((n + 1) * 2 ^ 21) := by
  refine BitVec.eq_of_toNat_eq ?_
  have hs : archSectionSize.toNat = 2 ^ 21 := by decide
  rw [BitVec.toNat_add, BitVec.toNat_ofNat, BitVec.toNat_ofNat, hs]
  omega

def mapped (n p count : Nat) (attr : BitVec 64) (leaf : Nat → BitVec 64) (m : Nat) : BitVec 64 :=
  if n ≤ m ∧ m < n + count then blockEntry (p + (m - n)) attr else leaf m

theorem mapped_succ (n p count : Nat) (attr : BitVec 64) (leaf : Nat → BitVec 64) :
    mapped (n + 1) (p + 1) count attr (Function.update leaf n (blockEntry p attr)) =
      mapped n p (count + 1) attr leaf := by
  funext m
  by_cases hm : m = n
  · subst hm
    rw [mapped, mapped, if_neg (by omega), if_pos (by omega), Function.update_self,
      Nat.sub_self, Nat.add_zero]
  · simp only [mapped, Function.update_of_ne hm]
    by_cases hin : n + 1 ≤ m ∧ m < n + 1 + count
    · rw [if_pos hin, if_pos (by omega), show p + 1 + (m - (n + 1)) = p + (m - n) by omega]
    · rw [if_neg hin, if_neg (by omega)]

theorem setmttLoop_spec (hb : budget.length ≤ mmuTblPageNrMax) (attr : BitVec 64)
    (count : Nat) (ret : Int) {n p : Nat} (hn : n + count ≤ 2 ^ 27) (hp : p + count ≤ 2 ^ 27)
    (hc : ∀ m, n ≤ m → m < n + count → Covered budget m) {nodes : List Node} {s : MmuState}
    {leaf : Nat → BitVec 64} (h : Built L budget s nodes leaf) :
    ∃ s' nodes',
      setmttLoop L attr count ret (BitVec.ofNat 64 (n * 2 ^ 21)) (BitVec.ofNat 64 (p * 2 ^ 21)) s =
        (if count = 0 then ret else 0, s') ∧
      Built L budget s' nodes' (mapped n p count attr leaf) := by
  induction count generalizing n p nodes s leaf ret with
  | zero =>
    refine ⟨s, nodes, rfl, ?_⟩
    rwa [show mapped n p 0 attr leaf = leaf from funext fun m => if_neg (by omega)]
  | succ count ih =>
    obtain ⟨s₁, nodes₁, hmap, h₁⟩ :=
      kenrelMap2M_spec h hb (by omega : n < 2 ^ 27) (by omega : p < 2 ^ 27)
      (hc n (by omega) (by omega)) attr
    obtain ⟨s₂, nodes₂, hloop, h₂⟩ := ih 0 (n := n + 1) (p := p + 1) (by omega) (by omega)
      (fun m hm hm' => hc m (by omega) (by omega)) h₁
    refine ⟨s₂, nodes₂, ?_, ?_⟩
    · rw [setmttLoop, hmap]
      dsimp only
      rw [if_neg (by simp), section_succ, section_succ, hloop]
      simp
    · rwa [mapped_succ] at h₂

theorem round_down (x : BitVec 64) :
    (if x % archSectionSize ≠ 0 then x / archSectionSize * archSectionSize else x) =
      BitVec.ofNat 64 (x.toNat / 2 ^ 21 * 2 ^ 21) := by
  have hs : archSectionSize.toNat = 2 ^ 21 := by decide
  have hx := x.isLt
  refine BitVec.eq_of_toNat_eq ?_
  split
  · rw [BitVec.toNat_mul, BitVec.toNat_udiv, hs, BitVec.toNat_ofNat]
  · next h =>
    have hmod : x.toNat % 2 ^ 21 = 0 := by
      have := congrArg BitVec.toNat (not_not.mp h)
      rwa [BitVec.toNat_umod, hs] at this
    rw [BitVec.toNat_ofNat]
    omega

theorem round_up (x : BitVec 64) (h : x.toNat ≤ 2 ^ 48) :
    (if x % archSectionSize ≠ 0 then (x / archSectionSize + 1) * archSectionSize else x) =
      BitVec.ofNat 64 ((x.toNat + (2 ^ 21 - 1)) / 2 ^ 21 * 2 ^ 21) := by
  have hs : archSectionSize.toNat = 2 ^ 21 := by decide
  have h1 : (1 : BitVec 64).toNat = 1 := by decide
  have hmod : (x % archSectionSize).toNat = x.toNat % 2 ^ 21 := by rw [BitVec.toNat_umod, hs]
  refine BitVec.eq_of_toNat_eq ?_
  split
  · next hne =>
    have hpos : x.toNat % 2 ^ 21 ≠ 0 := by
      intro h0
      exact hne (BitVec.eq_of_toNat_eq (hmod.trans h0))
    rw [BitVec.toNat_mul, BitVec.toNat_add, BitVec.toNat_udiv, hs, h1, BitVec.toNat_ofNat]
    omega
  · next hz =>
    rw [not_not.mp hz] at hmod
    have h0 : (0 : BitVec 64).toNat = 0 := by decide
    rw [BitVec.toNat_ofNat]
    omega

theorem rtHwMmuSetmtt_spec (h : Built L budget s nodes leaf) (hb : budget.length ≤ mmuTblPageNrMax)
    {d : MemDesc} (hd : d.Fits) (hc : ∀ m, d.first ≤ m → m < d.limit → Covered budget m) :
    ∃ s' nodes', rtHwMmuSetmtt L d s = (0, s') ∧ Built L budget s' nodes' (d.overlay leaf) := by
  have hne := hd.nonempty
  have hvirt := hd.virt
  have hlt : d.first < d.limit := by simp only [MemDesc.first, MemDesc.limit]; omega
  have hlim : d.limit ≤ 2 ^ 27 := by simp only [MemDesc.limit]; omega
  have hcount : ((BitVec.ofNat 64 (d.limit * 2 ^ 21) - BitVec.ofNat 64 (d.first * 2 ^ 21)) >>>
    archSectionShift).toNat =
      d.limit - d.first := by
    rw [BitVec.toNat_ushiftRight, Nat.shiftRight_eq_div_pow, BitVec.toNat_sub, BitVec.toNat_ofNat,
      BitVec.toNat_ofNat, archSectionShift]
    omega
  obtain ⟨s', nodes', hloop, h'⟩ :=
    setmttLoop_spec hb (mmuMapCustom mmuApKaun d.attr) (d.limit - d.first) (-1)
    (n := d.first) (p := d.firstPhys) (by omega) hd.phys (fun m hm hm' => hc m hm (by omega)) h
  refine ⟨s', nodes', ?_, ?_⟩
  · rw [rtHwMmuSetmtt, if_neg (by rw [gt_iff_lt, BitVec.lt_def]; omega)]
    dsimp only
    rw [round_down, round_down, round_up _ hvirt]
    show setmttLoop L _
      ((BitVec.ofNat 64 (d.limit * 2 ^ 21) - BitVec.ofNat 64 (d.first * 2 ^ 21)) >>>
      archSectionShift).toNat (-1) (BitVec.ofNat 64 (d.first * 2 ^ 21))
        (BitVec.ofNat 64 (d.firstPhys * 2 ^ 21)) s = _
    rw [hcount, hloop, if_neg (by omega)]
  · rwa [show mapped d.first d.firstPhys (d.limit - d.first) (mmuMapCustom mmuApKaun d.attr) leaf =
      d.overlay leaf by
      funext m
      simp only [mapped, MemDesc.overlay, MemDesc.entry,
        show d.first + (d.limit - d.first) = d.limit by omega]] at h'

/-- The whole table: the section map is the descriptors' overlays, first to last. -/
theorem rtHwInitMmuTable_spec (L : MmuLayout) {budget : List Node}
    (hb : budget.length ≤ mmuTblPageNrMax) (ds : List MemDesc) (hd : ∀ d ∈ ds, d.Fits)
    (hc : ∀ d ∈ ds, ∀ m, d.first ≤ m → m < d.limit → Covered budget m)
    (s : MmuState) (hs : s.i = 0) :
    ∃ nodes, Built L budget (rtHwInitMmuTable L ds s) nodes
      (ds.foldl (fun leaf d => d.overlay leaf) fun _ => 0) := by
  have hstart : Built L budget
      ((s.clear L.mmuTable archPageSize).clear L.mmuPage (mmuTblPageNrMax * archPageSize))
          [] (fun _ => 0) := by
    refine ⟨Rep.empty (fun i hi => ?_) (by decide), hs, List.nil_subset _⟩
    have hi' : i < 512 := hi
    have : L.mmuTable ≤ (arena L).cell none i ∧
        (arena L).cell none i < L.mmuTable + archPageSize := by
      simp only [arena, tblAddr, archPageSize]
      omega
    simp only [MmuState.clear, if_pos this]
    split <;> rfl
  rw [rtHwInitMmuTable]
  generalize (s.clear L.mmuTable archPageSize).clear L.mmuPage (mmuTblPageNrMax * archPageSize) =
    s₀ at hstart
  generalize (fun _ => 0 : Nat → BitVec 64) = leaf at hstart ⊢
  generalize ([] : List Node) = nodes at hstart
  induction ds generalizing s₀ leaf nodes with
  | nil => exact ⟨nodes, hstart⟩
  | cons d ds ih =>
    obtain ⟨s₁, nodes₁, hset, h₁⟩ :=
      rtHwMmuSetmtt_spec hstart hb (hd d List.mem_cons_self) (hc d List.mem_cons_self)
    simp only [List.foldl_cons, hset]
    exact ih (fun e he => hd e (List.mem_cons_of_mem _ he))
      (fun e he => hc e (List.mem_cons_of_mem _ he)) s₁ _ _ h₁

/-- Descriptors that agree where they meet: the order of the list does not matter. -/
theorem foldl_overlay {target : Nat → BitVec 64} (ds : List MemDesc)
    (ht : ∀ d ∈ ds, ∀ n, d.first ≤ n → n < d.limit → d.entry n = target n)
    (leaf : Nat → BitVec 64) (n : Nat) :
    ds.foldl (fun leaf d => d.overlay leaf) leaf n =
      if ∃ d ∈ ds, d.first ≤ n ∧ n < d.limit then target n else leaf n := by
  induction ds generalizing leaf with
  | nil => simp
  | cons d ds ih =>
    rw [List.foldl_cons, ih fun e he => ht e (List.mem_cons_of_mem _ he)]
    by_cases hds : ∃ e ∈ ds, e.first ≤ n ∧ n < e.limit
    · obtain ⟨e, he, hin⟩ := hds
      rw [if_pos ⟨e, he, hin⟩, if_pos ⟨e, List.mem_cons_of_mem _ he, hin⟩]
    · rw [if_neg hds, MemDesc.overlay]
      by_cases hd : d.first ≤ n ∧ n < d.limit
      · rw [if_pos hd, if_pos ⟨d, List.mem_cons_self, hd⟩, ht d List.mem_cons_self n hd.1 hd.2]
      · rw [if_neg hd, if_neg]
        rintro ⟨e, he, hin⟩
        cases List.mem_cons.mp he with
        | inl h => exact hd (h ▸ hin)
        | inr h => exact hds ⟨e, h, hin⟩

end

end Rk3576.Mmu
