import Rk3576.Mmu.Walk
import Rk3576.Gmac.Layout

/-! The memory map of the board: `platform_mem_desc` of board.c in the configuration with
BSP_USING_GPIO and BSP_USING_GMAC0. -/
namespace Rk3576.Mmu
open Rk3576.Gmac Rk3576.Tables

def uart0MmioBase : BitVec 64 := 0x2ad40000
def uart1MmioBase : BitVec 64 := 0x27310000
def uart2MmioBase : BitVec 64 := 0x2ad50000
def uart10MmioBase : BitVec 64 := 0x2afc0000
def cruMmioBase : BitVec 64 := 0x27200000
def cruMmioSize : BitVec 64 := 0x50000
def iocGrfMmioBase : BitVec 64 := 0x26040000
def iocGrfMmioSize : BitVec 64 := 0x0000c000
def gpio0MmioBase : BitVec 64 := 0x27320000
def gpio1MmioBase : BitVec 64 := 0x2ae10000
def gpio2MmioBase : BitVec 64 := 0x2ae20000
def gpio3MmioBase : BitVec 64 := 0x2ae30000
def gpio4MmioBase : BitVec 64 := 0x2ae40000
def gpioMmioSize : BitVec 64 := 0x00010000
def gmac0MmioBase : BitVec 64 := 0x2a220000
def gmacMmioSize : BitVec 64 := 0x00010000
def gicPl400Base : BitVec 64 := 0x2a700000
def gicPl400Gicd : BitVec 64 := gicPl400Base + 0x1000
def gicPl400Gicc : BitVec 64 := gicPl400Base + 0x2000

/-- The uncached window onto the DMA pool, which the linker has put at `pool`. -/
def gmacDmaAlias (pool : Nat) : MemDesc :=
  ⟨BitVec.ofNat 64 gmacDmaAliasBase, BitVec.ofNat 64 (gmacDmaAliasBase + gmacDmaAliasSize),
    BitVec.ofNat 64 pool,
    normalNocacheMem⟩

def platformMemDesc (pool : Nat) : List MemDesc :=
  [ ⟨0x40000000, 0x80000000, 0x40000000, normalMem⟩,
    ⟨uart0MmioBase, uart0MmioBase + 0x10000, uart0MmioBase, deviceMem⟩,
    ⟨uart1MmioBase, uart1MmioBase + 0x10000, uart1MmioBase, deviceMem⟩,
    ⟨uart2MmioBase, uart2MmioBase + 0x80000, uart2MmioBase, deviceMem⟩,
    ⟨uart10MmioBase, uart10MmioBase + 0x20000, uart10MmioBase, deviceMem⟩,
    ⟨cruMmioBase, cruMmioBase + cruMmioSize, cruMmioBase, deviceMem⟩,
    ⟨iocGrfMmioBase, iocGrfMmioBase + iocGrfMmioSize, iocGrfMmioBase, deviceMem⟩,
    ⟨gpio0MmioBase, gpio0MmioBase + gpioMmioSize, gpio0MmioBase, deviceMem⟩,
    ⟨gpio1MmioBase, gpio1MmioBase + gpioMmioSize, gpio1MmioBase, deviceMem⟩,
    ⟨gpio2MmioBase, gpio2MmioBase + gpioMmioSize, gpio2MmioBase, deviceMem⟩,
    ⟨gpio3MmioBase, gpio3MmioBase + gpioMmioSize, gpio3MmioBase, deviceMem⟩,
    ⟨gpio4MmioBase, gpio4MmioBase + gpioMmioSize, gpio4MmioBase, deviceMem⟩,
    ⟨gmac0MmioBase, gmac0MmioBase + gmacMmioSize, gmac0MmioBase, deviceMem⟩,
    gmacDmaAlias pool,
    ⟨gicPl400Gicd, gicPl400Gicd + 0x10000, gicPl400Gicd, deviceMem⟩,
    ⟨gicPl400Gicc, gicPl400Gicc + 0x10000, gicPl400Gicc, deviceMem⟩ ]

def MemDesc.Touches (d : MemDesc) (va : BitVec 64) : Prop :=
  ∃ a : Nat, d.vaddrStart.toNat ≤ a ∧ a < d.vaddrEnd.toNat ∧ a / 2 ^ 21 = va.toNat / 2 ^ 21

theorem MemDesc.touches_iff {d : MemDesc} (h : d.vaddrStart.toNat < d.vaddrEnd.toNat)
    (va : BitVec 64) :
    d.Touches va ↔ d.first ≤ va.toNat / 2 ^ 21 ∧ va.toNat / 2 ^ 21 < d.limit := by
  simp only [MemDesc.first, MemDesc.limit]
  constructor
  · rintro ⟨a, hlo, hhi, ha⟩
    omega
  · intro hin
    refine ⟨max d.vaddrStart.toNat (va.toNat / 2 ^ 21 * 2 ^ 21), ?_, ?_, ?_⟩ <;> omega

/-- What the translation of the board's address space has to be. -/
structure BoardMapped (L : MmuLayout) (pool : Nat) (s : MmuState) : Prop where
  window : ∀ va : BitVec 64, 0x80000000 ≤ va.toNat → va.toNat < 0x80200000 →
    walk L s va = some ⟨BitVec.ofNat 64 (pool + (va.toNat - 0x80000000)),
      mmuMapCustom mmuApKaun normalNocacheMem⟩
  views : ∀ offset < rk3576GmacDmaPoolSize, walk L s (BitVec.ofNat 64 (gmacDmaVirt offset)) =
    some ⟨(gmacDmaPhys pool offset).setWidth 64, mmuMapCustom mmuApKaun normalNocacheMem⟩
  direct : ∀ d ∈ platformMemDesc pool, d ≠ gmacDmaAlias pool → ∀ va : BitVec 64, va.toNat < 2 ^ 48 →
    d.Touches va →
    walk L s va = some ⟨va, mmuMapCustom mmuApKaun d.attr⟩
  unmapped : ∀ va : BitVec 64, va.toNat < 2 ^ 48 → (∀ d ∈ platformMemDesc pool, ¬ d.Touches va) →
    walk L s va = none

def boardTables : List Node := [⟨1, 0⟩, ⟨2, 0⟩, ⟨2, 1⟩, ⟨2, 2⟩]

/-- An identity mapping of device registers below 1 GiB, or of the normal memory above. -/
structure Direct (d : MemDesc) : Prop where
  same : d.paddrStart = d.vaddrStart
  nonempty : d.vaddrStart.toNat < d.vaddrEnd.toNat
  kind : d.vaddrEnd.toNat ≤ 0x40000000 ∧ d.attr = deviceMem ∨
    d.vaddrStart.toNat = 0x40000000 ∧ d.vaddrEnd.toNat = 0x80000000 ∧ d.attr = normalMem

theorem platformMemDesc_direct (pool : Nat) :
    ∀ d ∈ platformMemDesc pool, d = gmacDmaAlias pool ∨ Direct d := by
  simp only [platformMemDesc, List.forall_mem_cons, List.not_mem_nil, false_implies,
    implies_true, and_true]
  refine ⟨.inr ⟨rfl, by decide, .inr (by decide)⟩, ?_, ?_, ?_, ?_, ?_, ?_, ?_, ?_, ?_, ?_, ?_, ?_,
    .inl trivial, ?_, ?_⟩ <;>
    exact .inr ⟨rfl, by decide, .inl (by decide)⟩

def boardEntry (pool n : Nat) : BitVec 64 :=
  if n = 0x400 then blockEntry (pool / 2 ^ 21) (mmuMapCustom mmuApKaun normalNocacheMem)
  else blockEntry n (mmuMapCustom mmuApKaun (if n < 0x200 then deviceMem else normalMem))

theorem Direct.limit_le {d : MemDesc} (h : Direct d) : d.limit ≤ 0x400 := by
  have := h.kind
  simp only [MemDesc.limit]
  omega

theorem Direct.entry {d : MemDesc} (h : Direct d) {n : Nat} (hn : d.first ≤ n) :
    d.entry n = blockEntry n (mmuMapCustom mmuApKaun d.attr) := by
  have hphys : d.firstPhys = d.first := by rw [MemDesc.firstPhys, MemDesc.first, h.same]
  rw [MemDesc.entry, hphys, Nat.add_sub_cancel' hn]

theorem Direct.attr {d : MemDesc} (h : Direct d) {n : Nat} (hn : d.first ≤ n) (hn' : n < d.limit) :
    d.attr = if n < 0x200 then deviceMem else normalMem := by
  simp only [MemDesc.first, MemDesc.limit] at hn hn'
  cases h.kind with
  | inl hk => rw [if_pos (by omega), hk.2]
  | inr hk => rw [if_neg (by omega), hk.2.2]

theorem gmacDmaAlias_first (pool : Nat) : (gmacDmaAlias pool).first = 0x400 := by
  simp [gmacDmaAlias, MemDesc.first, gmacDmaAliasBase]

theorem gmacDmaAlias_limit (pool : Nat) : (gmacDmaAlias pool).limit = 0x401 := by
  simp [gmacDmaAlias, MemDesc.limit, gmacDmaAliasBase, gmacDmaAliasSize]

section
variable {pool : Nat}

theorem gmacDmaAlias_firstPhys (hhi : pool + 0x200000 ≤ 0x80000000) :
    (gmacDmaAlias pool).firstPhys = pool / 2 ^ 21 := by
  rw [MemDesc.firstPhys, gmacDmaAlias, BitVec.toNat_ofNat, Nat.mod_eq_of_lt (by omega)]

theorem platformMemDesc_fits (hhi : pool + 0x200000 ≤ 0x80000000) :
    ∀ d ∈ platformMemDesc pool, d.Fits := by
  intro d hd
  cases platformMemDesc_direct pool d hd with
  | inl ha =>
    subst ha
    refine ⟨by simp [gmacDmaAlias, gmacDmaAliasBase, gmacDmaAliasSize],
      by simp [gmacDmaAlias, gmacDmaAliasBase, gmacDmaAliasSize], ?_⟩
    rw [gmacDmaAlias_firstPhys hhi, gmacDmaAlias_first, gmacDmaAlias_limit]
    omega
  | inr h =>
    have hk := h.kind
    have hl := h.limit_le
    have hne := h.nonempty
    have hf : d.first ≤ d.limit := by simp only [MemDesc.first, MemDesc.limit]; omega
    have hphys : d.firstPhys = d.first := by rw [MemDesc.firstPhys, MemDesc.first, h.same]
    exact ⟨hne, by omega, by omega⟩

theorem platformMemDesc_covered :
    ∀ d ∈ platformMemDesc pool, ∀ m, d.first ≤ m → m < d.limit → Covered boardTables m := by
  intro d hd m hm hm'
  have hlt : m < 0x401 := by
    cases platformMemDesc_direct pool d hd with
    | inl ha =>
      subst ha
      rwa [gmacDmaAlias_limit] at hm'
    | inr h =>
      have := h.limit_le
      omega
  have h1 : m / 2 ^ 18 = 0 := by omega
  have h2 : m / 2 ^ 9 = 0 ∨ m / 2 ^ 9 = 1 ∨ m / 2 ^ 9 = 2 := by omega
  simp only [Covered, boardTables, h1]
  simpa using h2

theorem platformMemDesc_entry (hhi : pool + 0x200000 ≤ 0x80000000) :
    ∀ d ∈ platformMemDesc pool, ∀ n, d.first ≤ n → n < d.limit → d.entry n = boardEntry pool n := by
  intro d hd n hn hn'
  cases platformMemDesc_direct pool d hd with
  | inl ha =>
    subst ha
    rw [gmacDmaAlias_first] at hn
    rw [gmacDmaAlias_limit] at hn'
    obtain rfl : n = 0x400 := by omega
    rw [MemDesc.entry, gmacDmaAlias_firstPhys hhi, gmacDmaAlias_first, boardEntry, if_pos rfl]
    rfl
  | inr h =>
    have := h.limit_le
    rw [h.entry hn, boardEntry, if_neg (by omega), h.attr hn hn']

theorem board_prefix (hhi : pool + 0x200000 ≤ 0x80000000) (L : MmuLayout)
    (m : Nat → BitVec 64) (k : Nat) :
    ∃ nodes, Built L boardTables
      (rtHwInitMmuTable L ((platformMemDesc pool).take k) ⟨m, 0⟩) nodes fun n =>
      if ∃ d ∈ (platformMemDesc pool).take k, d.first ≤ n ∧ n < d.limit then boardEntry pool n
        else 0 := by
  have hmem {d} (hd : d ∈ (platformMemDesc pool).take k) : d ∈ platformMemDesc pool :=
    List.mem_of_mem_take hd
  obtain ⟨nodes, h⟩ := rtHwInitMmuTable_spec L (by decide : boardTables.length ≤ mmuTblPageNrMax)
    ((platformMemDesc pool).take k)
    (fun d hd => platformMemDesc_fits hhi d (hmem hd))
      (fun d hd => platformMemDesc_covered d (hmem hd)) ⟨m, 0⟩ rfl
  refine ⟨nodes, ?_⟩
  rwa [funext (foldl_overlay _ (fun d hd => platformMemDesc_entry hhi d (hmem hd)) fun _ => 0)] at h

theorem platform_touches (hhi : pool + 0x200000 ≤ 0x80000000) {d : MemDesc}
    (hd : d ∈ platformMemDesc pool)
    (va : BitVec 64) : d.Touches va ↔ d.first ≤ va.toNat / 2 ^ 21 ∧ va.toNat / 2 ^ 21 < d.limit :=
  MemDesc.touches_iff (platformMemDesc_fits hhi d hd).nonempty va

/-- An address in a section of some descriptor of the list gets the entry of that section. -/
theorem board_walk {L : MmuLayout} {s : MmuState} {nodes : List Node} {ds : List MemDesc}
    {va : BitVec 64} {d : MemDesc} (h : Built L boardTables s nodes fun n =>
      if ∃ d ∈ ds, d.first ≤ n ∧ n < d.limit then boardEntry pool n else 0)
    (hva : va.toNat < 2 ^ 48) (hd : d ∈ ds)
    (hin : d.first ≤ va.toNat / 2 ^ 21 ∧ va.toNat / 2 ^ 21 < d.limit)
    {p : Nat} (hp : p < 2 ^ 27) {attr : BitVec 64}
    (he : boardEntry pool (va.toNat / 2 ^ 21) = blockEntry p attr) :
    walk L s va = some ⟨BitVec.ofNat 64 (p * 2 ^ 21 + va.toNat % 2 ^ 21),
      attr &&& mmuAttribMask⟩ := by
  refine walk_block h hva hp ?_
  rw [if_pos ⟨d, hd, hin⟩, he]

theorem board_window {L : MmuLayout} {s : MmuState} {nodes : List Node}
    (haligned : pool % 0x200000 = 0) (hhi : pool + 0x200000 ≤ 0x80000000)
    (h : Built L boardTables s nodes fun n =>
      if ∃ d ∈ platformMemDesc pool, d.first ≤ n ∧ n < d.limit then boardEntry pool n else 0)
    {va : BitVec 64} (hva : 0x80000000 ≤ va.toNat) (hva' : va.toNat < 0x80200000) :
    walk L s va =
      some ⟨BitVec.ofNat 64 (pool + (va.toNat - 0x80000000)),
        mmuMapCustom mmuApKaun normalNocacheMem⟩ := by
  have hn : va.toNat / 2 ^ 21 = 0x400 := by omega
  have hmem : gmacDmaAlias pool ∈ platformMemDesc pool := by simp [platformMemDesc]
  have hin : (gmacDmaAlias pool).first ≤ va.toNat / 2 ^ 21 ∧
      va.toNat / 2 ^ 21 < (gmacDmaAlias pool).limit := by
    rw [gmacDmaAlias_first, gmacDmaAlias_limit, hn]
    decide
  rw [board_walk h (by omega) hmem hin (by omega : pool / 2 ^ 21 < 2 ^ 27)
    (by rw [boardEntry, if_pos hn]),
    show pool / 2 ^ 21 * 2 ^ 21 + va.toNat % 2 ^ 21 = pool + (va.toNat - 0x80000000) by omega]
  rfl

theorem board_direct {L : MmuLayout} {s : MmuState} {nodes : List Node}
    (h : Built L boardTables s nodes fun n =>
      if ∃ d ∈ platformMemDesc pool, d.first ≤ n ∧ n < d.limit then boardEntry pool n else 0)
    {d : MemDesc} (hd : d ∈ platformMemDesc pool) (hdir : Direct d) {va : BitVec 64}
    (hva : va.toNat < 2 ^ 48) (hin : d.first ≤ va.toNat / 2 ^ 21 ∧ va.toNat / 2 ^ 21 < d.limit) :
    walk L s va = some ⟨va, mmuMapCustom mmuApKaun d.attr⟩ := by
  have hlim := hdir.limit_le
  rw [board_walk h hva hd hin (by omega : va.toNat / 2 ^ 21 < 2 ^ 27)
    (by rw [boardEntry, if_neg (by omega), ← hdir.attr hin.1 hin.2]),
    show va.toNat / 2 ^ 21 * 2 ^ 21 + va.toNat % 2 ^ 21 = va.toNat by omega, BitVec.ofNat_toNat,
    BitVec.setWidth_eq]
  have hattr : mmuMapCustom mmuApKaun d.attr &&& mmuAttribMask = mmuMapCustom mmuApKaun d.attr := by
    cases hdir.kind with
    | inl hk => rw [hk.2]; decide
    | inr hk => rw [hk.2.2]; decide
  rw [hattr]

theorem dmaPhys_setWidth (hhi : pool + 0x200000 ≤ 0x80000000) {offset : Nat}
    (h : offset < rk3576GmacDmaPoolSize) :
    (gmacDmaPhys pool offset).setWidth 64 = BitVec.ofNat 64 (pool + offset) := by
  simp only [rk3576GmacDmaPoolSize] at h
  refine BitVec.eq_of_toNat_eq ?_
  simp only [gmacDmaPhys, BitVec.toNat_setWidth, BitVec.toNat_ofNat]
  omega

theorem board_mapped (L : MmuLayout) (m : Nat → BitVec 64) (haligned : pool % 0x200000 = 0)
    (hhi : pool + 0x200000 ≤ 0x80000000) :
    BoardMapped L pool (rtHwInitMmuTable L (platformMemDesc pool) ⟨m, 0⟩) := by
  obtain ⟨nodes, h⟩ := board_prefix hhi L m (platformMemDesc pool).length
  rw [List.take_length] at h
  constructor
  case window => exact fun va hva hva' => board_window haligned hhi h hva hva'
  case views =>
    intro offset ho
    have hlt : offset < 0x20000 := ho
    have hv : (BitVec.ofNat 64 (gmacDmaVirt offset)).toNat = 0x80000000 + offset := by
      simp only [gmacDmaVirt, gmacDmaAliasBase, BitVec.toNat_ofNat]
      omega
    rw [board_window haligned hhi h (by omega) (by omega), hv, Nat.add_sub_cancel_left,
      dmaPhys_setWidth hhi ho]
  case direct =>
    intro d hd hne va hva ht
    have hdir := (platformMemDesc_direct pool d hd).resolve_left hne
    exact board_direct h hd hdir hva ((platform_touches hhi hd va).mp ht)
  case unmapped =>
    intro va hva hnone
    refine walk_none h hva (if_neg ?_)
    rintro ⟨d, hd, hin⟩
    exact hnone d hd ((platform_touches hhi hd va).mpr hin)

theorem board_stable (L : MmuLayout) (m : Nat → BitVec 64)
    (hhi : pool + 0x200000 ≤ 0x80000000) {k : Nat}
    {va : BitVec 64} {x : Translation} (hva : va.toNat < 2 ^ 48)
    (hx : walk L (rtHwInitMmuTable L ((platformMemDesc pool).take k) ⟨m, 0⟩) va = some x) :
    walk L (rtHwInitMmuTable L (platformMemDesc pool) ⟨m, 0⟩) va = some x := by
  obtain ⟨nodes, h⟩ := board_prefix hhi L m k
  obtain ⟨nodes', h'⟩ := board_prefix hhi L m (platformMemDesc pool).length
  rw [List.take_length] at h'
  by_cases hin : ∃ d ∈ (platformMemDesc pool).take k, d.first ≤ va.toNat / 2 ^ 21 ∧
    va.toNat / 2 ^ 21 < d.limit
  · obtain ⟨d, hd, hin⟩ := hin
    have hd' := List.mem_of_mem_take hd
    have hp : ∃ p attr, p < 2 ^ 27 ∧ boardEntry pool (va.toNat / 2 ^ 21) = blockEntry p attr := by
      unfold boardEntry
      split
      · exact ⟨_, _, by omega, rfl⟩
      · exact ⟨_, _, by omega, rfl⟩
    obtain ⟨p, attr, hp, he⟩ := hp
    rw [← hx, board_walk h hva hd hin hp he, board_walk h' hva hd' hin hp he]
  · rw [walk_none h hva (if_neg hin)] at hx
    cases hx

theorem board_setmtt (L : MmuLayout) (m : Nat → BitVec 64) (hhi : pool + 0x200000 ≤ 0x80000000)
    {k : Nat} {d : MemDesc} (hd : (platformMemDesc pool)[k]? = some d) :
    (rtHwMmuSetmtt L d (rtHwInitMmuTable L ((platformMemDesc pool).take k) ⟨m, 0⟩)).1 = 0 := by
  obtain ⟨nodes, h⟩ := board_prefix hhi L m k
  have hmem := List.mem_of_getElem? hd
  obtain ⟨s', nodes', hset, -⟩ := rtHwMmuSetmtt_spec h (by decide) (platformMemDesc_fits hhi d hmem)
    (platformMemDesc_covered d hmem)
  rw [hset]

end

/-- The CPU sees the pool uncached through the window at the addresses the DMA uses, everything
else that is described at its own address, and nothing else. What the first `k` descriptors
have mapped stays as it is, and no descriptor runs out of pages. -/
theorem board_mapping (L : MmuLayout) (m : Nat → BitVec 64) (pool : Nat)
    (haligned : pool % 0x200000 = 0) (hhi : pool + 0x200000 ≤ 0x80000000) :
    BoardMapped L pool (rtHwInitMmuTable L (platformMemDesc pool) ⟨m, 0⟩) ∧
      (∀ k (va : BitVec 64) x, va.toNat < 2 ^ 48 →
      walk L (rtHwInitMmuTable L ((platformMemDesc pool).take k) ⟨m, 0⟩) va = some x →
      walk L (rtHwInitMmuTable L (platformMemDesc pool) ⟨m, 0⟩) va = some x) ∧
      (∀ k d, (platformMemDesc pool)[k]? = some d →
      (rtHwMmuSetmtt L d (rtHwInitMmuTable L ((platformMemDesc pool).take k) ⟨m, 0⟩)).1 = 0) ∧
      (rtHwInitMmuTable L (platformMemDesc pool) ⟨m, 0⟩).i ≤ 4 := by
  refine ⟨board_mapped L m haligned hhi, fun k va x hva hx => board_stable L m hhi hva hx,
    fun k d hd => board_setmtt L m hhi hd, ?_⟩
  obtain ⟨nodes, h⟩ := board_prefix hhi L m (platformMemDesc pool).length
  rw [List.take_length] at h
  exact h.count_le

def linkedLayout : MmuLayout where
  mmuTable := 0x42100000
  mmuPage := 0x42101000
  table_aligned := by decide
  page_aligned := by decide
  page_nonnull := by decide
  apart := by decide
  table_bound := by decide
  page_bound := by decide

theorem board_mapping_linked :
    walk linkedLayout (rtHwInitMmuTable linkedLayout (platformMemDesc 0x42400000) ⟨fun _ => 0, 0⟩)
      0x80001234 =
      some ⟨0x42401234, 0x604⟩ :=
  (board_mapping linkedLayout (fun _ => 0) 0x42400000 (by decide) (by decide)).1.window 0x80001234
    (by decide) (by decide)

end Rk3576.Mmu
