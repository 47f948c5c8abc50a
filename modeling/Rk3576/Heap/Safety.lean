import Rk3576.Heap.Client

/-! The heap over whole runs, from `rt_system_heap_init` on. -/
namespace Rk3576.Heap
open Rk3576.Bytes Rk3576.Words Rk3576.Blocks Rk3576.Run
open Rk3576.Gmac (Byte)

/-- `rt_system_heap_init`: the object and its heap lie in the area between the two addresses. -/
def rtSystemHeapInit (beginAddr endAddr : Nat) (mem : HeapMem) : Option SmallMem :=
  let beginAlign := rtAlign beginAddr
  let endAlign := rtAlignDown endAddr
  if endAlign > beginAlign then rtSmemInit beginAddr (endAlign - beginAlign) mem else none

def boot (s : SmallMem) : Session := ⟨s, fun _ => none⟩

/-- What the callers rely on: blocks apart from each other, inside the heap, aligned, and with the
bytes that were written to them. -/
structure ClientOk (t : Session) : Prop where
  apart : ∀ p q w d, t.view p = some w → t.view q = some d → p ≠ q →
    p + w.length ≤ q ∨ q + d.length ≤ p
  inside : ∀ p w, t.view p = some w → 40 ≤ p ∧ p + w.length ≤ t.heap.heapEnd ∧
    (t.heap.heapPtr + p) % 4 = 0
  bytes : ∀ p w i b, t.view p = some w → w[i]? = some (some b) → t.heap.mem (p + i) = b

section InitItem
variable {h : HeapMem} {p flag nx pv : Nat}

theorem initItem_apply {x : Nat} (hx : x < p ∨ p + 40 ≤ x) : initItem h p flag nx pv x = h x := by
  rw [initItem, rtSmemSetname_apply (by omega), setPrev, setWord_apply (by omega), setNext,
    setWord_apply (by omega), setPoolPtr, setWord_apply (by omega)]

theorem initItem_poolPtr (hf : flag < 2 ^ 64) : poolPtr (initItem h p flag nx pv) p = flag := by
  rw [initItem, poolPtr, word_rtSmemSetname (by omega), setPrev,
    word_setWord_of_disjoint (by omega), setNext,
    word_setWord_of_disjoint (by omega), setPoolPtr, word_setWord hf]

theorem initItem_next (hn : nx < 2 ^ 64) : next (initItem h p flag nx pv) p = nx := by
  rw [initItem, next, word_rtSmemSetname (by omega), setPrev,
    word_setWord_of_disjoint (by omega), setNext, word_setWord hn]

theorem initItem_prev (hv : pv < 2 ^ 64) : prev (initItem h p flag nx pv) p = pv := by
  rw [initItem, prev, word_rtSmemSetname (by omega), setPrev, word_setWord hv]

end InitItem

theorem init_items {pool memSize : Nat} (mem : HeapMem) (hp : PoolOk pool (memSize + 40))
    (hmod : memSize % 4 = 0) :
    Items pool (memSize + 40)
      (initItem (initItem mem 0 (memFreed pool) (memSize + 40) 0) (memSize + 40)
        (memUsed pool) (memSize + 40)
        (memSize + 40)) [⟨memSize + 40, false⟩] := by
  have hbound := hp.bound
  have hfreed : memFreed pool < 2 ^ 64 := flagOf_lt hp.even hp.low false
  have hused : memUsed pool < 2 ^ 64 := flagOf_lt hp.even hp.low true
  have hfirst :
      Item pool (initItem mem 0 (memFreed pool) (memSize + 40) 0) 0 0 ⟨memSize + 40, false⟩ :=
    ⟨initItem_poolPtr hfreed, by rw [initItem_next (by omega), Nat.zero_add],
      initItem_prev (by decide)⟩
  refine ⟨⟨hfirst.congr fun x _ hx => initItem_apply (by omega), trivial⟩, by simp,
    initItem_poolPtr hused, ?_⟩
  intro b hb
  rw [List.mem_singleton.mp hb]
  dsimp only
  omega

theorem rtSmemInit_holds {beginAddr size : Nat} {mem : HeapMem} {s : SmallMem}
    (hpos : 0 < beginAddr)
    (hlow : beginAddr + 3 < 2 ^ 32) (h : rtSmemInit beginAddr size mem = some s) :
    Holds s [⟨s.heapEnd, false⟩] := by
  have hpool : rtAlign beginAddr = (beginAddr + 3) / 4 * 4 := by
    rw [rtAlign, Nat.mod_eq_of_lt (by omega)]
  have hbegin : rtAlign (rtAlign beginAddr + 104) = rtAlign beginAddr + 104 := by
    rw [rtAlign, Nat.mod_eq_of_lt (by omega)]
    omega
  have hend : rtAlignDown ((beginAddr + size) % 2 ^ 64) < 2 ^ 64 ∧
      rtAlignDown ((beginAddr + size) % 2 ^ 64) % 4 = 0 := by
    rw [rtAlignDown]
    omega
  simp only [rtSmemInit, sizeofStructMem, sizeofSmallMem, hbegin] at h
  generalize rtAlignDown ((beginAddr + size) % 2 ^ 64) = endAlign at *
  generalize rtAlign beginAddr = pool at *
  split at h
  · next hfits =>
    generalize hm : endAlign - (pool + 104) - 2 * 40 = memSize at *
    have hok : PoolOk pool (memSize + 40) := ⟨by omega, by omega, by omega⟩
    rw [initItem_next (by omega)] at h
    obtain rfl := Option.some.inj h
    refine ⟨init_items mem hok (by omega), hok, ?_, rfl, ?_, rfl, rfl, Nat.le_refl 0⟩
    · dsimp only
      omega
    · dsimp only
      omega
  · cases h

section Runs
variable {beginAddr endAddr : Nat} {mem : HeapMem} {s : SmallMem} (hpos : 0 < beginAddr)
  (hlow : beginAddr + 3 < 2 ^ 32)
  (hinit : rtSystemHeapInit beginAddr endAddr mem = some s)
include hpos hlow hinit

theorem good_boot : Good (boot s) [⟨s.heapEnd, false⟩] := by
  have hsmem : ∃ size, rtSmemInit beginAddr size mem = some s := by
    simp only [rtSystemHeapInit] at hinit
    split at hinit
    · exact ⟨_, hinit⟩
    · cases hinit
  obtain ⟨size, hs⟩ := hsmem
  refine ⟨rtSmemInit_holds hpos hlow hs, List.isChain_singleton _, ?_, ?_, ?_⟩
  · intro p w hp
    cases hp
  · intro a k hmem
    cases hmem
  · intro p w i b hp
    cases hp

theorem good_runs {ops : List HeapOp} (hr : Respects heapStep Allowed (boot s) ops) :
    ∃ t, runs heapStep (boot s) ops = some t ∧ ∃ bs, Good t bs := by
  refine runs_of_respects (I := fun t => ∃ bs, Good t bs) ?_ ⟨_, good_boot hpos hlow hinit⟩ hr
  rintro t op ⟨bs, ht⟩ hop
  obtain ⟨t', bs', hstep, hgood⟩ := good_step ht hop
  exact ⟨t', hstep, bs', hgood⟩

/-- No sequence of calls of the callers' threads makes the heap assert, hang, hand out memory
twice or lose a byte that was written. -/
theorem heap_client_ok {ops : List HeapOp} (hr : Respects heapStep Allowed (boot s) ops) :
    ∃ t, runs heapStep (boot s) ops = some t ∧ ClientOk t := by
  obtain ⟨t, ht, bs, hgood⟩ := good_runs hpos hlow hinit hr
  refine ⟨t, ht, fun p q w d hp hq hne => hgood.view.disjoint hp hq hne, fun p w hp => ?_,
    hgood.view.known⟩
  obtain ⟨hne, hp40, k, hk, hlen⟩ := hgood.view.live p w hp
  have hbounds := usedFrom_bounds hk
  have hlive := List.length_pos_iff.mpr hne
  have hreads := hgood.holds.realloc_reads hk (by omega)
  have htot := hgood.holds.items.total
  rw [Nat.sub_add_cancel hp40] at hreads
  exact ⟨hp40, by omega, hreads.2.1⟩

end Runs

def traceOf (p : Nat) : List Block → List (Nat × Nat × Bool)
  | [] => []
  | b :: bs => (p, b.size - 40, b.used) :: traceOf (p + b.size) bs

section Walk
variable {s : SmallMem} {q p : Nat} {bs : List Block} (hp : PoolOk s.pool s.heapEnd)
  (hc : Chain s.pool s.mem q p bs)
  (hs : Sized bs) (he : p + total bs = s.heapEnd)
include hp hc hs he

theorem memtraceWalk_chain {fuel : Nat} (hfuel : bs.length < fuel) :
    memtraceWalk s fuel p = some (traceOf p bs) := by
  induction bs generalizing q p fuel with
  | nil =>
    obtain ⟨fuel, rfl⟩ : ∃ k, fuel = k + 1 := ⟨fuel - 1, by omega⟩
    rw [total_nil, Nat.add_zero] at he
    rw [memtraceWalk, if_pos he, traceOf]
  | cons b bs ih =>
    obtain ⟨fuel, rfl⟩ : ∃ k, fuel = k + 1 := ⟨fuel - 1, by omega⟩
    obtain ⟨⟨hb, _⟩, hs'⟩ := sized_cons.mp hs
    rw [List.length_cons] at hfuel
    rw [total_cons] at he
    have hused : memIsUsed s.mem p = b.used := memIsUsed_eq hp.even hp.low hc.1.poolPtr
    have hnext : next s.mem p = p + b.size := hc.1.next
    have hinner : usub (p + b.size) p = b.size := by
      rw [usub_eq (by omega), Nat.add_sub_cancel_left]
    have hsize : usub b.size 40 = b.size - 40 := usub_eq hb
    rw [memtraceWalk, if_neg (by omega), hnext, hused, sizeofStructMem, hinner, hsize,
      ih hc.2 hs' (by omega) (by omega), traceOf]
    rfl

theorem memcheckWalk_chain {fuel : Nat} (hend : s.heapEnd = s.memSizeAligned + 40)
    (hsmall : s.heapEnd < 2 ^ 31)
    (hfuel : bs.length < fuel) : memcheckWalk s fuel p = some true := by
  induction bs generalizing q p fuel with
  | nil =>
    obtain ⟨fuel, rfl⟩ : ∃ k, fuel = k + 1 := ⟨fuel - 1, by omega⟩
    rw [total_nil, Nat.add_zero] at he
    rw [memcheckWalk, if_pos he]
  | cons b bs ih =>
    obtain ⟨fuel, rfl⟩ : ∃ k, fuel = k + 1 := ⟨fuel - 1, by omega⟩
    obtain ⟨⟨hb, _⟩, hs'⟩ := sized_cons.mp hs
    rw [List.length_cons] at hfuel
    rw [total_cons] at he
    have hpool : memPool s.mem p = s.pool := memPool_eq hp.even hp.low hc.1.poolPtr
    have hnext : next s.mem p = p + b.size := hc.1.next
    have hint : ∀ n, n < 2 ^ 31 → (BitVec.ofNat 32 n).toInt = n := by
      intro n hn
      rw [BitVec.toInt_ofNat', Int.bmod_eq_of_le (by omega) (by omega)]
    have hok :
      ¬ ((BitVec.ofNat 32 p).slt 0 ∨ (BitVec.ofNat 32 s.memSizeAligned).slt (BitVec.ofNat 32 p) ∨
        memPool s.mem p ≠ s.pool) := by
      simp only [BitVec.slt, hint p (by omega), hint s.memSizeAligned (by omega),
        hpool, decide_eq_true_eq]
      simp
      omega
    rw [memcheckWalk, if_neg (by omega), if_neg hok, hnext]
    exact ih hc.2 hs' (by omega) (by omega)

end Walk

section Holds
variable {s : SmallMem} {bs : List Block} (h : Holds s bs)
include h

theorem Holds.memtrace : memtrace s = some (traceOf 0 bs) := by
  have hlen := h.items.sized.length_le
  have htot := h.items.total
  exact memtraceWalk_chain h.pool h.items.chain h.items.sized (by omega) (by omega)

theorem Holds.memcheck (hsmall : s.heapEnd < 2 ^ 31) : memcheck s = some true := by
  have hlen := h.items.sized.length_le
  have htot := h.items.total
  exact memcheckWalk_chain h.pool h.items.chain h.items.sized (by omega) h.size hsmall (by omega)

theorem Holds.alloc_none_iff (self : List Byte) {size : Nat} (hsize : size ≠ 0) :
    rtSmemAlloc self s size = some (s, none) ↔ ∀ b ∈ bs, b.used = false →
    b.size < allocSize size + 40 := by
  obtain ⟨hall, hnone⟩ | ⟨pre, n, post, s', rfl, hfit, _, hs', _⟩ := rtSmemAlloc_cases self h hsize
  · exact iff_of_true hnone hall
  · refine iff_of_false ?_ fun hall => ?_
    · rw [hs']
      exact fun he => Option.some_ne_none _ (Prod.mk.inj (Option.some.inj he)).2
    · have := hall ⟨n, false⟩ (List.mem_append_right _ List.mem_cons_self) rfl
      dsimp only at this
      omega

end Holds

theorem Holds.alloc_whole {s : SmallMem} (h : Holds s [⟨s.heapEnd, false⟩]) (self : List Byte)
    {size : Nat} (hsize : size ≠ 0)
    (hfit : allocSize size ≤ s.memSizeAligned) :
    ∃ s', rtSmemAlloc self s size = some (s', some 40) := by
  have hend := h.size
  obtain ⟨hall, _⟩ | ⟨pre, n, post, s', hbs, _, _, hs', _⟩ := rtSmemAlloc_cases self h hsize
  · have := hall _ List.mem_cons_self rfl
    dsimp only at this
    omega
  · obtain rfl : pre = [] := by
      cases pre with
      | nil => rfl
      | cons b pre =>
        have := congrArg List.length hbs
        simp at this
    exact ⟨s', hs'⟩

theorem traceOf_mem {p : Nat} {bs : List Block} (P : Nat → Bool → Prop) :
    (∀ e ∈ traceOf p bs, P e.2.1 e.2.2) ↔ ∀ b ∈ bs, P (b.size - 40) b.used := by
  induction bs generalizing p with
  | nil => simp [traceOf]
  | cons b bs ih =>
    rw [traceOf, List.forall_mem_cons, List.forall_mem_cons, ih]

theorem traceOf_used {p : Nat} {bs : List Block} (hs : Sized bs) :
    (((traceOf p bs).filter (·.2.2)).map fun e => e.2.1 + 40).sum = usedTotal bs := by
  induction bs generalizing p with
  | nil => rfl
  | cons b bs ih =>
    obtain ⟨n, u⟩ := b
    obtain ⟨⟨hn, _⟩, hs'⟩ := sized_cons.mp hs
    dsimp only at hn
    rw [traceOf]
    cases u with
    | false => simpa using ih hs'
    | true =>
      have hcancel : n - 40 + 40 = n := Nat.sub_add_cancel hn
      simp [ih hs', hcancel]

theorem traceOf_coalesced {p : Nat} {bs : List Block} (hc : Coalesced bs) :
    (traceOf p bs).IsChain fun a b => a.2.2 = true ∨ b.2.2 = true := by
  induction bs generalizing p with
  | nil => exact List.isChain_nil
  | cons b bs ih =>
    obtain ⟨hhead, hrest⟩ := List.isChain_cons.mp hc
    refine List.isChain_cons.mpr ⟨?_, ih hrest⟩
    cases bs with
    | nil => simp [traceOf]
    | cons w bs => simpa [traceOf] using hhead

section Accounts
variable {beginAddr endAddr : Nat} {mem : HeapMem} {s : SmallMem} (hpos : 0 < beginAddr)
  (hlow : beginAddr + 3 < 2 ^ 32)
  (hinit : rtSystemHeapInit beginAddr endAddr mem = some s)
include hpos hlow hinit

/-- In every state the callers can reach, the walk of `memtrace` ends and shows no two free items
side by side, `used` is the sum over the used items, `memcheck` has nothing to report, and a request
fails exactly when no free item has room for it. -/
theorem heap_accounts {ops : List HeapOp} (hr : Respects heapStep Allowed (boot s) ops)
    {t : Session} (ht : runs heapStep (boot s) ops = some t) :
    ∃ items, memtrace t.heap = some items ∧ items.IsChain (fun a b => a.2.2 = true ∨ b.2.2 = true) ∧
      t.heap.used = ((items.filter (·.2.2)).map fun e => e.2.1 + 40).sum ∧
      t.heap.used ≤ t.heap.max ∧
      (t.heap.heapEnd < 2 ^ 31 → memcheck t.heap = some true) ∧
      ∀ self size, size ≠ 0 →
        (rtSmemAlloc self t.heap size = some (t.heap, none) ↔ ∀ e ∈ items, e.2.2 = false →
          e.2.1 < allocSize size) := by
  obtain ⟨t', ht', bs, hgood⟩ := good_runs hpos hlow hinit hr
  obtain rfl : t' = t := Option.some.inj (ht'.symm.trans ht)
  have hsized := hgood.holds.items.sized
  refine ⟨traceOf 0 bs, hgood.holds.memtrace, traceOf_coalesced hgood.coalesced,
    ?_, hgood.holds.peak,
    hgood.holds.memcheck, ?_⟩
  · rw [traceOf_used hsized]
    exact hgood.holds.used
  · intro self size hsize
    rw [hgood.holds.alloc_none_iff self hsize, traceOf_mem fun k u => u = false →
      k < allocSize size]
    refine forall_congr' fun b => forall_congr' fun hb => forall_congr' fun _ => ?_
    have := (hsized b hb).1
    omega

/-- When every block has been given back, the heap is one free block again. -/
theorem heap_all_returned {ops : List HeapOp} (hr : Respects heapStep Allowed (boot s) ops)
    {t : Session} (ht : runs heapStep (boot s) ops = some t) (hnone : ∀ p, t.view p = none) :
    t.heap.used = 0 ∧ memtrace t.heap = some [(0, t.heap.memSizeAligned, false)] ∧
      ∀ self size, size ≠ 0 → allocSize size ≤ t.heap.memSizeAligned →
        ∃ s', rtSmemAlloc self t.heap size = some (s', some 40) := by
  obtain ⟨t', ht', bs, hgood⟩ := good_runs hpos hlow hinit hr
  obtain rfl : t' = t := Option.some.inj (ht'.symm.trans ht)
  have htot := hgood.holds.items.total
  have hend := hgood.holds.size
  -- no block is used, so there is only one
  have hfree : ∀ b ∈ bs, b.used = false := by
    intro b hb
    cases hu : b.used with
    | false => rfl
    | true =>
      obtain ⟨pre, post, rfl⟩ := List.append_of_mem hb
      have hm : (total pre, b.size) ∈ usedFrom 0 (pre ++ b :: post) := by
        simp [usedFrom, hu]
      exact absurd (hnone _) (hgood.view.owned _ _ hm)
  obtain rfl : bs = [⟨t'.heap.heapEnd, false⟩] := by
    rw [← htot]
    exact eq_single_of_free hgood.coalesced hfree fun hnil => by
      rw [hnil, total_nil] at htot
      omega
  refine ⟨hgood.holds.used, ?_, ?_⟩
  · rw [hgood.holds.memtrace, traceOf, traceOf, hend]
    rfl
  · intro self size hsize hfit
    exact hgood.holds.alloc_whole self hsize hfit

end Accounts

def pageHeap : SmallMem :=
  (rtSystemHeapInit 0x40400000 0x40401000 fun _ => 0).get (by decide +kernel)

theorem pageHeap_init : rtSystemHeapInit 0x40400000 0x40401000 (fun _ => 0) = some pageHeap :=
  (Option.some_get _).symm

/-- A block is moved by `rt_realloc`, and the room it leaves is used and given back again. -/
def pageOps : List HeapOp :=
  [.rtMalloc [0x6d] 100, .store 40 0 7, .rtCalloc [0x6e] 5 4, .store 180 3 9,
    .rtRealloc [0x6d] (some 40) 150, .rtMalloc [0x6f] 8, .rtFree (some 40)]

/-- Two blocks are left in hand, with what was written to them. -/
theorem heap_client_ok_page : ∃ t, runs heapStep (boot pageHeap) pageOps = some t ∧
      (t.view 180).map (·.take 5) = some [some 0, some 0, some 0, some 9, some 0] ∧
      (t.view 244).map (·.take 2) = some [some 7, none] ∧ ClientOk t := by
  obtain ⟨t, ht, hok⟩ := heap_client_ok (by decide) (by decide) pageHeap_init
    (by decide +kernel : Respects heapStep Allowed (boot pageHeap) pageOps)
  have hview : (runs heapStep (boot pageHeap) pageOps).map
      (fun t => ((t.view 180).map (·.take 5), (t.view 244).map (·.take 2))) =
        some (some [some 0, some 0, some 0, some 9, some 0], some [some 7, none]) := by
    decide +kernel
  rw [ht, Option.map_some, Option.some.injEq, Prod.mk.injEq] at hview
  exact ⟨t, ht, hview.1, hview.2, hok⟩

theorem heap_accounts_page : ∃ t items, runs heapStep (boot pageHeap) pageOps = some t ∧
      memtrace t.heap = some items ∧
      items = [(0, 100, false), (140, 24, true), (204, 152, true), (396, 3516, false)] ∧
      t.heap.used = ((items.filter (·.2.2)).map fun e => e.2.1 + 40).sum := by
  obtain ⟨items, htrace⟩ : ∃ items, (runs heapStep (boot pageHeap) pageOps).bind
      (fun t => memtrace t.heap) = some items ∧
        items = [(0, 100, false), (140, 24, true), (204, 152, true), (396, 3516, false)] :=
    ⟨_, by decide +kernel, rfl⟩
  obtain ⟨t, ht, hitems⟩ := Option.bind_eq_some_iff.mp htrace.1
  obtain ⟨items', hitems', _, hused, _⟩ := heap_accounts (by decide) (by decide) pageHeap_init
    (by decide +kernel : Respects heapStep Allowed (boot pageHeap) pageOps) ht
  obtain rfl := Option.some.inj (hitems.symm.trans hitems')
  exact ⟨t, items, ht, hitems, htrace.2, hused⟩

def oneBlock : List HeapOp := [.rtMalloc [0x6d] 100, .store 40 0 7, .rtFree (some 40)]

theorem oneBlock_returned {t : Session} (ht : runs heapStep (boot pageHeap) oneBlock = some t)
    (p : Nat) : t.view p = none := by
  obtain ⟨s', hs'⟩ := (good_boot (by decide) (by decide) pageHeap_init).holds.alloc_whole [0x6d]
    (by decide : 100 ≠ 0) (by decide +kernel)
  have hstep : heapStep (boot pageHeap) (.rtMalloc [0x6d] 100) =
      some ⟨s', Function.update (fun _ => none) 40 (some (List.replicate 100 none))⟩ := by
    rw [heapStep, hs']
    rfl
  obtain ⟨t₁, h₁, ht⟩ := runs_cons.mp ht
  obtain rfl := Option.some.inj (hstep.symm.trans h₁)
  obtain ⟨t₂, h₂, ht⟩ := runs_cons.mp ht
  obtain rfl := Option.some.inj h₂
  obtain ⟨t₃, h₃, ht⟩ := runs_cons.mp ht
  obtain rfl := Option.some.inj ht
  rw [heapStep] at h₃
  obtain ⟨h', _, rfl⟩ := Option.map_eq_some_iff.mp h₃
  simp only [View.drop, Function.update_apply]
  split <;> simp_all

theorem heap_all_returned_page : ∃ t, runs heapStep (boot pageHeap) oneBlock = some t ∧
      memtrace t.heap = some [(0, t.heap.memSizeAligned, false)] := by
  have hr : Respects heapStep Allowed (boot pageHeap) oneBlock := by decide +kernel
  obtain ⟨t, ht, _⟩ := good_runs (by decide) (by decide) pageHeap_init hr
  obtain ⟨_, htrace, _⟩ := heap_all_returned (by decide) (by decide) pageHeap_init hr ht
    (oneBlock_returned ht)
  exact ⟨t, ht, htrace⟩

end Rk3576.Heap
