import Rk3576.Heap.Items

/-! What `rt_smem_alloc`, `rt_smem_free` and `rt_smem_realloc` do to the list of blocks. -/
namespace Rk3576.Heap
open Rk3576.Bytes Rk3576.Words Rk3576.Blocks
open Rk3576.Gmac (Byte)

/-- The heap object describes the blocks `bs`. -/
structure Holds (s : SmallMem) (bs : List Block) : Prop where
  items : Items s.pool s.heapEnd s.mem bs
  pool : PoolOk s.pool s.heapEnd
  poolPos : s.pool ≠ 0
  size : s.heapEnd = s.memSizeAligned + 40
  aligned : s.heapPtr % 4 = 0
  lfree : s.lfree = lead bs
  used : s.used = usedTotal bs
  peak : s.used ≤ s.max

structure SameHeap (s s' : SmallMem) : Prop where
  pool : s'.pool = s.pool
  heapPtr : s'.heapPtr = s.heapPtr
  heapEnd : s'.heapEnd = s.heapEnd
  memSizeAligned : s'.memSizeAligned = s.memSizeAligned

theorem SameHeap.refl (s : SmallMem) : SameHeap s s := ⟨rfl, rfl, rfl, rfl⟩

theorem SameHeap.trans {s s' s'' : SmallMem} (h : SameHeap s s') (h' : SameHeap s' s'') :
    SameHeap s s'' where
  pool := h'.pool.trans h.pool
  heapPtr := h'.heapPtr.trans h.heapPtr
  heapEnd := h'.heapEnd.trans h.heapEnd
  memSizeAligned := h'.memSizeAligned.trans h.memSizeAligned

/-- The outcome of an operation: the heap now describes `bs`, and the data of the blocks used
before and after it is what it was. -/
structure Outcome (s s' : SmallMem) (bs : List Block) : Prop where
  holds : Holds s' bs
  same : SameHeap s s'
  user : ∀ x, UserByte 0 bs x → s'.mem x = s.mem x

theorem lastStart_snoc (q p : Nat) (xs : List Block) (b : Block) :
    lastStart q p (xs ++ [b]) = p + total xs := by
  induction xs generalizing q p with
  | nil => rfl
  | cons c xs ih => rw [List.cons_append, lastStart, ih, total_cons, Nat.add_assoc]

section Holds
variable {s : SmallMem} {pre post : List Block}

theorem Holds.isUsed {b : Block} (h : Holds s (pre ++ b :: post)) :
    memIsUsed s.mem (total pre) = b.used :=
  memIsUsed_eq h.pool.even h.pool.low h.items.mid.1.poolPtr

theorem Holds.next_eq {b : Block} (h : Holds s (pre ++ b :: post)) :
    next s.mem (total pre) = total pre + b.size :=
  h.items.mid.1.next

theorem Holds.isUsed_second {b c : Block} (h : Holds s (pre ++ b :: c :: post)) :
    memIsUsed s.mem (total pre + b.size) = c.used := by
  have h' : Holds s ((pre ++ [b]) ++ c :: post) := by simpa using h
  simpa using h'.isUsed

theorem Outcome.refl {bs : List Block} (h : Holds s bs) : Outcome s s bs :=
  ⟨h, SameHeap.refl s, fun _ _ => rfl⟩

theorem Outcome.trans {s' s'' : SmallMem} {bs bs' : List Block} (h : Outcome s s' bs)
    (h' : Outcome s' s'' bs')
    (hsub : ∀ x, UserByte 0 bs' x → UserByte 0 bs x) : Outcome s s'' bs' where
  holds := h'.holds
  same := h.same.trans h'.same
  user x hx := (h'.user x hx).trans (h.user x (hsub x hx))

theorem userByte_glue {p x : Nat} {xs ys : List Block} :
    UserByte p (glue xs ys) x ↔ UserByte p (xs ++ ys) x := by
  rw [UserByte, UserByte, usedFrom_glue]

theorem combine_outcome {m n lfree : Nat} (h : Holds s (pre ++ ⟨m, false⟩ :: ⟨n, false⟩ :: post))
    (hl : lfree = s.lfree) :
    Outcome s { s with lfree, mem := combineItem s.mem (total pre) (total pre + m) }
      (pre ++ ⟨m + n, false⟩ :: post) where
  holds :=
    { items := h.items.combine h.pool
      pool := h.pool
      poolPos := h.poolPos
      size := h.size
      aligned := h.aligned
      lfree := by
        rw [lead_append_free, ← lead_append_free pre (⟨n, false⟩ :: post) m, ← h.lfree, hl]
      used := by simpa using h.used
      peak := h.peak }
  same := ⟨rfl, rfl, rfl, rfl⟩
  user _ hx := h.items.combine_user hx

theorem plugForward_outcome {n : Nat} (h : Holds s (pre ++ ⟨n, false⟩ :: post)) :
    Outcome s (plugForward s (total pre)) (pre ++ glue [⟨n, false⟩] post) := by
  have hnext : next s.mem (total pre) = total pre + n := h.next_eq
  have htot := h.items.mid.2.2
  obtain ⟨_, ⟨hn, _⟩, hpost⟩ := sized_append.mp h.items.sized |>.imp_right sized_cons.mp
  dsimp only at hn htot
  simp only [plugForward, hnext]
  match post with
  | [] =>
    rw [total_nil] at htot
    rw [if_neg fun hc => hc.2.2 htot, glue_nil_right]
    exact Outcome.refl h
  | ⟨k, true⟩ :: post =>
    have hused : memIsUsed s.mem (total pre + n) = true := h.isUsed_second
    rw [if_neg (by simp [hused]), glue_used_right]
    exact Outcome.refl h
  | ⟨k, false⟩ :: post =>
    have hfree : memIsUsed s.mem (total pre + n) = false := h.isUsed_second
    have hk := (sized_cons.mp hpost).1
    have hlead : s.lfree ≤ total pre := by
      rw [h.lfree, lead_append_free]
      exact lead_le_total pre
    rw [total_cons] at htot
    dsimp only at htot hk
    rw [if_pos ⟨by omega, hfree, by omega⟩]
    exact combine_outcome h (if_neg (by omega))

theorem plugBackward_outcome {n : Nat} (h : Holds s (pre ++ ⟨n, false⟩ :: post)) :
    Outcome s (plugBackward s (total pre)) (glue pre (⟨n, false⟩ :: post)) := by
  have hprev : prev s.mem (total pre) = lastStart 0 0 pre := h.items.mid.1.prev
  have hpre := (sized_append.mp h.items.sized).1
  simp only [plugBackward, hprev]
  rcases List.eq_nil_or_concat pre with rfl | ⟨pre, ⟨k, u⟩, rfl⟩
  · rw [if_neg fun hc => hc.1 rfl, glue_nil_left]
    exact Outcome.refl h
  · rw [List.concat_eq_append] at *
    have hk := (sized_cons.mp (sized_append.mp hpre).2).1
    have h' : Holds s (pre ++ ⟨k, u⟩ :: ⟨n, false⟩ :: post) := by simpa using h
    rw [lastStart_snoc, Nat.zero_add, h'.isUsed, total_append, total_cons, total_nil, Nat.add_zero]
    dsimp only at hk ⊢
    cases u with
    | true =>
      rw [if_neg (by simp), glue_used_left]
      exact Outcome.refl h'
    | false =>
      have hlead : s.lfree ≤ total pre := by
        rw [h'.lfree, lead_append_free]
        exact lead_le_total pre
      rw [if_pos ⟨by omega, rfl⟩, glue_free]
      exact combine_outcome h' (if_neg (by omega))

theorem plugHoles_outcome {n : Nat} (h : Holds s (pre ++ ⟨n, false⟩ :: post)) :
    ∃ s', plugHoles s (total pre) = some s' ∧ Outcome s s' (glue pre (glue [⟨n, false⟩] post)) := by
  have htot := h.items.mid.2.2
  obtain ⟨_, ⟨hn, _⟩, _⟩ := sized_append.mp h.items.sized |>.imp_right sized_cons.mp
  dsimp only at hn htot
  have hforward := plugForward_outcome h
  refine ⟨plugBackward (plugForward s (total pre)) (total pre), ?_, ?_⟩
  · rw [plugHoles, if_neg (by omega)]
  · obtain ⟨m, rest, hglue⟩ : ∃ m rest, glue [⟨n, false⟩] post = ⟨m, false⟩ :: rest := by
      match post with
      | [] => exact ⟨n, [], glue_nil_right _⟩
      | ⟨k, true⟩ :: post => exact ⟨n, ⟨k, true⟩ :: post, glue_used_right _ _ _⟩
      | ⟨k, false⟩ :: post => exact ⟨n + k, post, glue_free [] post n k⟩
    rw [hglue] at hforward ⊢
    refine hforward.trans (plugBackward_outcome hforward.holds) ?_
    intro x hx
    exact userByte_glue.mp hx

theorem Holds.pool_next {b : Block} (h : Holds s (pre ++ b :: post)) :
    memPool s.mem (total pre + b.size) = s.pool := by
  obtain ⟨_, hrest, htot⟩ := h.items.mid
  match post with
  | [] =>
    rw [total_nil, Nat.add_zero] at htot
    rw [htot]
    exact memPool_eq h.pool.even h.pool.low h.items.endItem
  | c :: post => exact memPool_eq h.pool.even h.pool.low hrest.1.poolPtr

theorem Holds.lfree_min {n : Nat} (h : Holds s (pre ++ ⟨n, true⟩ :: post)) (hn : 0 < n) :
    (if total pre < s.lfree then total pre else s.lfree) = lead pre := by
  have hlead := h.lfree
  rw [lead_append] at hlead
  split at hlead
  · next hall =>
    have hcons : lead (⟨n, true⟩ :: post) = n + lead post := by simp [lead]
    rw [if_pos (by omega), lead_of_used hall]
  · have := lead_le_total pre
    rw [if_neg (by omega), hlead]

theorem rtSmemFree_outcome {n : Nat} (h : Holds s (pre ++ ⟨n, true⟩ :: post)) (hn : 40 < n) :
    ∃ s', rtSmemFree s (some (total pre + 40)) = some s' ∧
    Outcome s s' (glue pre (glue [⟨n, false⟩] post)) := by
  obtain ⟨hpre, _, hpost⟩ := sized_append.mp h.items.sized |>.imp_right sized_cons.mp
  have htot := h.items.mid.2.2
  have hnext : next s.mem (total pre) = total pre + n := h.next_eq
  have hmod := hpre.total_mod
  have halign := h.aligned
  have hbound := h.pool.bound
  have hused := h.used
  have hpeak := h.peak
  dsimp only at htot
  generalize hg : rtSmemSetname (setPoolPtr s.mem (total pre) (memFreed s.pool))
    (total pre) blankName = g
  have hitems : Items s.pool s.heapEnd g (pre ++ ⟨n, false⟩ :: post) :=
    hg ▸ h.items.flag h.pool (memFreed_flag _) blankName
  have hnext' : next g (total pre) = total pre + n := hitems.mid.1.next
  have hsum : usedTotal (pre ++ ⟨n, true⟩ :: post) = usedTotal pre + (n + usedTotal post) := by simp
  have hsum' : usedTotal (pre ++ ⟨n, false⟩ :: post) = usedTotal pre + usedTotal post := by simp
  have hle : usedTotal (pre ++ ⟨n, true⟩ :: post) ≤ s.heapEnd := by
    rw [← h.items.total]
    exact usedTotal_le_total _
  have hsize : usub (total pre + n) (total pre) = n := by
    rw [usub_eq (by omega)]
    omega
  have hsub : usub s.used (usub (total pre + n) (total pre)) = s.used - n := by
    rw [hsize, usub_eq (by omega)]
  -- the state in which `plug_holes` is called
  have hfreed : Outcome s
      { s with
        mem := g, lfree := if total pre < s.lfree then total pre else s.lfree, used := s.used - n }
      (pre ++ ⟨n, false⟩ :: post) :=
    { holds :=
        { items := hitems
          pool := h.pool
          poolPos := h.poolPos
          size := h.size
          aligned := h.aligned
          lfree := by rw [h.lfree_min (by omega), lead_append_free]
          used := by dsimp only; omega
          peak := by dsimp only; omega }
      same := ⟨rfl, rfl, rfl, rfl⟩
      user := fun x hx => hg ▸ flag_user rfl hx (by omega) }
  obtain ⟨s', hs', hout⟩ := plugHoles_outcome hfreed.holds
  refine ⟨s', ?_, hfreed.trans hout fun x hx => ?_⟩
  · have hp : total pre + 40 - 40 = total pre := by omega
    have hpool : memPool s.mem (total pre) = s.pool :=
      memPool_eq h.pool.even h.pool.low h.items.mid.1.poolPtr
    have hpool' : memPool s.mem (total pre + n) = s.pool := h.pool_next
    simp only [rtSmemFree, sizeofStructMem, hp, hnext, hpool, hpool', h.isUsed, hg, hnext', hsub]
    rw [if_pos ⟨by omega, by omega, trivial, h.poolPos, trivial, by omega, trivial⟩]
    exact hs'
  · rw [userByte_glue, userByte_append, userByte_glue, ← userByte_append] at hx
    exact hx

end Holds

section Loops
variable {pool : Nat} {h : HeapMem} {q p e : Nat} {bs : List Block} (heven : pool % 2 = 0)
  (hlow : pool < 2 ^ 32)
  (hc : Chain pool h q p bs) (hs : Sized bs) (he : p + total bs = e)
include heven hlow hc hs he

/-- The scan gives up only where no block can fit any more. -/
theorem findFit_chain {size fuel : Nat} (hsize : size + 40 ≤ e) (hfuel : bs.length < fuel) :
    findFit h size (e - 40 - size) fuel p = some (firstFit (size + 40) p bs) := by
  induction bs generalizing q p fuel with
  | nil =>
    obtain ⟨fuel, rfl⟩ : ∃ k, fuel = k + 1 := ⟨fuel - 1, by omega⟩
    rw [total_nil] at he
    rw [findFit, if_neg (by omega), firstFit]
  | cons b bs ih =>
    obtain ⟨fuel, rfl⟩ : ∃ k, fuel = k + 1 := ⟨fuel - 1, by omega⟩
    obtain ⟨⟨hb, _⟩, hs'⟩ := sized_cons.mp hs
    rw [List.length_cons] at hfuel
    rw [total_cons] at he
    have hused : memIsUsed h p = b.used := memIsUsed_eq heven hlow hc.1.poolPtr
    have hnext : next h p = p + b.size := hc.1.next
    have hdata : usub (p + b.size) (p + 40) = b.size - 40 := by
      rw [usub_eq (by omega)]
      omega
    rw [findFit]
    by_cases hlim : p ≤ e - 40 - size
    · have hiff : size ≤ b.size - 40 ↔ size + 40 ≤ b.size := by omega
      rw [if_pos hlim, hused, hnext, sizeofStructMem, hdata, firstFit, apply_ite some]
      exact if_congr (and_congr_right fun _ => hiff) rfl (ih hc.2 hs' (by omega) (by omega))
    · rw [if_neg hlim]
      refine congrArg some (Eq.symm (firstFit_eq_none.mpr ?_))
      intro c hcmem _
      have := size_le_total hcmem
      rw [total_cons] at this
      omega

theorem findFree_chain {fuel : Nat} (hfuel : bs.length < fuel) :
    findFree h e fuel p = some (p + lead bs) := by
  induction bs generalizing q p fuel with
  | nil =>
    obtain ⟨fuel, rfl⟩ : ∃ k, fuel = k + 1 := ⟨fuel - 1, by omega⟩
    rw [total_nil] at he
    rw [findFree, if_neg fun hcond => hcond.2 he]
    rfl
  | cons b bs ih =>
    obtain ⟨fuel, rfl⟩ : ∃ k, fuel = k + 1 := ⟨fuel - 1, by omega⟩
    obtain ⟨⟨hb, _⟩, hs'⟩ := sized_cons.mp hs
    rw [List.length_cons] at hfuel
    rw [total_cons] at he
    have hused : memIsUsed h p = b.used := memIsUsed_eq heven hlow hc.1.poolPtr
    have hnext : next h p = p + b.size := hc.1.next
    rw [findFree, hused, hnext]
    cases hu : b.used with
    | false =>
      have hlead : lead (b :: bs) = 0 := by simp [lead, hu]
      rw [if_neg fun hcond => Bool.false_ne_true hcond.1, hlead, Nat.add_zero]
    | true =>
      have hlead : lead (b :: bs) = b.size + lead bs := by simp [lead, hu]
      rw [if_pos ⟨rfl, by omega⟩, ih hc.2 hs' (by omega) (by omega), hlead, Nat.add_assoc]

end Loops

def taken (n size : Nat) : List Block :=
  if size + 40 + 24 ≤ n - 40 then [⟨size + 40, true⟩, ⟨n - (size + 40), false⟩] else [⟨n, true⟩]

theorem allocSize_mod (size : Nat) : allocSize size % 4 = 0 := by
  rw [allocSize]
  split
  · rfl
  · rw [rtAlign]
    omega

section Alloc
variable {s : SmallMem} {pre post : List Block} {n size : Nat}

/-- The heap `t` before its item of `k` bytes is marked used: counted, but free in the chain. -/
structure Taking (s t : SmallMem) (pre : List Block) (k : Nat) (rest : List Block) : Prop where
  items : Items t.pool t.heapEnd t.mem (pre ++ ⟨k, false⟩ :: rest)
  same : SameHeap s t
  lfree : t.lfree = s.lfree
  used : t.used = s.used + k
  peak : t.used ≤ t.max
  user : ∀ x, UserByte 0 (pre ++ ⟨k, true⟩ :: rest) x → t.mem x = s.mem x

theorem le_newMax (a b : Nat) : b ≤ if a < b then b else a := by
  split <;> omega

theorem takeItem_taking (h : Holds s (pre ++ ⟨n, false⟩ :: post)) (hsize : size % 4 = 0)
    (hfit : size + 40 ≤ n) :
    ∃ k rest, taken n size ++ post = ⟨k, true⟩ :: rest ∧ size + 40 ≤ k ∧
    usedTotal rest = usedTotal post ∧
      Taking s (takeItem s (total pre) size) pre k rest := by
  have htot := h.items.mid.2.2
  have hnext : next s.mem (total pre) = total pre + n := h.next_eq
  have hbound := h.pool.bound
  dsimp only at htot
  have hdata : usub (total pre + n) (total pre + 40) = n - 40 := by
    rw [usub_eq (by omega)]
    omega
  have hwhole : usub (total pre + n) (total pre) = n := by
    rw [usub_eq (by omega)]
    omega
  simp only [takeItem, hnext, sizeofStructMem, minSizeAligned, hdata, hwhole, taken]
  by_cases hcut : size + 40 + 24 ≤ n - 40
  · have hp : total pre + 40 + size = total pre + (size + 40) := by omega
    rw [if_pos hcut, if_pos hcut, hp]
    generalize hg : splitItem s.pool s.memSizeAligned s.mem (total pre)
      (total pre + (size + 40)) = g
    have hsplit :
        Items s.pool s.heapEnd g (pre ++ ⟨size + 40, false⟩ :: ⟨n - (size + 40), false⟩ :: post) :=
      hg ▸ h.items.split h.pool h.size (by omega) (by omega) (by omega)
    refine ⟨size + 40, ⟨n - (size + 40), false⟩ :: post, rfl, Nat.le_refl _, usedTotal_free _ _, ?_⟩
    refine ⟨hsplit, ⟨rfl, rfl, rfl, rfl⟩, rfl, rfl, le_newMax s.max _, fun x hx => ?_⟩
    have hkeep := h.items.split_user h.pool (m := s.memSizeAligned) (by omega) (by omega) hx
    rwa [hg] at hkeep
  · rw [if_neg hcut, if_neg hcut]
    exact ⟨n, post, rfl, hfit, rfl, h.items, ⟨rfl, rfl, rfl, rfl⟩, rfl, rfl, le_newMax s.max _,
      fun _ _ => rfl⟩

/-- Taking the first free block moves `lfree` to the next one, taking another leaves it. -/
theorem lead_taken {k : Nat} {rest : List Block} (hs : Sized pre) :
    (if total pre = lead pre then total pre + lead (⟨k, true⟩ :: rest) else lead pre) =
      lead (pre ++ ⟨k, true⟩ :: rest) := by
  rw [lead_append]
  by_cases hall : ∀ b ∈ pre, b.used = true
  · rw [if_pos hall, if_pos (lead_of_used hall).symm]
  · have := hs.lead_lt hall
    rw [if_neg hall, if_neg (by omega)]

theorem findFree_taken {pool heapEnd k : Nat} {g : HeapMem} {rest : List Block}
    (hpool : PoolOk pool heapEnd) (hi : Items pool heapEnd g (pre ++ ⟨k, true⟩ :: rest)) :
    (if total pre = lead pre then findFree g heapEnd (heapEnd + 1) (lead pre)
      else some (lead pre)) =
      some (lead (pre ++ ⟨k, true⟩ :: rest)) := by
  obtain ⟨hpre, hrest⟩ := sized_append.mp hi.sized
  have hchain := (chain_append.mp hi.chain).2
  have htot := hi.total
  have hlen := hrest.length_le
  rw [total_append] at htot
  rw [Nat.zero_add] at hchain
  rw [← lead_taken hpre, apply_ite some]
  by_cases hlow : total pre = lead pre
  · rw [if_pos hlow, if_pos hlow, ← hlow]
    exact findFree_chain hpool.even hpool.low hchain hrest htot (by omega)
  · rw [if_neg hlow, if_neg hlow]

theorem allocItem_eq {self : List Byte} {t : SmallMem} {g : HeapMem} {ptr lfree : Nat}
    (ht : takeItem s ptr size = t)
    (hg : rtSmemSetname (setPoolPtr t.mem ptr (memUsed t.pool)) ptr self = g)
    (hn : nextFree { t with mem := g } ptr = some lfree)
    (hc : ptr + 40 + size ≤ t.heapEnd ∧ (t.heapPtr + ptr) % 4 = 0) :
    allocItem self s ptr size = some ({ t with mem := g, lfree }, ptr + 40) := by
  rw [allocItem, ht]
  dsimp only
  rw [hg, hn]
  exact if_pos hc

theorem allocItem_outcome (self : List Byte) (h : Holds s (pre ++ ⟨n, false⟩ :: post))
    (hsize : size % 4 = 0) (hfit : size + 40 ≤ n) :
    ∃ s', allocItem self s (total pre) size = some (s', total pre + 40) ∧
      Outcome s s' (pre ++ (taken n size ++ post)) := by
  obtain ⟨k, rest, htaken, hk, hrest, htake⟩ := takeItem_taking h hsize hfit
  have hmod := (sized_append.mp h.items.sized).1.total_mod
  have halign := h.aligned
  generalize ht : takeItem s (total pre) size = t at htake
  have hpool : PoolOk t.pool t.heapEnd := by
    rw [htake.same.pool, htake.same.heapEnd]
    exact h.pool
  generalize hg : rtSmemSetname (setPoolPtr t.mem (total pre) (memUsed t.pool)) (total pre) self = g
  have hflag : Items t.pool t.heapEnd g (pre ++ ⟨k, true⟩ :: rest) :=
    hg ▸ htake.items.flag hpool (memUsed_flag _) self
  have htot := hflag.mid.2.2
  have hlead : t.lfree = lead pre := by rw [htake.lfree, h.lfree, lead_append_free]
  have hwalk := findFree_taken hpool hflag
  rw [← hlead] at hwalk
  refine ⟨{ t with mem := g, lfree := lead (pre ++ ⟨k, true⟩ :: rest) }, ?_, ?_⟩
  · have hcheck : total pre + 40 + size ≤ t.heapEnd ∧ (t.heapPtr + total pre) % 4 = 0 := by
      rw [htake.same.heapPtr]
      dsimp only at htot
      omega
    exact allocItem_eq ht hg hwalk hcheck
  · rw [htaken]
    refine ⟨⟨hflag, hpool, ?_, ?_, ?_, rfl, ?_, htake.peak⟩, ?_, ?_⟩
    · exact fun hz => h.poolPos (htake.same.pool.symm.trans hz)
    · exact htake.same.heapEnd.trans
        (h.size.trans (congrArg (· + 40) htake.same.memSizeAligned.symm))
    · exact (congrArg (· % 4) htake.same.heapPtr).trans h.aligned
    · have hsum := h.used
      have hused := htake.used
      simp only [usedTotal_append, usedTotal_free, usedTotal_used] at hsum ⊢
      omega
    · exact ⟨htake.same.pool, htake.same.heapPtr, htake.same.heapEnd, htake.same.memSizeAligned⟩
    · intro x hx
      exact (hg ▸ flag_user rfl hx (by omega)).trans (htake.user x hx)

theorem Holds.findFit {bs : List Block} (h : Holds s bs) (hsize : size ≤ s.memSizeAligned) :
    findFit s.mem size (s.memSizeAligned - size) (s.heapEnd + 1) s.lfree =
      some (firstFit (size + 40) 0 bs) := by
  have hbs := List.takeWhile_append_dropWhile (p := Block.used) (l := bs)
  have hchain := h.items.chain
  have hsized := h.items.sized
  have htot := h.items.total
  have hend := h.size
  rw [← hbs, chain_append, Nat.zero_add] at hchain
  rw [← hbs, sized_append] at hsized
  have hlen := hsized.2.length_le
  rw [← hbs, total_append] at htot
  have hlim : s.memSizeAligned - size = s.heapEnd - 40 - size := by omega
  rw [h.lfree, hlim, ← firstFit_dropWhile, Nat.zero_add]
  exact findFit_chain h.pool.even h.pool.low hchain.2 hsized.2 htot (by omega) (by omega)

/-- First fit: a free block that is large enough is found if there is one, and otherwise the heap
stays as it is. -/
theorem rtSmemAlloc_cases (self : List Byte) {bs : List Block} (h : Holds s bs) (hsize : size ≠ 0) :
    ((∀ b ∈ bs, b.used = false → b.size < allocSize size + 40) ∧
      rtSmemAlloc self s size = some (s, none)) ∨
      ∃ pre n post s', bs = pre ++ ⟨n, false⟩ :: post ∧ allocSize size + 40 ≤ n ∧
      (∀ b ∈ pre, b.used = false → b.size < allocSize size + 40) ∧
      rtSmemAlloc self s size = some (s', some (total pre + 40)) ∧
      Outcome s s' (pre ++ (taken n (allocSize size) ++ post)) := by
  have htot := h.items.total
  have hend := h.size
  rw [rtSmemAlloc, if_neg hsize]
  dsimp only
  by_cases hbig : allocSize size > s.memSizeAligned
  · rw [if_pos hbig]
    exact Or.inl ⟨mem_size_lt (by omega), rfl⟩
  · rw [if_neg hbig, h.findFit (by omega)]
    cases hff : firstFit (allocSize size + 40) 0 bs with
    | none => exact Or.inl ⟨firstFit_eq_none.mp hff, rfl⟩
    | some p =>
      obtain ⟨pre, n, post, rfl, rfl, hfit, hpre⟩ := firstFit_eq_some hff
      obtain ⟨s', hs', hout⟩ := allocItem_outcome self h (allocSize_mod size) hfit
      refine Or.inr ⟨pre, n, post, s', rfl, hfit, hpre, ?_, hout⟩
      dsimp only
      rw [Nat.zero_add, hs']
      rfl

end Alloc

theorem shrinkItem_outcome {s : SmallMem} {pre post : List Block} {n newsize : Nat}
    (h : Holds s (pre ++ ⟨n, true⟩ :: post)) (hmod : newsize % 4 = 0)
    (hlt : newsize + 40 + 24 < n - 40) :
    ∃ s', shrinkItem s (total pre) (n - 40) newsize = some s' ∧
      Outcome s s' (pre ++ ⟨newsize + 40, true⟩ :: glue [⟨n - (newsize + 40), false⟩] post) := by
  have hused := h.used
  have hpeak := h.peak
  have hp : total pre + 40 + newsize = total pre + (newsize + 40) := by omega
  have hpre : total (pre ++ [⟨newsize + 40, true⟩]) = total pre + (newsize + 40) := by simp
  simp only [usedTotal_append, usedTotal_used] at hused
  simp only [shrinkItem, sizeofStructMem, hp]
  generalize hg : splitItem s.pool s.memSizeAligned s.mem (total pre)
    (total pre + (newsize + 40)) = g
  have hitems : Items s.pool s.heapEnd g
      (pre ++ ⟨newsize + 40, true⟩ :: ⟨n - (newsize + 40), false⟩ :: post) :=
    hg ▸ h.items.split h.pool h.size (by omega) (by omega) (by omega)
  have huser : ∀ x, UserByte 0 (pre ++ ⟨newsize + 40, true⟩ :: ⟨n - (newsize + 40), false⟩ :: post)
      x → g x = s.mem x := by
    intro x hx
    have hkeep := h.items.split_user h.pool (m := s.memSizeAligned) (by omega) (by omega) hx
    rwa [hg] at hkeep
  have hlfree :
    (if total pre + (newsize + 40) < s.lfree then total pre + (newsize + 40) else s.lfree) =
      lead (pre ++ [⟨newsize + 40, true⟩]) := by
    have hlead := h.lfree
    rw [lead_append] at hlead ⊢
    split at hlead
    · next hall =>
      have hcons : lead (⟨n, true⟩ :: post) = n + lead post := by simp [lead]
      rw [if_pos hall, if_pos (by omega)]
      simp [lead]
    · next hall =>
      have := lead_le_total pre
      rw [if_neg hall, if_neg (by omega), hlead]
  rw [usub_eq (by omega), hlfree]
  have hcut : Outcome s
      { s with
        mem := g, used := s.used - (n - 40 - newsize),
        lfree := lead (pre ++ [⟨newsize + 40, true⟩]) }
      ((pre ++ [⟨newsize + 40, true⟩]) ++ ⟨n - (newsize + 40), false⟩ :: post) := by
    rw [List.append_assoc, List.singleton_append]
    refine ⟨⟨hitems, h.pool, h.poolPos, h.size, h.aligned, ?_, ?_, ?_⟩, ⟨rfl, rfl, rfl, rfl⟩, huser⟩
    · have hfree := lead_append_free (pre ++ [⟨newsize + 40, true⟩]) post (n - (newsize + 40))
      rw [List.append_assoc, List.singleton_append] at hfree
      exact hfree.symm
    · simp only [usedTotal_append, usedTotal_used, usedTotal_free]
      omega
    · dsimp only
      omega
  obtain ⟨s', hs', hout⟩ := plugHoles_outcome hcut.holds
  rw [hpre] at hs'
  rw [glue_used_left] at hout
  refine ⟨s', hs', hcut.trans hout fun x hx => ?_⟩
  rw [userByte_append, userByte_cons, userByte_glue, ← userByte_cons, ← userByte_append] at hx
  simpa using hx

end Rk3576.Heap
