import Rk3576.Gmac.Receive
import Rk3576.Gmac.TransmitChain
import Rk3576.Gmac.TransmitRing

/-! Who may touch what: transmit callers, the RX thread and the hardware work on one pool, and
the CPU only ever stores to descriptors it owns and to their slots. -/
namespace Rk3576.Gmac
open Rk3576.Run Rk3576.Bytes

def DescRing.slot : DescRing → Nat → Nat
  | .tx => txSlot
  | .rx => rxSlot

def DescRing.offset : DescRing → Nat → Nat
  | .tx, i => gmacTxDescOffset + i * gmacDescSize
  | .rx, i => gmacRxDescOffset + i * gmacDescSize

def DescField.offset : DescField → Nat
  | .des0 => 0
  | .des1 => 4
  | .des2 => 8
  | .des3 => 12

/-- A descriptor the hardware may work on: it names its own slot, and for TX a length that
fits it. -/
def HandedOver (pool : Nat) (r : DescRing) (i : Nat) (d : GmacDesc) : Prop :=
  match r with
  | .tx => ∃ n, n ≤ gmacDmaBufferSize ∧
      d = ⟨gmacDmaPhys pool (txSlot i), 0, BitVec.ofNat 32 n, txArmed n⟩
  | .rx => d = rxArmedDesc pool i

/-- A store to word `f` of descriptor `i` is allowed: the CPU owns it, and the store that hands
it over finds every other word in place. -/
def StoreOk (pool : Nat) (r : DescRing) (i : Nat) (d : GmacDesc) (f : DescField)
    (v : BitVec 32) : Prop :=
  i < r.count ∧ d.own = false ∧ ((d.set f v).own = true → HandedOver pool r i (d.set f v))

def Disciplined (pool : Nat) : GmacDev → List DescStore → Prop
  | _, [] => True
  | g, w :: ws =>
    StoreOk pool w.ring w.index (g.desc w.ring w.index) w.field w.value ∧
    Disciplined pool (g.store w) ws

theorem disciplined_append {pool : Nat} {g : GmacDev} {ws vs : List DescStore} :
    Disciplined pool g (ws ++ vs) ↔ Disciplined pool g ws ∧
    Disciplined pool (ws.foldl GmacDev.store g) vs := by
  induction ws generalizing g with
  | nil => simp [Disciplined]
  | cons w ws ih => simp [Disciplined, ih, and_assoc]

theorem GmacDev.desc_store (g : GmacDev) (w : DescStore) (r : DescRing) (i : Nat) :
    (g.store w).desc r i = if r = w.ring ∧ i = w.index then (g.desc r i).set w.field w.value
      else g.desc r i := by
  obtain ⟨ring, index, field, value⟩ := w
  cases ring <;> cases r <;>
    simp only [GmacDev.store, GmacDev.desc, true_and, false_and, if_false, reduceCtorEq]
  · by_cases h : i = index
    · subst h; simp
    · simp [h]
  · by_cases h : i = index
    · subst h; simp
    · simp [h]

theorem disciplined_clear {pool : Nat} {g : GmacDev} {ws : List DescStore}
    (hown : ∀ r i, (g.desc r i).own = false)
    (hws : ∀ w ∈ ws, w.index < w.ring.count ∧ w.value = 0) :
    Disciplined pool g ws ∧ ∀ r i, ((ws.foldl GmacDev.store g).desc r i).own = false := by
  induction ws generalizing g with
  | nil => exact ⟨trivial, hown⟩
  | cons w ws ih =>
    obtain ⟨hlt, hzero⟩ := hws w List.mem_cons_self
    have hset : ∀ d : GmacDesc, d.own = false → (d.set w.field w.value).own = false := by
      intro d hd
      rw [hzero]
      cases w.field with
      | des3 => exact (by decide : (0#32 &&& desc3Own != 0#32) = false)
      | _ => exact hd
    have hstep : ∀ r i, ((g.store w).desc r i).own = false := by
      intro r i
      rw [GmacDev.desc_store]
      split
      · exact hset _ (hown r i)
      · exact hown r i
    obtain ⟨hd, hafter⟩ := ih hstep fun v hv => hws v (List.mem_cons_of_mem w hv)
    refine ⟨⟨⟨hlt, hown _ _, fun ho => ?_⟩, hd⟩, hafter⟩
    simp [hset _ (hown w.ring w.index)] at ho

def armRx (pool i : Nat) : List DescStore :=
  [⟨.rx, i, .des0, gmacDmaPhys pool (rxSlot i)⟩, ⟨.rx, i, .des1, 0⟩, ⟨.rx, i, .des2, 0⟩,
    ⟨.rx, i, .des3, rxArmed⟩]

theorem disciplined_arm {pool : Nat} {g : GmacDev} {is : List Nat} (hn : is.Nodup)
    (his : ∀ i ∈ is, i < gmacRxDescCount ∧ (g.desc .rx i).own = false) :
    Disciplined pool g (is.flatMap (armRx pool)) := by
  induction is generalizing g with
  | nil => trivial
  | cons i is ih =>
    obtain ⟨hnot, hn'⟩ := List.nodup_cons.mp hn
    obtain ⟨hlt, hown⟩ := his i List.mem_cons_self
    rw [List.flatMap_cons, disciplined_append]
    refine ⟨?_, ih hn' fun j hj => ?_⟩
    · have h0 : ∀ d : GmacDesc, d.own = false → ∀ f v, f ≠ DescField.des3 →
          StoreOk pool .rx i d f v ∧ (d.set f v).own = false := fun d hd f v hf =>
        ⟨⟨hlt, hd, fun ho => by simp [GmacDesc.own_set d f v hf, hd] at ho⟩,
          by rw [GmacDesc.own_set d f v hf, hd]⟩
      simp only [armRx, Disciplined, GmacDev.desc_store, and_self, if_true, and_true]
      obtain ⟨hs0, ho0⟩ := h0 _ hown .des0 (gmacDmaPhys pool (rxSlot i)) (by decide)
      obtain ⟨hs1, ho1⟩ := h0 _ ho0 .des1 0 (by decide)
      obtain ⟨hs2, ho2⟩ := h0 _ ho1 .des2 0 (by decide)
      exact ⟨hs0, hs1, hs2, hlt, ho2, fun _ => rfl⟩
    · have hne : j ≠ i := fun he => hnot (he ▸ hj)
      refine ⟨(his j (List.mem_cons_of_mem i hj)).1, ?_⟩
      simpa [armRx, GmacDev.desc_store, hne] using (his j (List.mem_cons_of_mem i hj)).2

theorem disciplined_init (pool : Nat) (g : GmacDev) (hown : ∀ r i, (g.desc r i).own = false) :
    Disciplined pool g (gmacInitDmaStores pool) := by
  have hclear : ∀ w ∈ memsetDescs .tx ++ memsetDescs .rx, w.index < w.ring.count ∧
    w.value = 0 := by decide
  have hmem : Disciplined pool g (memsetDescs .tx ++ memsetDescs .rx) ∧
      ∀ r i, (((memsetDescs .tx ++ memsetDescs .rx).foldl GmacDev.store g).desc r i).own = false :=
    disciplined_clear hown hclear
  obtain ⟨hd, hafter⟩ := hmem
  rw [gmacInitDmaStores, disciplined_append]
  refine ⟨hd, disciplined_arm List.nodup_range fun i hi => ⟨List.mem_range.mp hi, hafter .rx i⟩⟩

structure DmaState where
  tx : TxState
  ring : RxRing
  call : Option RxCall

def DmaState.desc (s : DmaState) : DescRing → Nat → GmacDesc
  | .tx => s.tx.txDesc
  | .rx => s.ring.rxDesc

def dmaInit (pool : Nat) (g : GmacDev) (buf : Nat → Byte) (now : BitVec 32) : DmaState where
  tx := txInit pool g buf now
  ring := rxRingInit pool g
  call := none

inductive DmaAct where
  /-- a transmit caller, the TX engine in ring order, the tick or the link -/
  | tx (a : TxAct)
  /-- the hardware gives up a TX descriptor it owns, in any order and with any words -/
  | txComplete (i : Nat) (wb : GmacDesc)
  /-- the hardware fills an RX descriptor it owns, in any order and with any words -/
  | rxComplete (i : Nat) (wb : GmacDesc) (data : List Byte)
  | rxCall
  | rxCpu (grant : Option (List Nat))

def DmaAct.WellFormed : DmaAct → Prop
  | .tx a => a.WellFormed
  | _ => True

instance : (a : DmaAct) → Decidable a.WellFormed
  | .tx a => inferInstanceAs (Decidable a.WellFormed)
  | .txComplete _ _ | .rxComplete _ _ _ | .rxCall | .rxCpu _ => isTrue trivial

def dmaStep (pool : Nat) (s : DmaState) : DmaAct → Option DmaState
  | .tx a => (txStep pool s.tx a).map fun t => { s with tx := t }
  | .txComplete i wb =>
    if i < gmacTxDescCount ∧ (s.tx.txDesc i).own then
      some { s with tx := { s.tx with txDesc := Function.update s.tx.txDesc i wb.released } }
    else none
  | .rxComplete i wb data =>
    if i < gmacRxDescCount ∧ (s.ring.rxDesc i).own ∧ data.length ≤ gmacDmaBufferSize then
      some
        { s with
          ring := s.ring.complete i wb
          tx := { s.tx with pool := rxFilled pool s.tx.pool (s.ring.rxDesc i) data } }
    else none
  | .rxCall =>
    match s.call with
    | none => some { s with call := some {} }
    | some _ => none
  | .rxCpu g =>
    match s.call with
    | none => none
    | some t =>
      if PbufAlloc t g then
        match rk3576GmacDmaReceive pool s.tx.pool s.ring g t with
        | (a, .next u) => some { s with ring := s.ring.perform a, call := some u }
        | (a, .ret _) => some { s with ring := s.ring.perform a, call := none }
      else none

/-- What a CPU step does to the pool: a store to a descriptor word, or, for descriptor `i` of
ring `r`, a load or store of the byte at offset `o`. -/
inductive PoolAccess where
  | desc (r : DescRing) (i : Nat) (f : DescField) (v : BitVec 32)
  | byte (r : DescRing) (i : Nat) (o : Nat)

def TxAccess.onPool (desc : Nat) : TxAccess → Option PoolAccess
  | .desc i f v => some (.desc .tx i f v)
  | .byte o _ => some (.byte .tx desc o)
  | _ => .none

def RxAccess.onPool (desc : Nat) : RxAccess → Option PoolAccess
  | .desc i f v => some (.desc .rx i f v)
  | .load o => some (.byte .rx desc o)
  | _ => .none

def cpuAccess (pool : Nat) (s : DmaState) : DmaAct → Option PoolAccess
  | .tx (.cpu c) =>
    match s.tx.calls c with
    | .busy t => (rk3576GmacDmaTransmit pool s.tx t).1.onPool t.desc
    | _ => none
  | .rxCpu g =>
    match s.call with
    | some t => (rk3576GmacDmaReceive pool s.tx.pool s.ring g t).1.onPool t.desc
    | none => none
  | _ => none

/-- The access goes to a descriptor the CPU owns, or stays inside that descriptor's own slot. -/
def PoolAccess.ok (pool : Nat) (s : DmaState) : PoolAccess → Prop
  | .desc r i f v => StoreOk pool r i (s.desc r i) f v
  | .byte r i o =>
    i < r.count ∧ (s.desc r i).own = false ∧ r.slot i ≤ o ∧ o < r.slot i + gmacDmaBufferSize

def PoolAccess.touches : PoolAccess → Nat → Prop
  | .desc r i f _, o => r.offset i + f.offset ≤ o ∧ o < r.offset i + f.offset + 4
  | .byte _ _ p, o => o = p

/-- Memory the hardware currently owns: a descriptor with OWN set, and the buffer it names. -/
def HwOwned (pool : Nat) (s : DmaState) (o : Nat) : Prop :=
  ∃ r i, i < r.count ∧ (s.desc r i).own = true ∧
    (r.offset i ≤ o ∧ o < r.offset i + gmacDescSize ∨
      gmacDmaOffset pool (s.desc r i).des0 ≤ o ∧
      o < gmacDmaOffset pool (s.desc r i).des0 + gmacDmaBufferSize)

def dmaRegions : List (Nat × Nat) :=
  [(gmacTxDescOffset, gmacTxDescCount * gmacDescSize),
    (gmacRxDescOffset, gmacRxDescCount * gmacDescSize)] ++
    (List.range gmacRxDescCount).map (fun i => (rxSlot i, gmacDmaBufferSize)) ++
    (List.range gmacTxDescCount).map (fun i => (txSlot i, gmacDmaBufferSize))

def Apart (a b : Nat × Nat) : Prop := a.1 + a.2 ≤ b.1 ∨ b.1 + b.2 ≤ a.1

instance (a b : Nat × Nat) : Decidable (Apart a b) := inferInstanceAs (Decidable (_ ∨ _))

theorem dmaRegions_apart : dmaRegions.Pairwise Apart := by decide

theorem dmaRegions_inside : ∀ a ∈ dmaRegions, a.1 + a.2 ≤ rk3576GmacDmaPoolSize := by decide

theorem offset_below_slots {r : DescRing} {i : Nat} (h : i < r.count) (q : DescRing) (j : Nat) :
    r.offset i + gmacDescSize ≤ q.slot j := by
  cases r <;> cases q <;>
    simp only [DescRing.count, gmacTxDescCount, gmacRxDescCount] at h <;>
    simp only [DescRing.offset, DescRing.slot, txSlot, rxSlot, gmacTxBufferOffset,
      gmacRxBufferOffset,
      gmacRxDescOffset, gmacTxDescOffset, gmacTxDescCount, gmacRxDescCount, gmacDescSize,
      gmacDmaBufferSize] <;>
    omega

theorem offset_apart {r q : DescRing} {i j : Nat} (hi : i < r.count) (hj : j < q.count)
    (h : ¬ (r = q ∧ i = j)) :
    Apart (r.offset i, gmacDescSize) (q.offset j, gmacDescSize) := by
  cases r <;> cases q <;>
    simp only [DescRing.count, gmacTxDescCount, gmacRxDescCount, true_and,
      reduceCtorEq] at hi hj h <;>
    simp only [Apart, DescRing.offset, gmacRxDescOffset, gmacTxDescOffset, gmacTxDescCount,
      gmacDescSize] <;> omega

theorem slot_apart {r q : DescRing} {i j : Nat} (hi : i < r.count) (hj : j < q.count)
    (h : ¬ (r = q ∧ i = j)) :
    Apart (r.slot i, gmacDmaBufferSize) (q.slot j, gmacDmaBufferSize) := by
  cases r <;> cases q <;>
    simp only [DescRing.count, gmacTxDescCount, gmacRxDescCount, true_and,
      reduceCtorEq] at hi hj h <;>
    simp only [Apart, DescRing.slot, txSlot, rxSlot, gmacTxBufferOffset, gmacRxDescCount,
      gmacDmaBufferSize] <;> omega

theorem slot_lt {r : DescRing} {i : Nat} (h : i < r.count) : r.slot i < 2 ^ 32 := by
  cases r <;> simp only [DescRing.count, gmacTxDescCount, gmacRxDescCount] at h <;>
    simp only [DescRing.slot, txSlot, rxSlot, gmacTxBufferOffset, gmacRxBufferOffset,
      gmacRxDescOffset,
      gmacTxDescOffset, gmacTxDescCount, gmacRxDescCount, gmacDescSize, gmacDmaBufferSize] <;> omega

theorem HandedOver.des0 {pool i : Nat} {r : DescRing} {d : GmacDesc} (h : HandedOver pool r i d) :
    d.des0 = gmacDmaPhys pool (r.slot i) := by
  cases r with
  | tx =>
    obtain ⟨n, -, rfl⟩ := h
    rfl
  | rx =>
    rw [show d = rxArmedDesc pool i from h]
    rfl

/-- An allowed access meets nothing the hardware owns, as long as every descriptor the hardware
owns names its own slot. -/
theorem PoolAccess.ok.apart {pool : Nat} {s : DmaState} {x : PoolAccess} (h : x.ok pool s)
    (hw : ∀ r i, i < r.count → (s.desc r i).own = true → HandedOver pool r i (s.desc r i)) {o : Nat}
    (ho : x.touches o) : ¬ HwOwned pool s o := by
  rintro ⟨q, j, hj, hown, hrange⟩
  rw [(hw q j hj hown).des0, gmacDmaOffset_phys pool _ (slot_lt hj)] at hrange
  have hne : ∀ r i, (s.desc r i).own = false → ¬ (r = q ∧ i = j) := by
    rintro r i hf ⟨rfl, rfl⟩
    simp [hown] at hf
  cases x with
  | desc r i f v =>
    obtain ⟨hi, hfree, -⟩ := h
    have hf : f.offset + 4 ≤ gmacDescSize := by cases f <;> decide
    have hdesc := offset_apart hi hj (hne r i hfree)
    have hslot := offset_below_slots hi q j
    simp only [PoolAccess.touches] at ho
    simp only [Apart] at hdesc
    omega
  | byte r i p =>
    obtain ⟨hi, hfree, hlo, hhi⟩ := h
    obtain rfl : o = p := ho
    have hdesc := offset_below_slots hj r i
    have hslot := slot_apart hi hj (hne r i hfree)
    simp only [Apart] at hslot
    omega

/-- What the lock holder has stored at each point, timeouts or not. -/
def TxPrep (pool : Nat) (s : TxState) (t : TxCall) : Prop :=
  let d := s.txDesc s.txIndex
  match t.pc with
  | .copy => ∃ done, CopySpan t done
  | .des0 => t.offset ≤ gmacDmaBufferSize
  | .des1 => t.offset ≤ gmacDmaBufferSize ∧ d.des0 = gmacDmaPhys pool (txSlot s.txIndex)
  | .des2 =>
    t.offset ≤ gmacDmaBufferSize ∧ d.des0 = gmacDmaPhys pool (txSlot s.txIndex) ∧ d.des1 = 0
  | .des3 =>
    t.offset ≤ gmacDmaBufferSize ∧ d.des0 = gmacDmaPhys pool (txSlot s.txIndex) ∧ d.des1 = 0 ∧
      d.des2 = BitVec.ofNat 32 t.offset
  | _ => True

structure OwnInv (pool : Nat) (s : DmaState) : Prop where
  tx : TxInv s.tx
  checked : TxChecked s.tx
  prep : ∀ c t, s.tx.txLock = some c → s.tx.calls c = .busy t → TxPrep pool s.tx t
  index_lt : s.ring.rxIndex < gmacRxDescCount
  held : ∀ t, s.call = some t → RxHeld pool s.ring t
  handed : ∀ r i, i < r.count → (s.desc r i).own = true → HandedOver pool r i (s.desc r i)

theorem TxPrep.step {pool : Nat} {s : TxState} {c : Nat} {t u : TxCall} {a : TxAccess}
    (h : TxPrep pool s t) (hh : TxHeld s t) (hlen : (chainBytes t.p).length ≤ gmacDmaBufferSize)
    (hr : rk3576GmacDmaTransmit pool s t = (a, .next u)) : TxPrep pool (s.perform c a) u := by
  cases hp : t.pc <;> simp only [TxHeld, hp, rk3576GmacDmaTransmit] at hh hr <;>
    simp only [TxPrep, hp] at h
  case pollFree =>
    split at hr <;> cases hr
    · trivial
    · exact ⟨[], rfl, rfl, Nat.zero_le _⟩
  case copy =>
    obtain ⟨done, hspan⟩ := h
    split at hr
    · rename_i hq
      cases hr
      simp only [TxPrep]
      rw [(hspan.finish hq).2]
      exact hlen
    · rename_i b rest hq
      split at hr <;> cases hr <;> rename_i hx
      · exact ⟨done, by simpa only [hp] using hspan.store hq hx⟩
      · exact ⟨done ++ [b], by simpa only [hp] using (hspan.next hq hx hlen).2⟩
  case des0 =>
    cases hr
    exact ⟨h, by simp [TxState.perform, hh.1, GmacDesc.set]⟩
  case des1 =>
    cases hr
    exact ⟨h.1, by simpa [TxState.perform, hh.1, GmacDesc.set] using h.2⟩
  case des2 =>
    cases hr
    exact ⟨h.1, by simpa [TxState.perform, hh.1, GmacDesc.set] using h.2⟩
  case unlock => cases hr
  all_goals (repeat' split at hr) <;> cases hr <;> trivial

theorem TxPrep.ok {pool : Nat} {s : DmaState} {t : TxCall} {x : PoolAccess} (h : TxPrep pool s.tx t)
    (hh : TxHeld s.tx t) (hi : s.tx.txIndex < gmacTxDescCount)
    (hlen : (chainBytes t.p).length ≤ gmacDmaBufferSize)
    (hx : (rk3576GmacDmaTransmit pool s.tx t).1.onPool t.desc = some x) : x.ok pool s := by
  have hword : ∀ f v, f ≠ DescField.des3 → (s.tx.txDesc t.desc).own = false →
    t.desc = s.tx.txIndex →
      StoreOk pool .tx t.desc (s.tx.txDesc t.desc) f v := fun f v hf ho hd =>
    ⟨hd ▸ hi, ho, fun hset => by simp [GmacDesc.own_set _ f v hf, ho] at hset⟩
  cases hp : t.pc <;> simp only [TxHeld, hp] at hh <;> simp only [TxPrep, hp] at h <;>
    simp only [rk3576GmacDmaTransmit, hp] at hx
  case copy =>
    obtain ⟨done, hspan⟩ := h
    split at hx
    · cases hx
    · rename_i b rest hq
      split at hx <;> cases hx
      rename_i hb
      have hlt := (List.getElem?_eq_some_iff.mp (hspan.at hq hb)).1
      refine ⟨hh.1 ▸ hi, hh.2.2, ?_, ?_⟩
      · simp only [hh.1, hh.2.1, DescRing.slot]
        omega
      · simp only [hh.1, hh.2.1, DescRing.slot]
        omega
  case des0 => cases hx; exact hword _ _ (by decide) hh.2.2 hh.1
  case des1 => cases hx; exact hword _ _ (by decide) hh.2.2 hh.1
  case des2 => cases hx; exact hword _ _ (by decide) hh.2.2 hh.1
  case des3 =>
    -- the other three words are in place
    cases hx
    obtain ⟨hle, h0, h1, h2⟩ := h
    refine ⟨hh.1 ▸ hi, hh.2.2, fun _ => ⟨t.offset, hle, ?_⟩⟩
    simp only [DmaState.desc, hh.1, GmacDesc.set, h0, h1, h2]
  all_goals (repeat' split at hx) <;> cases hx

theorem RxHeld.ok {pool : Nat} {s : DmaState} {g : Option (List Nat)} {t : RxCall} {x : PoolAccess}
    (h : RxHeld pool s.ring t) (hi : s.ring.rxIndex < gmacRxDescCount)
    (hx : (rk3576GmacDmaReceive pool s.tx.pool s.ring g t).1.onPool t.desc = some x) :
    x.ok pool s := by
  have hword : ∀ f v, f ≠ DescField.des3 → t.desc = s.ring.rxIndex →
    (s.ring.rxDesc s.ring.rxIndex).own = false →
      StoreOk pool .rx t.desc (s.ring.rxDesc t.desc) f v := fun f v hf hd ho =>
    ⟨hd ▸ hi, hd ▸ ho, fun hset => by simp [GmacDesc.own_set _ f v hf, hd, ho] at hset⟩
  cases hp : t.pc <;> simp only [RxHeld, hp] at h <;> simp only [rk3576GmacDmaReceive, hp] at hx
  case copy =>
    obtain ⟨hd, hb, ho, hseg, hsum, hle⟩ := h
    split at hx
    · cases hx
    · rename_i n rest hq
      simp only [hq, List.headD_cons, List.sum_cons] at hseg hsum
      split at hx <;> cases hx
      rename_i hlt
      refine ⟨hd ▸ hi, hd ▸ ho, ?_, ?_⟩
      · simp only [hd, hb, DescRing.slot]
        omega
      · simp only [hd, hb, DescRing.slot]
        omega
  case des0 => cases hx; exact hword _ _ (by decide) h.1 h.2
  case des1 => cases hx; exact hword _ _ (by decide) h.1 h.2.1
  case des2 => cases hx; exact hword _ _ (by decide) h.1 h.2.1
  case des3 =>
    cases hx
    obtain ⟨hd, ho, h0, h1, h2⟩ := h
    refine ⟨hd ▸ hi, hd ▸ ho, fun _ => ?_⟩
    simp only [HandedOver, DmaState.desc, hd, GmacDesc.set, h0, h1, h2, rxArmedDesc]
  all_goals (repeat' split at hx) <;> cases hx

def Handed (pool : Nat) (r : DescRing) (f : Nat → GmacDesc) : Prop :=
  ∀ i, i < r.count → (f i).own = true → HandedOver pool r i (f i)

theorem Handed.update {pool i : Nat} {r : DescRing} {f : Nat → GmacDesc} {d : GmacDesc}
    (h : Handed pool r f)
    (hd : d.own = true → HandedOver pool r i d) : Handed pool r (Function.update f i d) := by
  intro j hj ho
  by_cases he : j = i
  · subst he
    rw [Function.update_self] at ho ⊢
    exact hd ho
  · rw [Function.update_of_ne he] at ho ⊢
    exact h j hj ho

theorem OwnInv.handedTx {pool : Nat} {s : DmaState} (h : OwnInv pool s) :
    Handed pool .tx s.tx.txDesc := h.handed .tx

theorem OwnInv.handedRx {pool : Nat} {s : DmaState} (h : OwnInv pool s) :
    Handed pool .rx s.ring.rxDesc := h.handed .rx

theorem handed_of {pool : Nat} {s : DmaState} (ht : Handed pool .tx s.tx.txDesc)
    (hr : Handed pool .rx s.ring.rxDesc) :
    ∀ r i, i < r.count → (s.desc r i).own = true → HandedOver pool r i (s.desc r i) := by
  intro r
  cases r with
  | tx => exact ht
  | rx => exact hr

/-- The hardware gives up a descriptor: not the one the holder is filling. -/
theorem TxPrep.complete {pool i : Nat} {s s' : TxState} {t : TxCall} {d : GmacDesc}
    (h : TxPrep pool s t)
    (hh : TxHeld s t) (ho : (s.txDesc i).own = true) (hi : s'.txIndex = s.txIndex)
    (hd : s'.txDesc = Function.update s.txDesc i d) : TxPrep pool s' t := by
  by_cases he : i = s.txIndex
  · cases hp : t.pc <;> simp only [TxPrep, hp] at h ⊢ <;> simp only [TxHeld, hp] at hh
    case copy => exact h
    case des0 => exact h
    case des1 => simp [hh.1, ← he, ho] at hh
    case des2 => simp [hh.1, ← he, ho] at hh
    case des3 => simp [hh.1, ← he, ho] at hh
  · have hsame : s'.txDesc s.txIndex = s.txDesc s.txIndex := by
      rw [hd]
      exact Function.update_of_ne (fun hj => he hj.symm) _ _
    simpa only [TxPrep, hi, hsame] using h

theorem OwnInv.access {pool : Nat} {s : DmaState} {a : DmaAct} {x : PoolAccess} (h : OwnInv pool s)
    (hx : cpuAccess pool s a = some x) : x.ok pool s := by
  cases a with
  | tx a =>
    cases a with
    | cpu c =>
      simp only [cpuAccess] at hx
      split at hx
      · rename_i t hc
        by_cases hl : s.tx.txLock = some c
        · have hh := h.tx.held hl hc
          have hne : t.pc ≠ .entry := fun hp => by simp [TxHeld, hp] at hh
          exact (h.prep c t hl hc).ok hh h.tx.index_lt ((h.checked c t hc).length hne) hx
        · -- a caller outside the lock touches no memory
          have ho : t.pc = .entry ∨ t.pc = .lock := by simpa [hc, TxOutside] using h.tx.outside c hl
          cases TxOutside.step ho (Prod.mk.eta (p := rk3576GmacDmaTransmit pool s.tx t)).symm with
          | inl hout => simp [hout.1, TxAccess.onPool] at hx
          | inr hout => simp [hout.2.1, TxAccess.onPool] at hx
      · cases hx
    | _ => cases hx
  | rxCpu g =>
    simp only [cpuAccess] at hx
    split at hx
    · rename_i t hc
      exact (h.held t hc).ok h.index_lt hx
    · cases hx
  | _ => cases hx

theorem OwnInv.txCpu {pool c : Nat} {s : DmaState} {t' : TxState} (h : OwnInv pool s)
    (hs : txStep pool s.tx (.cpu c) = some t') :
    (∀ d t, t'.txLock = some d → t'.calls d = .busy t → TxPrep pool t' t) ∧
    Handed pool .tx t'.txDesc := by
  obtain ⟨t, a, hc, hs⟩ := txStep_cpu hs
  by_cases hl : s.tx.txLock = some c
  · have hh := h.tx.held hl hc
    have hne : t.pc ≠ .entry := fun hp => by simp [TxHeld, hp] at hh
    have hlen := (h.checked c t hc).length hne
    cases hs with
    | inl hs =>
      obtain ⟨u, hr, rfl⟩ := hs
      refine ⟨fun d v hd hv => ?_, ?_⟩
      · have hlock : (s.tx.perform c a).txLock = some c := (hh.step h.tx.index_lt hr).2.2.1.trans hl
        obtain rfl : c = d := by simpa [TxState.setCall, hlock] using hd
        obtain rfl : u = v := by simpa [TxState.setCall] using hv
        exact (h.prep c t hl hc).step hh hlen hr
      · -- only an allowed store can change a descriptor
        cases a with
        | desc i f v =>
          have hok : PoolAccess.ok pool s (.desc .tx i f v) :=
            h.access (a := .tx (.cpu c)) (by simp [cpuAccess, hc, hr, TxAccess.onPool])
          exact h.handedTx.update hok.2.2
        | _ => exact h.handedTx
    | inr hs =>
      obtain ⟨e, hr, rfl⟩ := hs
      obtain ⟨-, rfl⟩ := hh.ret hr
      exact ⟨fun d v hd => by simp [TxState.setCall, TxState.perform] at hd, h.handedTx⟩
  · have ho : t.pc = .entry ∨ t.pc = .lock := by simpa [hc, TxOutside] using h.tx.outside c hl
    -- whoever holds the lock is somebody else, and no descriptor changes
    have hother : ∀ (w : TxThread) d v, d ≠ c → s.tx.txLock = some d →
        (s.tx.setCall c w).calls d = .busy v → TxPrep pool (s.tx.setCall c w) v :=
            fun w d v hne hd hv =>
      h.prep d v hd (by simpa [TxState.setCall, Function.update_of_ne hne] using hv)
    cases hs with
    | inl hs =>
      obtain ⟨u, hr, rfl⟩ := hs
      cases TxOutside.step ho hr with
      | inl hout =>
        obtain ⟨rfl, -⟩ := hout
        exact ⟨fun d v hd hv => hother _ d v (fun he => hl (he ▸ hd)) hd hv, h.handedTx⟩
      | inr hout =>
        obtain ⟨-, rfl, he⟩ := hout
        cases he
        refine ⟨fun d v hd hv => ?_, h.handedTx⟩
        obtain rfl : c = d := by simpa [TxState.setCall, TxState.perform] using hd
        obtain rfl : { t with pc := .armFree } = v := by simpa [TxState.setCall] using hv
        trivial
    | inr hs =>
      obtain ⟨e, hr, rfl⟩ := hs
      cases TxOutside.step ho hr with
      | inl hout =>
        obtain ⟨rfl, -⟩ := hout
        exact ⟨fun d v hd hv => hother _ d v (fun he => hl (he ▸ hd)) hd hv, h.handedTx⟩
      | inr hout => cases hout.2.2

theorem OwnInv.txStep {pool : Nat} {s : DmaState} {a : TxAct} {t' : TxState} (h : OwnInv pool s)
    (hs : Gmac.txStep pool s.tx a = some t') (hw : a.WellFormed) :
    OwnInv pool { s with tx := t' } := by
  suffices hp : (∀ d t, t'.txLock = some d → t'.calls d = .busy t → TxPrep pool t' t) ∧
    Handed pool .tx t'.txDesc from
    ⟨txInv_step h.tx hs, txChecked_step h.checked hs hw, hp.1, h.index_lt, h.held,
      handed_of hp.2 h.handedRx⟩
  cases a with
  | cpu c => exact h.txCpu hs
  | engine wb =>
    simp only [Gmac.txStep, txEngine] at hs
    split at hs <;> cases hs
    rename_i he
    refine ⟨fun d t hd ht => ?_, h.handedTx.update (by simp)⟩
    exact (h.prep d t hd ht).complete (h.tx.held hd ht) he.2 rfl rfl
  | call c p =>
    simp only [Gmac.txStep] at hs
    split at hs <;> cases hs
    rename_i hc
    refine ⟨fun d t hd ht => ?_, h.handedTx⟩
    have hne : d ≠ c := fun he => by
      obtain ⟨u, hu, -⟩ := h.tx.holder d hd
      simp [he, hc] at hu
    exact h.prep d t hd (by simpa [TxState.setCall, Function.update_of_ne hne] using ht)
  | lockFail c =>
    simp only [Gmac.txStep] at hs
    split at hs
    · split at hs <;> cases hs
      refine ⟨fun d t hd ht => ?_, h.handedTx⟩
      have hne : d ≠ c := fun he => by simp [he, TxState.setCall] at ht
      exact h.prep d t hd (by simpa [TxState.setCall, Function.update_of_ne hne] using ht)
    · cases hs
  | tick now => cases hs; exact ⟨h.prep, h.handedTx⟩
  | link up => cases hs; exact ⟨h.prep, h.handedTx⟩
  | foreign o b =>
    simp only [Gmac.txStep] at hs
    split at hs <;> cases hs
    exact ⟨h.prep, h.handedTx⟩

theorem ownInv_rxCpu {pool : Nat} {s s' : DmaState} {g : Option (List Nat)} (h : OwnInv pool s)
    (hs : dmaStep pool s (.rxCpu g) = some s') : OwnInv pool s' := by
  simp only [dmaStep] at hs
  split at hs
  · cases hs
  · rename_i t hc
    split at hs
    · rename_i hg
      have hhanded : ∀ a x, rk3576GmacDmaReceive pool s.tx.pool s.ring g t = (a, x) →
          Handed pool .rx (s.ring.perform a).rxDesc := by
        intro a x hr
        cases a with
        | desc i f v =>
          have hok : PoolAccess.ok pool s (.desc .rx i f v) :=
            h.access (a := .rxCpu g) (by simp [cpuAccess, hc, hr, RxAccess.onPool])
          exact h.handedRx.update hok.2.2
        | _ => exact h.handedRx
      split at hs <;> cases hs <;> rename_i a x hr
      · refine ⟨h.tx, h.checked, h.prep, rxIndex_lt_perform h.index_lt hr, ?_,
          handed_of h.handedTx (hhanded a _ hr)⟩
        rintro _ ⟨⟩
        exact (h.held t hc).step hg hr
      · exact ⟨h.tx, h.checked, h.prep, rxIndex_lt_perform h.index_lt hr, by simp,
          handed_of h.handedTx (hhanded a _ hr)⟩
    · cases hs

theorem ownInv_step {pool : Nat} {s s' : DmaState} {a : DmaAct} (h : OwnInv pool s)
    (hs : dmaStep pool s a = some s') (hw : a.WellFormed) : OwnInv pool s' := by
  cases a with
  | tx a =>
    obtain ⟨t', ht, rfl⟩ := Option.map_eq_some_iff.mp hs
    exact h.txStep ht hw
  | txComplete i wb =>
    simp only [dmaStep] at hs
    split at hs <;> cases hs
    rename_i ho
    refine ⟨?_, h.checked, fun c t hl hc => ?_, h.index_lt, h.held,
      handed_of (h.handedTx.update (by simp)) h.handedRx⟩
    · refine h.tx.environment rfl rfl rfl fun j hj => ?_
      by_cases he : j = i
      · simp [he]
      · simpa [Function.update_of_ne he] using hj
    · exact (h.prep c t hl hc).complete (h.tx.held hl hc) ho.2 rfl rfl
  | rxComplete i wb data =>
    simp only [dmaStep] at hs
    split at hs <;> cases hs
    rename_i ho
    refine ⟨h.tx.environment rfl rfl rfl fun _ hj => hj, h.checked, h.prep,
      h.index_lt, fun t ht => ?_,
      handed_of h.handedTx (h.handedRx.update (by simp))⟩
    exact (h.held t ht).complete ho.2.1
  | rxCall =>
    simp only [dmaStep] at hs
    split at hs <;> cases hs
    refine ⟨h.tx, h.checked, h.prep, h.index_lt, ?_, h.handed⟩
    rintro _ ⟨⟩
    trivial
  | rxCpu g => exact ownInv_rxCpu h hs

theorem ownInv_init (pool : Nat) (g : GmacDev) (buf : Nat → Byte) (now : BitVec 32) :
    OwnInv pool (dmaInit pool g buf now) where
  tx := txInv_init pool g buf now
  checked := txChecked_init pool g buf now
  prep c t hl := by simp [dmaInit, txInit] at hl
  index_lt := (by decide : 0 < gmacRxDescCount)
  held t ht := by simp [dmaInit] at ht
  handed := by
    refine handed_of (fun i hi ho => ?_) fun i hi _ => gmacInitDmaMemory_rxRing pool g i hi
    have hzero : (dmaInit pool g buf now).tx.txDesc i = GmacDesc.zero :=
      gmacInitDmaMemory_txRing pool g i hi
    simp [hzero] at ho

/-- The pool as the loader leaves it: `rk3576_gmac_dma_pool` is zero before the first start. -/
def GmacDev.bss (g : GmacDev) : GmacDev :=
  { g with txRing := fun _ => .zero, rxRing := fun _ => .zero }

/-- The ownership discipline: the regions of the pool do not overlap, bring-up respects it, and
so does every CPU step of every run. -/
theorem dma_ownership (pool : Nat) (g : GmacDev) (buf : Nat → Byte) (now : BitVec 32)
    (as : List DmaAct) (hw : ∀ a ∈ as, a.WellFormed) :
    dmaRegions.Pairwise Apart ∧ (∀ a ∈ dmaRegions, a.1 + a.2 ≤ rk3576GmacDmaPoolSize) ∧
      Disciplined pool g.bss (gmacInitDmaStores pool) ∧
      Along (dmaStep pool) (fun s a _ => ∀ x, cpuAccess pool s a = some x →
        x.ok pool s ∧ ∀ o, x.touches o → ¬ HwOwned pool s o) (dmaInit pool g.bss buf now) as := by
  refine ⟨dmaRegions_apart, dmaRegions_inside, disciplined_init pool g.bss ?_, ?_⟩
  · intro r i
    cases r <;> exact GmacDesc.own_zero
  · refine along_of_invariant_along (I := OwnInv pool)
      (fun s a t h hwf hs => ⟨ownInv_step h hs hwf, ?_⟩)
      (ownInv_init pool g.bss buf now) (along_of_forall hw _)
    intro x hx
    exact ⟨h.access hx, fun o ho => (h.access hx).apart h.handed ho⟩

def mixedTraffic : List DmaAct :=
  [DmaAct.rxComplete 0 ⟨0, 0, 0, desc3Fd ||| desc3Ld ||| 2⟩ [7, 8], .rxCall, .rxCpu none,
    .rxCpu (some [2])] ++
    (sendOnce 0).map DmaAct.tx ++ List.replicate 10 (DmaAct.rxCpu none)

theorem dma_ownership_mixedTraffic :
    (runs (dmaStep 0x40000000)
      (dmaInit 0x40000000 ({ gmac0 with linkUp := true } : GmacDev).bss (fun _ => 0) 0)
      mixedTraffic).isSome = true ∧
      Along (dmaStep 0x40000000) (fun s a _ => ∀ x, cpuAccess 0x40000000 s a = some x →
      x.ok 0x40000000 s ∧ ∀ o, x.touches o → ¬ HwOwned 0x40000000 s o)
      (dmaInit 0x40000000 ({ gmac0 with linkUp := true } : GmacDev).bss (fun _ => 0) 0)
        mixedTraffic :=
  ⟨by decide +kernel, (dma_ownership _ _ _ _ _ (by decide +kernel)).2.2.2⟩

end Rk3576.Gmac
