import Rk3576.Lib.Run
import Rk3576.Lib.Bytes
import Rk3576.Gmac.Start

/-! `rk3576_gmac_dma_receive`, one shared access per step. The RX side stores to descriptors
only; the packet buffers are read through the pool `m`. -/
namespace Rk3576.Gmac
open Rk3576.Run Rk3576.Bytes

/-- A pbuf chain as the receive path builds it: the payload of each segment. -/
abbrev RxChain := List (List Byte)

structure RxRing where
  rxDesc : Nat → GmacDesc
  rxIndex : Nat
  tail : BitVec 32

def rxRingInit (pool : Nat) (g : GmacDev) : RxRing where
  rxDesc := (gmacInitDmaMemory pool g).rxRing
  rxIndex := (gmacInitDmaMemory pool g).rxIndex
  tail := gmacDmaPhys pool (gmacRxDescOffset + gmacRxDescCount * gmacDescSize)

def rxArmedDesc (pool i : Nat) : GmacDesc := ⟨gmacDmaPhys pool (rxSlot i), 0, 0, rxArmed⟩

theorem own_rxArmedDesc (pool i : Nat) : (rxArmedDesc pool i).own = true :=
  (by decide : (rxArmed &&& desc3Own != 0#32) = true)

theorem own_rxRingInit (pool : Nat) (g : GmacDev) {i : Nat} (h : i < gmacRxDescCount) :
    ((rxRingInit pool g).rxDesc i).own = true := by
  have hring : (rxRingInit pool g).rxDesc i = rxArmedDesc pool i :=
    gmacInitDmaMemory_rxRing pool g i h
  rw [hring, own_rxArmedDesc]

/-- Where a call stands; `alloc` is at pbuf_alloc and `copy` inside the loop over the chain. -/
inductive RxPc where
  | status | alloc | copy | des0 | des1 | des2 | des3 | index | tail
  deriving DecidableEq, Repr

/-- The locals of one call. `seg` is the payload of the current segment as far as rt_memcpy
has come, `q` the lengths of the segments not finished yet. `answer` is a history: what
pbuf_alloc has answered. -/
structure RxCall where
  desc : Nat := 0
  status : BitVec 32 := 0
  length : Nat := 0
  buffer : Nat := 0
  p : Option RxChain := none
  q : List Nat := []
  seg : List Byte := []
  copied : Nat := 0
  answer : Option (Option (List Nat)) := none
  pc : RxPc := .status

inductive RxAccess where
  | none
  | load (o : Nat)
  | desc (i : Nat) (f : DescField) (v : BitVec 32)
  | index (i : Nat)
  | tail (v : BitVec 32)
  deriving DecidableEq

inductive RxGoto where
  | next (t : RxCall)
  | ret (p : Option RxChain)

def rxAccept (status : BitVec 32) : Bool :=
  let length := (status &&& desc3PacketLenMask).toNat
  decide (status &&& (desc3Fd ||| desc3Ld) = desc3Fd ||| desc3Ld) &&
    decide (status &&& desc3RxError = 0) && decide (length > 0) &&
      decide (length ≤ gmacDmaBufferSize)

def rxNext (i : Nat) : Nat := (i + 1) % gmacRxDescCount

/-- The next access of a call, and where it goes on. `grant` is the answer of pbuf_alloc, the
lengths of the chain it returns; only the step at `alloc` looks at it. -/
def rk3576GmacDmaReceive (pool : Nat) (m : Nat → Byte) (r : RxRing) (grant : Option (List Nat))
    (t : RxCall) : RxAccess × RxGoto :=
  match t.pc with
  | .status =>
    let status := (r.rxDesc r.rxIndex).des3
    if (r.rxDesc r.rxIndex).own then (.none, .ret none)
    else
      (.none, .next
        { t with
          desc := r.rxIndex
          status := status
          length := (status &&& desc3PacketLenMask).toNat
          buffer := rxSlot r.rxIndex
          p := none
          pc := if rxAccept status then .alloc else .des0 })
  | .alloc =>
    match grant with
    | none => (.none, .next { t with p := none, answer := some none, pc := .des0 })
    | some lens =>
      (.none, .next
        { t with
          p := some [], q := lens, seg := [], copied := 0, answer := some (some lens),
          pc := .copy })
  | .copy =>
    match t.q with
    | [] => (.none, .next { t with pc := .des0 })
    | n :: rest =>
      if t.seg.length < n then
        (.load (t.buffer + t.copied + t.seg.length),
          .next { t with seg := t.seg ++ [m (t.buffer + t.copied + t.seg.length)] })
      else
        (.none, .next
          { t with
            p := t.p.map (· ++ [t.seg]), q := rest, seg := [], copied := (t.copied + n) % 2 ^ 32 })
  | .des0 =>
    (.desc t.desc .des0 (gmacDmaPhys pool (rxSlot r.rxIndex)), .next { t with pc := .des1 })
  | .des1 => (.desc t.desc .des1 0, .next { t with pc := .des2 })
  | .des2 => (.desc t.desc .des2 0, .next { t with pc := .des3 })
  | .des3 => (.desc t.desc .des3 rxArmed, .next { t with pc := .index })
  | .index => (.index (rxNext r.rxIndex), .next { t with pc := .tail })
  | .tail => (.tail (rxDescAddr pool r.rxIndex), .ret t.p)

def RxRing.perform (r : RxRing) : RxAccess → RxRing
  | .none | .load _ => r
  | .desc i f v => { r with rxDesc := Function.update r.rxDesc i ((r.rxDesc i).set f v) }
  | .index i => { r with rxIndex := i }
  | .tail v => { r with tail := v }

/-- What `pbuf_alloc(PBUF_RAW, n, PBUF_POOL)` may answer: nothing, or a chain of `n` bytes. -/
def PbufAlloc (t : RxCall) (grant : Option (List Nat)) : Prop :=
  ∀ lens, grant = some lens → lens.sum = t.length % 2 ^ 16

instance (t : RxCall) : (grant : Option (List Nat)) → Decidable (PbufAlloc t grant)
  | none => isTrue fun _ h => by cases h
  | some lens => decidable_of_iff (lens.sum = t.length % 2 ^ 16)
      ⟨fun h l hl => by cases hl; exact h, fun h => h lens rfl⟩

/-- The hardware completes descriptor `i`: it puts `data` into the buffer the descriptor names,
writes the descriptor back and gives it up. -/
def RxRing.complete (r : RxRing) (i : Nat) (wb : GmacDesc) : RxRing :=
  { r with rxDesc := Function.update r.rxDesc i wb.released }

def rxFilled (pool : Nat) (m : Nat → Byte) (d : GmacDesc) (data : List Byte) : Nat → Byte :=
  blit m (gmacDmaOffset pool d.des0) data

/-- What the call knows at each point, whatever the hardware does. -/
def RxHeld (pool : Nat) (r : RxRing) (t : RxCall) : Prop :=
  let d := r.rxDesc r.rxIndex
  match t.pc with
  | .status => True
  | .alloc => t.desc = r.rxIndex ∧ t.buffer = rxSlot r.rxIndex ∧ d.own = false ∧ 0 < t.length ∧
      t.length ≤ gmacDmaBufferSize
  | .copy =>
    t.desc = r.rxIndex ∧ t.buffer = rxSlot r.rxIndex ∧ d.own = false ∧ t.seg.length ≤ t.q.headD 0 ∧
      t.copied + t.q.sum = t.length ∧ t.length ≤ gmacDmaBufferSize
  | .des0 => t.desc = r.rxIndex ∧ d.own = false
  | .des1 => t.desc = r.rxIndex ∧ d.own = false ∧ d.des0 = gmacDmaPhys pool (rxSlot r.rxIndex)
  | .des2 =>
    t.desc = r.rxIndex ∧ d.own = false ∧ d.des0 = gmacDmaPhys pool (rxSlot r.rxIndex) ∧ d.des1 = 0
  | .des3 =>
    t.desc = r.rxIndex ∧ d.own = false ∧ d.des0 = gmacDmaPhys pool (rxSlot r.rxIndex) ∧
    d.des1 = 0 ∧ d.des2 = 0
  | .index => t.desc = r.rxIndex
  | .tail => True

theorem rxNext_lt (i : Nat) : rxNext i < gmacRxDescCount := Nat.mod_lt _ (by decide)

theorem rxAccept_length {status : BitVec 32} (h : rxAccept status = true) :
    0 < (status &&& desc3PacketLenMask).toNat ∧
    (status &&& desc3PacketLenMask).toNat ≤ gmacDmaBufferSize := by
  simp only [rxAccept, Bool.and_eq_true, decide_eq_true_eq] at h
  exact ⟨h.1.2, h.2⟩

theorem RxHeld.step {pool : Nat} {m : Nat → Byte} {r : RxRing} {g : Option (List Nat)}
    {t u : RxCall} {a : RxAccess} (h : RxHeld pool r t) (hg : PbufAlloc t g)
    (hr : rk3576GmacDmaReceive pool m r g t = (a, .next u)) : RxHeld pool (r.perform a) u := by
  cases hp : t.pc <;> simp only [RxHeld, hp] at h <;> simp only [rk3576GmacDmaReceive, hp] at hr
  case status =>
    split at hr <;> cases hr
    rename_i ho
    have ho : (r.rxDesc r.rxIndex).own = false := by simpa using ho
    by_cases ha : rxAccept (r.rxDesc r.rxIndex).des3 = true
    · obtain ⟨hpos, hle⟩ := rxAccept_length ha
      simp only [RxHeld, ha, if_true, RxRing.perform]
      exact ⟨trivial, trivial, ho, hpos, hle⟩
    · simp only [RxHeld, ha, RxRing.perform]
      exact ⟨trivial, ho⟩
  case alloc =>
    obtain ⟨hd, hb, ho, -, hle⟩ := h
    split at hr <;> cases hr
    · exact ⟨hd, ho⟩
    · rename_i lens
      have hsum := hg lens rfl
      simp only [gmacDmaBufferSize] at hle
      rw [Nat.mod_eq_of_lt (by omega)] at hsum
      exact ⟨hd, hb, ho, Nat.zero_le _, by simpa using hsum, hle⟩
  case copy =>
    obtain ⟨hd, hb, ho, hseg, hsum, hle⟩ := h
    split at hr
    · cases hr
      exact ⟨hd, ho⟩
    · rename_i n rest hq
      simp only [hq, List.headD_cons, List.sum_cons] at hseg hsum
      split at hr <;> cases hr <;>
        simp only [RxHeld, hq, List.headD_cons, List.sum_cons, RxRing.perform]
      · exact ⟨hd, hb, ho,
          by simp only [List.length_append, List.length_singleton]; omega, hsum, hle⟩
      · have hmod : (t.copied + n) % 2 ^ 32 = t.copied + n := by
          simp only [gmacDmaBufferSize] at hle
          omega
        rw [hmod]
        exact ⟨hd, hb, ho, Nat.zero_le _, by omega, hle⟩
  case des0 =>
    cases hr
    simp only [RxHeld, RxRing.perform, h.1, Function.update_self]
    exact ⟨trivial, (GmacDesc.own_set _ _ _ (by decide)).trans h.2, rfl⟩
  case des1 =>
    cases hr
    simp only [RxHeld, RxRing.perform, h.1, Function.update_self]
    exact ⟨trivial, (GmacDesc.own_set _ _ _ (by decide)).trans h.2.1, h.2.2, rfl⟩
  case des2 =>
    cases hr
    simp only [RxHeld, RxRing.perform, h.1, Function.update_self]
    exact ⟨trivial, (GmacDesc.own_set _ _ _ (by decide)).trans h.2.1, h.2.2.1, h.2.2.2, rfl⟩
  case des3 => cases hr; exact h.1
  case index => cases hr; trivial
  case tail => cases hr

theorem rxIndex_lt_perform {pool : Nat} {m : Nat → Byte} {r : RxRing} {g : Option (List Nat)}
    {t : RxCall} {a : RxAccess} {x : RxGoto} (h : r.rxIndex < gmacRxDescCount)
    (hr : rk3576GmacDmaReceive pool m r g t = (a, x)) :
    (r.perform a).rxIndex < gmacRxDescCount := by
  cases hp : t.pc <;> simp only [rk3576GmacDmaReceive, hp] at hr
  case index => cases hr; exact rxNext_lt _
  case status => split at hr <;> cases hr <;> exact h
  case alloc => split at hr <;> cases hr <;> exact h
  case copy =>
    split at hr
    · cases hr
      exact h
    · split at hr <;> cases hr <;> exact h
  all_goals cases hr; exact h

/-- The hardware leaves alone what the call has in hand: it only writes descriptors it owns. -/
theorem RxHeld.complete {pool i : Nat} {r : RxRing} {t : RxCall} {wb : GmacDesc}
    (h : RxHeld pool r t) (ho : (r.rxDesc i).own = true) : RxHeld pool (r.complete i wb) t := by
  by_cases he : i = r.rxIndex
  · subst he
    cases hp : t.pc <;> simp only [RxHeld, hp] at h ⊢ <;>
      first
        | exact h
        | simp [ho] at h
  · have hd : (r.complete i wb).rxDesc r.rxIndex = r.rxDesc r.rxIndex :=
      Function.update_of_ne (fun hi => he hi.symm) _ _
    simp only [RxHeld, show (r.complete i wb).rxIndex = r.rxIndex from rfl, hd]
    exact h

end Rk3576.Gmac
