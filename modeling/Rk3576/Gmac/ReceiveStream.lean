import Mathlib.Data.List.Forall2
import Rk3576.Lib.Window
import Rk3576.Gmac.Receive

/-! RX as a stream: the engine lays the received frames over the ring, the single RX thread
takes them off again, and what it returns is the frames that fit one descriptor. -/
namespace Rk3576.Gmac
open Rk3576.Run Rk3576.Bytes Rk3576.RingWindow

structure RxFrame where
  bytes : List Byte
  error : Bool
  deriving DecidableEq

structure RxPiece where
  frame : RxFrame
  first : Bool
  last : Bool
  bytes : List Byte
  deriving DecidableEq

/-- How many descriptors a frame needs: at least one, even when it is empty. -/
def RxFrame.count (f : RxFrame) : Nat := (f.bytes.length - 1) / gmacDmaBufferSize + 1

def RxFrame.piece (f : RxFrame) (k : Nat) : RxPiece where
  frame := f
  first := k == 0
  last := k + 1 == f.count
  bytes := (f.bytes.drop (k * gmacDmaBufferSize)).take gmacDmaBufferSize

def RxFrame.pieces (f : RxFrame) : List RxPiece := (List.range f.count).map f.piece

/-- No error flag, and a length in 1..1600. -/
def RxFrame.good (f : RxFrame) : Bool :=
  !f.error && decide (0 < f.bytes.length) && decide (f.bytes.length ≤ gmacDmaBufferSize)

def RxPiece.deliverable (c : RxPiece) : Bool := c.first && c.last && c.frame.good

/-- The des3 word the engine writes back. FD and LD mark the first and the last piece; the last
one also carries error flag and packet length. Every other bit is whatever `x` says. -/
def RxPiece.status (c : RxPiece) (x : BitVec 32) : BitVec 32 :=
  let y := x &&& ~~~(desc3Fd ||| desc3Ld) |||
    ((if c.first then desc3Fd else 0) ||| (if c.last then desc3Ld else 0))
  if c.last then
    y &&& ~~~(desc3RxError ||| desc3PacketLenMask) |||
      ((if c.frame.error then desc3RxError else 0) |||
        BitVec.ofNat 32 (c.frame.bytes.length % 2 ^ 15))
  else y

/-- One return of the function: whether the call took a descriptor, the answer of pbuf_alloc, if
it was asked, and the result. -/
structure RxOutcome where
  took : Bool
  answer : Option (Option (List Nat))
  ret : Option RxChain
  deriving DecidableEq

/-- Ring, engine and RX thread. `arrived`, `fills` and `log` are histories; `log` has every
return of the function. -/
structure RxStream where
  ring : RxRing
  pool : Nat → Byte
  call : Option RxCall
  engine : Nat
  pending : List RxPiece
  arrived : List RxFrame
  fills : List RxPiece
  log : List RxOutcome

def inRxBuffers (o : Nat) : Prop := gmacRxBufferOffset ≤ o ∧ o < gmacTxBufferOffset

instance (o : Nat) : Decidable (inRxBuffers o) := inferInstanceAs (Decidable (_ ∧ _))

def RxStream.fill (pool : Nat) (s : RxStream) (c : RxPiece) (wb : GmacDesc) : RxStream :=
  { s with
    ring := s.ring.complete s.engine { wb with des3 := c.status wb.des3 }
    pool := rxFilled pool s.pool (s.ring.rxDesc s.engine) c.bytes
    engine := rxNext s.engine
    pending := s.pending.tail
    fills := s.fills ++ [c] }

def rxTaken (log : List RxOutcome) : List RxOutcome := log.filter (·.took)

/-- The descriptors the call has given back: one more than the log says between its last store
to the descriptor and its return. -/
def RxStream.consumed (s : RxStream) : Nat :=
  (rxTaken s.log).length + match s.call with
    | some t => if t.pc = .index ∨ t.pc = .tail then 1 else 0
    | none => 0

def RxStream.position (s : RxStream) : Nat :=
  (rxTaken s.log).length + match s.call with
    | some t => if t.pc = .tail then 1 else 0
    | none => 0

/-- What becomes of a piece: it is returned as a chain over its bytes exactly when it is
deliverable and pbuf_alloc gave a chain, and dropped otherwise. -/
def RxOutcome.Matches (c : RxPiece) (o : RxOutcome) : Prop :=
  match o.ret with
  | some chain =>
    c.deliverable = true ∧ o.answer = some (some (chain.map List.length)) ∧ chain.flatten = c.bytes
  | none => c.deliverable = false ∧ o.answer = none ∨ c.deliverable = true ∧ o.answer = some none

theorem packetLen_toNat (n : Nat) :
    (BitVec.ofNat 32 (n % 2 ^ 15) &&& desc3PacketLenMask).toNat = n % 2 ^ 15 := by
  rw [BitVec.toNat_and, BitVec.toNat_ofNat, show desc3PacketLenMask.toNat = 2 ^ 15 - 1 by decide,
    Nat.and_two_pow_sub_one_eq_mod]
  omega

theorem packetLen_mask (n : Nat) :
    BitVec.ofNat 32 (n % 2 ^ 15) &&& desc3PacketLenMask = BitVec.ofNat 32 (n % 2 ^ 15) := by
  apply BitVec.eq_of_toNat_eq
  rw [packetLen_toNat, BitVec.toNat_ofNat]
  omega

theorem packetLen_other {m : BitVec 32} (n : Nat) (h : desc3PacketLenMask &&& m = 0) :
    BitVec.ofNat 32 (n % 2 ^ 15) &&& m = 0 := by
  rw [← packetLen_mask, BitVec.and_assoc, h]
  simp

theorem released_and {y m : BitVec 32} (h : ~~~desc3Own &&& m = m) :
    (y &&& ~~~desc3Own) &&& m = y &&& m := by
  rw [BitVec.and_assoc, h]

theorem status_marks (c : RxPiece) (x : BitVec 32) :
    (c.status x &&& ~~~desc3Own) &&& (desc3Fd ||| desc3Ld) =
      (if c.first then desc3Fd else 0) ||| (if c.last then desc3Ld else 0) := by
  rw [released_and (by decide), RxPiece.status]
  have htail : ((if c.frame.error then desc3RxError else 0) |||
    BitVec.ofNat 32 (c.frame.bytes.length % 2 ^ 15)) &&&
      (desc3Fd ||| desc3Ld) = 0 := by
    rw [BitVec.and_comm, BitVec.and_or_distrib_left, BitVec.and_comm _ (BitVec.ofNat 32 _),
      packetLen_other _ (by decide)]
    cases c.frame.error <;> decide
  cases c.last with
  | true =>
    rw [if_pos rfl, and_keep (by decide) htail, and_clear (by decide)]
    cases c.first <;> decide
  | false =>
    rw [if_neg Bool.false_ne_true, and_clear (by decide)]
    cases c.first <;> decide

theorem status_error (c : RxPiece) (x : BitVec 32) (h : c.last = true) :
    (c.status x &&& ~~~desc3Own) &&& desc3RxError = if c.frame.error then desc3RxError else 0 := by
  rw [released_and (by decide), RxPiece.status, if_pos h, and_clear (by decide), BitVec.and_comm,
    BitVec.and_or_distrib_left, BitVec.and_comm _ (BitVec.ofNat 32 _),
    packetLen_other _ (by decide)]
  cases c.frame.error <;> decide

theorem status_length (c : RxPiece) (x : BitVec 32) (h : c.last = true) :
    ((c.status x &&& ~~~desc3Own) &&& desc3PacketLenMask).toNat =
      c.frame.bytes.length % 2 ^ 15 := by
  rw [released_and (by decide), RxPiece.status, if_pos h, and_clear (by decide)]
  have herr : desc3PacketLenMask &&& (if c.frame.error then desc3RxError else 0) = 0#32 := by
    cases c.frame.error <;> decide
  rw [BitVec.and_comm, BitVec.and_or_distrib_left, herr, BitVec.zero_or, BitVec.and_comm,
    packetLen_toNat]

theorem RxFrame.mem_pieces {f : RxFrame} {c : RxPiece} (h : c ∈ f.pieces) :
    ∃ k, k < f.count ∧ c = f.piece k := by
  obtain ⟨k, hk, rfl⟩ := List.mem_map.mp h
  exact ⟨k, List.mem_range.mp hk, rfl⟩

theorem RxFrame.piece_length (f : RxFrame) (k : Nat) :
    (f.piece k).bytes.length ≤ gmacDmaBufferSize := by
  simp only [RxFrame.piece, List.length_take]
  omega

theorem RxFrame.whole {f : RxFrame} {k : Nat} (hfirst : (f.piece k).first = true)
    (hlast : (f.piece k).last = true) :
    f.bytes.length ≤ gmacDmaBufferSize ∧ (f.piece k).bytes = f.bytes := by
  simp only [RxFrame.piece, beq_iff_eq] at hfirst hlast
  subst hfirst
  have hle : f.bytes.length ≤ gmacDmaBufferSize := by
    simp only [RxFrame.count, gmacDmaBufferSize] at hlast ⊢
    omega
  refine ⟨hle, ?_⟩
  simp only [RxFrame.piece, Nat.zero_mul, List.drop_zero]
  exact List.take_of_length_le hle

theorem rxAccept_status (f : RxFrame) (k : Nat) (x : BitVec 32) :
    rxAccept ((f.piece k).status x &&& ~~~desc3Own) = (f.piece k).deliverable := by
  have hmarks : ∀ a b : Bool, decide (((if a then desc3Fd else 0) ||| (if b then desc3Ld else 0)) =
      desc3Fd ||| desc3Ld) = (a && b) := by decide
  have herror : ∀ e : Bool, decide ((if e then desc3RxError else 0) = 0) = !e := by decide
  simp only [rxAccept, status_marks, hmarks]
  cases hfirst : (f.piece k).first with
  | false => simp [RxPiece.deliverable, hfirst]
  | true =>
    cases hlast : (f.piece k).last with
    | false => simp [RxPiece.deliverable, hlast]
    | true =>
      have hframe : (f.piece k).frame = f := rfl
      have hlen : f.bytes.length % 2 ^ 15 = f.bytes.length := by
        have := (RxFrame.whole hfirst hlast).1
        simp only [gmacDmaBufferSize] at this
        omega
      rw [status_error _ _ hlast, status_length _ _ hlast, hframe, hlen]
      simp only [RxPiece.deliverable, RxFrame.good, hfirst, hlast, hframe, herror, Bool.true_and]

theorem RxPiece.deliverable_bytes {f : RxFrame} {k : Nat} (h : (f.piece k).deliverable = true) :
    (f.piece k).bytes = f.bytes ∧ (f.piece k).last = true ∧ f.bytes.length ≤ gmacDmaBufferSize := by
  simp only [RxPiece.deliverable, Bool.and_eq_true] at h
  obtain ⟨hle, hb⟩ := RxFrame.whole h.1.1 h.1.2
  exact ⟨hb, h.1.2, hle⟩

structure Holding (r : RxRing) (m : Nat → Byte) (i : Nat) (c : RxPiece) : Prop where
  status : ∃ x, (r.rxDesc i).des3 = c.status x &&& ~~~desc3Own
  bytes : slice m (rxSlot i) c.bytes.length = c.bytes

/-- How far the call has come with the piece it has taken. -/
def RxTaking (cur : Option RxPiece) (t : RxCall) : Prop :=
  match t.pc with
  | .status => t.answer = none
  | .alloc => ∃ c, cur = some c ∧ c.deliverable = true ∧ t.length = c.bytes.length
  | .copy =>
    ∃ c segs, cur = some c ∧ c.deliverable = true ∧ t.length = c.bytes.length ∧ t.p = some segs ∧
      t.answer = some (some (segs.map List.length ++ t.q)) ∧ t.copied = segs.flatten.length ∧
      segs.flatten ++ t.seg = c.bytes.take (t.copied + t.seg.length)
  | _ => ∃ c, cur = some c ∧ RxOutcome.Matches c ⟨true, t.answer, t.p⟩

structure RxInv (pool : Nat) (s : RxStream) : Prop where
  window : Window gmacRxDescCount s.consumed s.fills.length fun i => (s.ring.rxDesc i).own
  engine : s.engine = s.fills.length % gmacRxDescCount
  index : s.ring.rxIndex = s.position % gmacRxDescCount
  stream : s.fills ++ s.pending = s.arrived.flatMap RxFrame.pieces
  armed : ∀ j, s.fills.length ≤ j → j < s.consumed + gmacRxDescCount →
    s.ring.rxDesc (j % gmacRxDescCount) = rxArmedDesc pool (j % gmacRxDescCount)
  filled : ∀ j c, s.consumed ≤ j → s.fills[j]? = some c →
    Holding s.ring s.pool (j % gmacRxDescCount) c
  log : List.Forall₂ RxOutcome.Matches (s.fills.take (rxTaken s.log).length) (rxTaken s.log)
  empty : ∀ o ∈ s.log, o.took = false → o.ret = none ∧ o.answer = none
  call : ∀ t, s.call = some t → RxHeld pool s.ring t ∧ RxTaking s.fills[(rxTaken s.log).length]? t

theorem RxInv.piece {pool : Nat} {s : RxStream} (h : RxInv pool s) {c : RxPiece}
    (hc : c ∈ s.fills ++ s.pending) :
    ∃ f k, c = RxFrame.piece f k := by
  rw [h.stream] at hc
  obtain ⟨f, -, hc⟩ := List.mem_flatMap.mp hc
  obtain ⟨k, -, hk⟩ := RxFrame.mem_pieces hc
  exact ⟨f, k, hk⟩

theorem RxInv.piece_at {pool : Nat} {s : RxStream} (h : RxInv pool s) {j : Nat} {c : RxPiece}
    (hc : s.fills[j]? = some c) : ∃ f k, c = RxFrame.piece f k :=
  h.piece (List.mem_append_left _ (List.mem_of_getElem? hc))

theorem rxSlot_disjoint {i j : Nat} (h : i ≠ j) :
    rxSlot i + gmacDmaBufferSize ≤ rxSlot j ∨ rxSlot j + gmacDmaBufferSize ≤ rxSlot i := by
  simp only [rxSlot, gmacDmaBufferSize]
  omega

theorem rxSlot_lt {i : Nat} (h : i < gmacRxDescCount) :
    rxSlot i + gmacDmaBufferSize ≤ gmacTxBufferOffset := by
  simp only [gmacRxDescCount] at h
  simp only [rxSlot, gmacTxBufferOffset, gmacRxDescCount, gmacDmaBufferSize]
  omega

theorem Holding.read {r : RxRing} {m : Nat → Byte} {i : Nat} {c : RxPiece}
    (h : Holding r m i c) {k : Nat}
    (hk : k < c.bytes.length) : c.bytes[k]? = some (m (rxSlot i + k)) := by
  have hb := congrArg (·[k]?) h.bytes
  simp only [slice, List.getElem?_map, List.getElem?_range hk, Option.map_some] at hb
  exact hb.symm

theorem RxTaking.step {pool : Nat} {m : Nat → Byte} {r : RxRing} {g : Option (List Nat)}
    {t u : RxCall} {a : RxAccess} {cur : Option RxPiece} (h : RxTaking cur t) (hh : RxHeld pool r t)
    (hold : (r.rxDesc r.rxIndex).own = false → t.pc ≠ .index → t.pc ≠ .tail →
      ∃ f k, cur = some (RxFrame.piece f k) ∧ Holding r m r.rxIndex (RxFrame.piece f k))
    (hr : rk3576GmacDmaReceive pool m r g t = (a, .next u)) : RxTaking cur u := by
  cases hp : t.pc <;> simp only [RxTaking, hp] at h <;> simp only [RxHeld, hp] at hh <;>
    simp only [rk3576GmacDmaReceive, hp] at hr
  case status =>
    split at hr <;> cases hr
    rename_i ho
    obtain ⟨f, k, hcur, hh⟩ := hold (by simpa using ho) (by simp [hp]) (by simp [hp])
    obtain ⟨x, hx⟩ := hh.status
    rw [hx, rxAccept_status]
    cases hd : (RxFrame.piece f k).deliverable with
    | true =>
      obtain ⟨hb, hlast, hle⟩ := RxPiece.deliverable_bytes hd
      refine ⟨_, hcur, hd, ?_⟩
      simp only [gmacDmaBufferSize] at hle
      rw [status_length _ _ hlast, hb]
      exact Nat.mod_eq_of_lt (by simp only [RxFrame.piece]; omega)
    | false => exact ⟨_, hcur, .inl ⟨hd, h⟩⟩
  case alloc =>
    obtain ⟨c, hcur, hd, hlen⟩ := h
    split at hr <;> cases hr
    · exact ⟨c, hcur, .inr ⟨hd, rfl⟩⟩
    · exact ⟨c, [], hcur, hd, hlen, rfl, rfl, rfl, rfl⟩
  case copy =>
    obtain ⟨c, segs, hcur, hd, hlen, hpp, hans, hcop, hbytes⟩ := h
    obtain ⟨-, hbuf, ho, hseg, hsum, hle⟩ := hh
    split at hr
    · rename_i hq
      cases hr
      have hseg0 : t.seg = [] := by simpa [hq] using hseg
      have hall : t.copied = c.bytes.length := by simpa [hq, hlen] using hsum
      rw [hseg0, List.append_nil, List.length_nil, Nat.add_zero, hall, List.take_length] at hbytes
      refine ⟨c, hcur, ?_⟩
      simp only [RxOutcome.Matches, hpp]
      exact ⟨hd, by simpa [hq] using hans, hbytes⟩
    · rename_i n rest hq
      simp only [hq, List.headD_cons, List.sum_cons] at hseg hsum
      split at hr <;> cases hr <;> rename_i hlt
      · obtain ⟨f, k, hcur', hhold⟩ := hold ho (by simp [hp]) (by simp [hp])
        have hread := hhold.read (k := t.copied + t.seg.length)
          (by rw [hcur] at hcur'; cases hcur'; omega)
        rw [← hbuf, ← Nat.add_assoc] at hread
        rw [hcur] at hcur'
        cases hcur'
        refine ⟨_, segs, hcur, hd, hlen, hpp, hans, hcop, ?_⟩
        simp only [List.length_append, List.length_singleton]
        rw [← Nat.add_assoc, List.take_add_one, hread, ← hbytes]
        simp
      · have hn : t.seg.length = n := by omega
        refine ⟨c, segs ++ [t.seg], hcur, hd, hlen, by simp [hpp], ?_, ?_, ?_⟩
        · simp [hans, hq, hn]
        · simp only [gmacDmaBufferSize] at hle
          rw [Nat.mod_eq_of_lt (by omega), hcop]
          simp [hn]
        · simp only [gmacDmaBufferSize] at hle
          rw [Nat.mod_eq_of_lt (by omega)]
          simpa [hn] using hbytes
  case tail => cases hr
  all_goals cases hr; exact h

theorem RxTaking.mono {cur cur' : Option RxPiece} {t : RxCall} (h : RxTaking cur t)
    (hc : ∀ c, cur = some c → cur' = some c) : RxTaking cur' t := by
  cases hp : t.pc <;> simp only [RxTaking, hp] at h ⊢
  case status => exact h
  case alloc =>
    obtain ⟨c, hcur, hrest⟩ := h
    exact ⟨c, hc c hcur, hrest⟩
  case copy =>
    obtain ⟨c, segs, hcur, hrest⟩ := h
    exact ⟨c, segs, hc c hcur, hrest⟩
  all_goals
    obtain ⟨c, hcur, hm⟩ := h
    exact ⟨c, hc c hcur, hm⟩

/-- A store that hands nothing over: no OWN bit moves and no armed descriptor changes. -/
structure Quiet (r r' : RxRing) : Prop where
  index : r'.rxIndex = r.rxIndex
  des3 : ∀ i, (r'.rxDesc i).des3 = (r.rxDesc i).des3
  armed : ∀ i, (r.rxDesc i).own = true → r'.rxDesc i = r.rxDesc i

theorem Quiet.refl (r : RxRing) : Quiet r r := ⟨rfl, fun _ => rfl, fun _ _ => rfl⟩

theorem Quiet.own {r r' : RxRing} (h : Quiet r r') (i : Nat) :
    (r'.rxDesc i).own = (r.rxDesc i).own := by
  simp only [GmacDesc.own, h.des3 i]

theorem Quiet.word {r : RxRing} {i : Nat} {f : DescField} (v : BitVec 32) (hf : f ≠ .des3)
    (ho : (r.rxDesc i).own = false) : Quiet r (r.perform (.desc i f v)) where
  index := rfl
  des3 j := by
    by_cases hj : j = i
    · subst hj
      cases f with
      | des3 => exact absurd rfl hf
      | _ => simp [RxRing.perform, GmacDesc.set]
    · simp [RxRing.perform, Function.update_of_ne hj]
  armed j hj := by
    have hne : j ≠ i := fun he => by simp [he, ho] at hj
    simp [RxRing.perform, Function.update_of_ne hne]

/-- The call has not given its descriptor back yet. -/
def RxPc.taking : RxPc → Bool
  | .index | .tail => false
  | _ => true

theorem RxStream.consumed_taking {s : RxStream} {t : RxCall} (hc : s.call = some t)
    (ht : t.pc.taking = true) :
    s.consumed = (rxTaken s.log).length ∧ s.position = (rxTaken s.log).length := by
  cases hp : t.pc <;> simp [hp, RxPc.taking] at ht <;>
    simp [RxStream.consumed, RxStream.position, hc, hp]

/-- While the call has its descriptor in hand, that descriptor holds the next piece. -/
theorem RxInv.hold {pool : Nat} {s : RxStream} {t : RxCall} (h : RxInv pool s)
    (hc : s.call = some t)
    (ht : t.pc.taking = true) (ho : (s.ring.rxDesc s.ring.rxIndex).own = false) :
    ∃ f k, s.fills[(rxTaken s.log).length]? = some (RxFrame.piece f k) ∧
      Holding s.ring s.pool s.ring.rxIndex (RxFrame.piece f k) := by
  obtain ⟨hcons, hpos⟩ := s.consumed_taking hc ht
  have hidx : s.ring.rxIndex = (rxTaken s.log).length % gmacRxDescCount := by rw [h.index, hpos]
  have hlt : (rxTaken s.log).length < s.fills.length := by
    rw [← hcons]
    exact h.window.lt_of_not_own (by decide) (by rw [hcons, ← hidx]; exact ho)
  have hget : s.fills[(rxTaken s.log).length]? = some s.fills[(rxTaken s.log).length] :=
    List.getElem?_eq_getElem hlt
  obtain ⟨f, k, hfk⟩ := h.piece_at hget
  refine ⟨f, k, hfk ▸ hget, ?_⟩
  rw [hidx]
  exact h.filled _ _ (by rw [hcons]) (hfk ▸ hget)

theorem RxInv.quiet {pool : Nat} {s : RxStream} {t u : RxCall} {r : RxRing} (h : RxInv pool s)
    (hc : s.call = some t) (ht : t.pc.taking = true) (hu : u.pc.taking = true) (hq : Quiet s.ring r)
    (hh : RxHeld pool r u) (htak : RxTaking s.fills[(rxTaken s.log).length]? u) :
    RxInv pool { s with ring := r, call := some u } := by
  obtain ⟨hcons, hpos⟩ := s.consumed_taking hc ht
  obtain ⟨hcons', hpos'⟩ :=
    RxStream.consumed_taking (s := { s with ring := r, call := some u }) rfl hu
  have hown : (fun i => (r.rxDesc i).own) = fun i => (s.ring.rxDesc i).own := funext hq.own
  refine ⟨?_, h.engine, ?_, h.stream, fun j hj hj' => ?_, fun j c hj hcj => ?_, h.log, h.empty, ?_⟩
  · rw [hcons', hown, ← hcons]
    exact h.window
  · rw [hpos', ← hpos, hq.index]
    exact h.index
  · rw [hcons', ← hcons] at hj'
    have harm := h.armed j hj hj'
    rw [hq.armed _ (by rw [harm]; exact own_rxArmedDesc _ _)]
    exact harm
  · rw [hcons', ← hcons] at hj
    have hold := h.filled j c hj hcj
    exact ⟨by rw [hq.des3]; exact hold.status, hold.bytes⟩
  · rintro _ ⟨⟩
    exact ⟨hh, htak⟩

theorem RxInv.advance {pool : Nat} {s : RxStream} {t : RxCall} (h : RxInv pool s)
    (hc : s.call = some t) (hp : t.pc = .index) :
    RxInv pool { s with
        ring := s.ring.perform (.index (rxNext s.ring.rxIndex)),
        call := some { t with pc := .tail } } := by
  have hcons : RxStream.consumed { s with
    ring := s.ring.perform (.index (rxNext s.ring.rxIndex)), call := some { t with pc := .tail } } =
      s.consumed := by
    simp [RxStream.consumed, hc, hp]
  obtain ⟨-, htak⟩ := h.call t hc
  refine ⟨?_, h.engine, ?_, h.stream, ?_, ?_, h.log, h.empty, ?_⟩
  · rw [hcons]
    exact h.window
  · simp [RxStream.position, RxRing.perform, rxNext, h.index, hc, hp]
  · rw [hcons]
    exact h.armed
  · rw [hcons]
    intro j c hj hcj
    exact ⟨(h.filled j c hj hcj).status, (h.filled j c hj hcj).bytes⟩
  · rintro _ ⟨⟩
    simp only [RxTaking, hp] at htak
    exact ⟨trivial, htak⟩

theorem RxStream.consumed_idle {s : RxStream} (hc : ∀ t, s.call = some t → t.pc = .status) :
    s.consumed = (rxTaken s.log).length ∧ s.position = (rxTaken s.log).length := by
  cases hk : s.call with
  | none => simp [RxStream.consumed, RxStream.position, hk]
  | some t => exact s.consumed_taking hk (by rw [hc t hk]; rfl)

theorem RxInv.idle {pool : Nat} {s : RxStream} {v : Option RxCall} {log : List RxOutcome}
    (h : RxInv pool s) (hc : ∀ t, s.call = some t → t.pc = .status) (hv : ∀ t, v = some t → t = {})
    (hlog : rxTaken log = rxTaken s.log)
    (hempty : ∀ o ∈ log, o.took = false → o.ret = none ∧ o.answer = none) :
    RxInv pool { s with call := v, log := log } := by
  obtain ⟨hcons, hpos⟩ := s.consumed_idle hc
  obtain ⟨hcons', hpos'⟩ :=
    RxStream.consumed_idle (s := { s with call := v, log := log }) fun t ht => by rw [hv t ht]
  rw [hlog, ← hcons] at hcons'
  rw [hlog, ← hpos] at hpos'
  refine ⟨hcons' ▸ h.window, h.engine, hpos' ▸ h.index, h.stream, hcons' ▸ h.armed,
    hcons' ▸ h.filled,
    ?_, hempty, ?_⟩
  · dsimp only
    rw [hlog]
    exact h.log
  · intro t ht
    rw [hv t ht]
    exact ⟨trivial, rfl⟩

theorem RxInv.fill_offset {pool : Nat} {s : RxStream} (h : RxInv pool s)
    (hlt : s.fills.length < s.consumed + gmacRxDescCount) :
    gmacDmaOffset pool (s.ring.rxDesc s.engine).des0 = rxSlot s.engine := by
  have hlt' : rxSlot s.engine < 2 ^ 32 := by
    have hend := rxSlot_lt (i := s.engine) (by rw [h.engine]; exact Nat.mod_lt _ (by decide))
    have hpool : gmacTxBufferOffset < 2 ^ 32 := by decide
    omega
  rw [h.engine, h.armed _ (Nat.le_refl _) hlt, ← h.engine]
  exact gmacDmaOffset_phys pool _ hlt'

theorem RxInv.engine_ne {pool : Nat} {s : RxStream} (h : RxInv pool s)
    (hlt : s.fills.length < s.consumed + gmacRxDescCount) {j : Nat} (hj : s.consumed ≤ j)
    (hj' : j < s.consumed + gmacRxDescCount) (hne : j ≠ s.fills.length) :
    j % gmacRxDescCount ≠ s.engine := fun he =>
  hne (ticket_eq hj hj' h.window.le hlt (by rw [he, h.engine]))

theorem RxInv.fill_holding {pool : Nat} {s : RxStream} {c : RxPiece} {rest : List RxPiece}
    (wb : GmacDesc)
    (h : RxInv pool s) (hpend : s.pending = c :: rest)
    (hlt : s.fills.length < s.consumed + gmacRxDescCount)
    {j : Nat} {d : RxPiece} (hj : s.consumed ≤ j) (hd : (s.fill pool c wb).fills[j]? = some d) :
    Holding (s.fill pool c wb).ring (s.fill pool c wb).pool (j % gmacRxDescCount) d := by
  obtain ⟨f, k, hfk⟩ := h.piece (c := c) (by simp [hpend])
  have hclen : c.bytes.length ≤ gmacDmaBufferSize := hfk ▸ f.piece_length k
  simp only [RxStream.fill, rxFilled, h.fill_offset hlt]
  by_cases he : j = s.fills.length
  · -- the piece just written
    obtain rfl : c = d := by simpa [RxStream.fill, he] using hd
    rw [he, ← h.engine]
    exact ⟨⟨wb.des3, by simp [RxRing.complete, GmacDesc.released]⟩, slice_blit _⟩
  · have hd' : s.fills[j]? = some d := by
      have hjlt := (List.getElem?_eq_some_iff.mp hd).1
      simp only [RxStream.fill, List.length_append, List.length_singleton] at hjlt
      have hj' : j < s.fills.length := by omega
      simpa [RxStream.fill, List.getElem?_append_left hj'] using hd
    have hjlt := (List.getElem?_eq_some_iff.mp hd').1
    have hne := h.engine_ne hlt hj (by omega) he
    have hold := h.filled j d hj hd'
    obtain ⟨f', k', hfk'⟩ := h.piece_at hd'
    have hdlen : d.bytes.length ≤ gmacDmaBufferSize := hfk' ▸ f'.piece_length k'
    refine ⟨by simp only [RxRing.complete, Function.update_of_ne hne]; exact hold.status, ?_⟩
    rw [slice_blit_disjoint]
    · exact hold.bytes
    · have := rxSlot_disjoint hne
      omega

/-- The engine fills the descriptor at the end of the window, into that descriptor's own slot. -/
theorem RxInv.fill {pool : Nat} {s : RxStream} {c : RxPiece} {rest : List RxPiece} (wb : GmacDesc)
    (h : RxInv pool s) (hpend : s.pending = c :: rest) (ho : (s.ring.rxDesc s.engine).own = true) :
    RxInv pool (s.fill pool c wb) := by
  have hlt : s.fills.length < s.consumed + gmacRxDescCount :=
    h.window.lt_of_own (by decide) (by rw [← h.engine]; exact ho)
  have hcons : (s.fill pool c wb).consumed = s.consumed := rfl
  refine ⟨?_, ?_, h.index, ?_, fun j hj hj' => ?_,
    fun j d hj hd => h.fill_holding wb hpend hlt hj hd, ?_,
    h.empty, fun t ht => ?_⟩
  · have hfill := h.window.fill hlt
    have hown := own_update s.ring.rxDesc s.engine
      (GmacDesc.released { wb with des3 := c.status wb.des3 })
    rw [GmacDesc.own_released] at hown
    have hring : (fun i => ((s.fill pool c wb).ring.rxDesc i).own) =
        Function.update (fun i => (s.ring.rxDesc i).own)
            (s.fills.length % gmacRxDescCount) false := by
      rw [← h.engine]
      exact hown
    rw [hcons, hring]
    simpa [RxStream.fill] using hfill
  · simp [RxStream.fill, rxNext, h.engine]
  · simpa [RxStream.fill, hpend] using h.stream
  · simp only [RxStream.fill, List.length_append, List.length_singleton] at hj
    rw [hcons] at hj'
    have hne := h.engine_ne hlt (j := j) (by have := h.window.le; omega) hj' (by omega)
    simp only [RxStream.fill, RxRing.complete, Function.update_of_ne hne]
    exact h.armed j (by omega) hj'
  · have hlen : (rxTaken s.log).length ≤ s.fills.length := by
      have := h.log.length_eq
      simp only [List.length_take] at this
      omega
    simpa [RxStream.fill, List.take_append_of_le_length hlen] using h.log
  · obtain ⟨hh, htak⟩ := h.call t ht
    refine ⟨hh.complete ho, ?_⟩
    have hcur : ∀ d, s.fills[(rxTaken s.log).length]? = some d →
        (s.fill pool c wb).fills[(rxTaken (s.fill pool c wb).log).length]? = some d :=
            fun d hd => by
      have hlt' := (List.getElem?_eq_some_iff.mp hd).1
      simpa [RxStream.fill, List.getElem?_append_left hlt'] using hd
    exact htak.mono hcur

theorem RxInv.foreign {pool o : Nat} {s : RxStream} (b : Byte) (h : RxInv pool s)
    (ho : ¬ inRxBuffers o) :
    RxInv pool { s with pool := Function.update s.pool o b } := by
  refine ⟨h.window, h.engine, h.index, h.stream, h.armed, fun j c hj hc => ?_,
    h.log, h.empty, h.call⟩
  have hold := h.filled j c hj hc
  obtain ⟨f, k, hfk⟩ := h.piece_at hc
  have hlen : c.bytes.length ≤ gmacDmaBufferSize := hfk ▸ f.piece_length k
  have hend := rxSlot_lt (i := j % gmacRxDescCount) (Nat.mod_lt _ (by decide))
  have hbase : gmacRxBufferOffset ≤ rxSlot (j % gmacRxDescCount) := Nat.le_add_right _ _
  refine ⟨hold.status, ?_⟩
  rw [slice_update b (by simp only [inRxBuffers] at ho; omega)]
  exact hold.bytes

end Rk3576.Gmac
