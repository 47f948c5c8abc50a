import Rk3576.Lib.Run
import Rk3576.Lib.Bytes
import Rk3576.Gmac.Start

/-! `rk3576_gmac_dma_transmit` as a machine that performs one shared access per step,
any number of callers at once, and the TX engine that works on the same ring. -/
namespace Rk3576.Gmac
open Rk3576.Run Rk3576.Bytes

/-- One `struct pbuf` of a chain; `q->len` is the length of its payload. -/
structure Pbuf where
  payload : List Byte
  totLen : BitVec 16
  len_lt : payload.length < 2 ^ 16
  deriving DecidableEq

def totLen : List Pbuf → Nat
  | [] => 0
  | b :: _ => b.totLen.toNat

def chainBytes (p : List Pbuf) : List Byte := p.flatMap Pbuf.payload

/-- The invariant lwIP keeps for a packet: the head's tot_len counts the whole chain. -/
def WellFormed (p : List Pbuf) : Prop := totLen p = (chainBytes p).length

instance (p : List Pbuf) : Decidable (WellFormed p) := inferInstanceAs (Decidable (_ = _))

/-- Where a call stands. The two wait loops poll (read OWN) and check (test the tick)
in turn; `copy` is inside the loop over the chain, `des0`..`des3` are the four stores. -/
inductive TxPc where
  | entry | lock
  | armFree | pollFree | checkFree
  | copy | des0 | des1 | des2 | des3 | tail
  | armDone | pollDone | checkDone
  | index
  | unlock (ret : RtErr)
  deriving DecidableEq, Repr

/-- The locals of one call. `desc` is the index behind the descriptor pointer, `buffer` a
pool offset, and `k` counts the bytes the current rt_memcpy has moved. -/
structure TxCall where
  p : List Pbuf
  desc : Nat := 0
  buffer : Nat := 0
  q : List Pbuf := []
  k : Nat := 0
  offset : Nat := 0
  next : Nat := 0
  timeout : BitVec 32 := 0
  pc : TxPc := .entry

inductive TxThread where
  | idle
  | busy (t : TxCall)
  | done (p : List Pbuf) (ret : RtErr)

/-- A frame on the wire: its caller, the length field of des3, and the bytes fetched. -/
structure Emission where
  caller : Option Nat
  length : Nat
  bytes : List Byte
  deriving DecidableEq

/-- Driver, ring, engine and callers. `filledBy`, `acquired` and `wire` are histories:
no step reads them. -/
structure TxState where
  txDesc : Nat → GmacDesc
  txIndex : Nat
  txLock : Option Nat
  linkUp : Bool
  tick : BitVec 32
  tail : BitVec 32
  pool : Nat → Byte
  calls : Nat → TxThread
  engine : Nat
  filledBy : Nat → Option Nat
  acquired : List Nat
  wire : List Emission

/-- The state `rk3576_gmac_dma_start` leaves: the tail register is not written by it. -/
def txInit (pool : Nat) (g : GmacDev) (buf : Nat → Byte) (now : BitVec 32) : TxState where
  txDesc := (gmacInitDmaMemory pool g).txRing
  txIndex := (gmacInitDmaMemory pool g).txIndex
  txLock := none
  linkUp := g.linkUp
  tick := now
  tail := g.reg dmaCh0TxdescTail
  pool := buf
  calls := fun _ => .idle
  engine := 0
  filledBy := fun _ => none
  acquired := []
  wire := []

inductive TxAct where
  | call (c : Nat) (p : List Pbuf)
  | cpu (c : Nat)
  /-- rt_mutex_take of caller `c` does not return RT_EOK -/
  | lockFail (c : Nat)
  /-- the engine completes its current descriptor and writes `wb` back -/
  | engine (wb : GmacDesc)
  | tick (now : BitVec 32)
  | link (up : Bool)
  /-- another party stores a byte of the pool outside the TX buffers -/
  | foreign (o : Nat) (b : Byte)

def TxAct.caller : TxAct → Option Nat
  | .call c _ | .cpu c | .lockFail c => some c
  | _ => none

/-- The one shared access a step performs. Reads and moves inside the locals are `none`. -/
inductive TxAccess where
  | none
  | lock
  | unlock
  | byte (o : Nat) (b : Byte)
  | desc (i : Nat) (f : DescField) (v : BitVec 32)
  | tail (v : BitVec 32)
  | index (i : Nat)

inductive TxGoto where
  | next (t : TxCall)
  | ret (e : RtErr)
  | blocked

def txArmed (offset : Nat) : BitVec 32 :=
  desc3Own ||| desc3Fd ||| desc3Ld ||| BitVec.ofNat 32 offset

def txNext (i : Nat) : Nat := (i + 1) % gmacTxDescCount

def txDeadline (now : BitVec 32) : BitVec 32 := now + rtTickFromMillisecond 1000

def txAccepts (linkUp : Bool) (p : List Pbuf) : Prop :=
  ¬ (p = [] ∨ totLen p > gmacDmaBufferSize ∨ linkUp = false)

/-- The next access of a call, and where it goes on. -/
def rk3576GmacDmaTransmit (pool : Nat) (s : TxState) (t : TxCall) : TxAccess × TxGoto :=
  match t.pc with
  | .entry =>
    if t.p = [] ∨ totLen t.p > gmacDmaBufferSize ∨ s.linkUp = false then (.none, .ret .error)
    else (.none, .next { t with pc := .lock })
  | .lock =>
    match s.txLock with
    | some _ => (.none, .blocked)
    | none => (.lock, .next { t with pc := .armFree })
  | .armFree =>
    (.none, .next { t with desc := s.txIndex, timeout := txDeadline s.tick, pc := .pollFree })
  | .pollFree =>
    if (s.txDesc t.desc).own then (.none, .next { t with pc := .checkFree })
    else (.none,
      .next { t with buffer := txSlot s.txIndex, q := t.p, k := 0, offset := 0, pc := .copy })
  | .checkFree =>
    if tickReached s.tick t.timeout then (.none, .next { t with pc := .unlock .etimeout })
    else (.none, .next { t with pc := .pollFree })
  | .copy =>
    match t.q with
    | [] => (.none, .next { t with pc := .des0 })
    | b :: rest =>
      match b.payload[t.k]? with
      | some x => (.byte (t.buffer + t.offset + t.k) x, .next { t with k := t.k + 1 })
      | none =>
        (.none, .next { t with
          q := rest, k := 0, offset := (t.offset + b.payload.length) % 2 ^ 32 })
  | .des0 =>
    (.desc t.desc .des0 (gmacDmaPhys pool (txSlot s.txIndex)), .next { t with pc := .des1 })
  | .des1 => (.desc t.desc .des1 0, .next { t with pc := .des2 })
  | .des2 => (.desc t.desc .des2 (BitVec.ofNat 32 t.offset), .next { t with pc := .des3 })
  | .des3 => (.desc t.desc .des3 (txArmed t.offset), .next { t with pc := .tail })
  | .tail =>
    (.tail (txDescAddr pool (txNext s.txIndex)),
      .next { t with next := txNext s.txIndex, pc := .armDone })
  | .armDone => (.none, .next { t with timeout := txDeadline s.tick, pc := .pollDone })
  | .pollDone =>
    if (s.txDesc t.desc).own then (.none, .next { t with pc := .checkDone })
    else (.none, .next { t with pc := .index })
  | .checkDone =>
    if tickReached s.tick t.timeout then (.none, .next { t with pc := .unlock .etimeout })
    else (.none, .next { t with pc := .pollDone })
  | .index => (.index t.next, .next { t with pc := .unlock .eok })
  | .unlock e => (.unlock, .ret e)

def TxState.perform (s : TxState) (c : Nat) : TxAccess → TxState
  | .none => s
  | .lock => { s with txLock := some c, acquired := s.acquired ++ [c] }
  | .unlock => { s with txLock := none }
  | .byte o b => { s with pool := Function.update s.pool o b }
  | .desc i f v =>
    { s with
      txDesc := Function.update s.txDesc i ((s.txDesc i).set f v)
      filledBy := if f = .des3 then Function.update s.filledBy i (some c) else s.filledBy }
  | .tail v => { s with tail := v }
  | .index i => { s with txIndex := i }

def TxState.setCall (s : TxState) (c : Nat) (v : TxThread) : TxState :=
  { s with calls := Function.update s.calls c v }

/-- The frame a descriptor describes: des2 holds the buffer length in 14 bits, des3 the
packet length in 15. -/
def txEmission (pool : Nat) (s : TxState) (i : Nat) : Emission where
  caller := s.filledBy i
  length := ((s.txDesc i).des3 &&& desc3PacketLenMask).toNat
  bytes := slice s.pool (gmacDmaOffset pool (s.txDesc i).des0)
    ((s.txDesc i).des2 &&& 0x3fff#32).toNat

/-- The engine emits its descriptor, gives it back and moves on. -/
def TxState.emit (pool : Nat) (s : TxState) (wb : GmacDesc) : TxState :=
  { s with
    wire := s.wire ++ [txEmission pool s s.engine]
    txDesc := Function.update s.txDesc s.engine wb.released
    engine := txNext s.engine }

/-- It does so while its descriptor is not the one the tail register names and has OWN set. -/
def txEngine (pool : Nat) (s : TxState) (wb : GmacDesc) : Option TxState :=
  if txDescAddr pool s.engine ≠ s.tail ∧ (s.txDesc s.engine).own then
    some (s.emit pool wb) else none

def inTxBuffers (o : Nat) : Prop := gmacTxBufferOffset ≤ o ∧ o < gmacDmaUsedSize

instance (o : Nat) : Decidable (inTxBuffers o) := inferInstanceAs (Decidable (_ ∧ _))

def txStep (pool : Nat) (s : TxState) : TxAct → Option TxState
  | .call c p =>
    match s.calls c with
    | .idle => some (s.setCall c (.busy { p := p }))
    | _ => none
  | .cpu c =>
    match s.calls c with
    | .busy t =>
      match rk3576GmacDmaTransmit pool s t with
      | (a, .next u) => some ((s.perform c a).setCall c (.busy u))
      | (a, .ret e) => some ((s.perform c a).setCall c (.done t.p e))
      | (_, .blocked) => none
    | _ => none
  | .lockFail c =>
    match s.calls c with
    | .busy t => if t.pc = .lock then some (s.setCall c (.done t.p .etimeout)) else none
    | _ => none
  | .engine wb => txEngine pool s wb
  | .tick now => some { s with tick := now }
  | .link up => some { s with linkUp := up }
  | .foreign o b =>
    if inTxBuffers o then none else some { s with pool := Function.update s.pool o b }

/-- A call gets past its entry exactly when the check accepts it. -/
theorem transmit_entry (pool : Nat) (s : TxState) (p : List Pbuf) :
    (∃ u, rk3576GmacDmaTransmit pool s { p := p } = (.none, .next u)) ↔ txAccepts s.linkUp p := by
  simp only [rk3576GmacDmaTransmit, txAccepts]
  split
  · rename_i h
    simp [h]
  · rename_i h
    simp [h]

theorem txStep_cpu {pool : Nat} {s s' : TxState} {c : Nat} (h : txStep pool s (.cpu c) = some s') :
    ∃ t a, s.calls c = .busy t ∧
      ((∃ u, rk3576GmacDmaTransmit pool s t = (a, .next u) ∧
          s' = (s.perform c a).setCall c (.busy u)) ∨
        ∃ e, rk3576GmacDmaTransmit pool s t = (a, .ret e) ∧
          s' = (s.perform c a).setCall c (.done t.p e)) := by
  simp only [txStep] at h
  split at h
  · rename_i t ht
    split at h
    · rename_i a u hr
      cases h
      exact ⟨t, a, ht, .inl ⟨u, hr, rfl⟩⟩
    · rename_i a e hr
      cases h
      exact ⟨t, a, ht, .inr ⟨e, hr, rfl⟩⟩
    · cases h
  · cases h

theorem txStep_caller {pool : Nat} {s s' : TxState} {a : TxAct} {c : Nat}
    (h : txStep pool s a = some s') (hc : a.caller = some c) :
    (∃ p, s.calls c = .idle ∧ s' = s.setCall c (.busy { p := p })) ∨ a = .cpu c ∨
      ∃ t, s.calls c = .busy t ∧ t.pc = .lock ∧ s' = s.setCall c (.done t.p .etimeout) := by
  cases a with
  | call d p =>
    obtain rfl : d = c := by simpa [TxAct.caller] using hc
    simp only [txStep] at h
    split at h <;> cases h
    rename_i hi
    exact .inl ⟨p, hi, rfl⟩
  | cpu d =>
    obtain rfl : d = c := by simpa [TxAct.caller] using hc
    exact .inr (.inl rfl)
  | lockFail d =>
    obtain rfl : d = c := by simpa [TxAct.caller] using hc
    simp only [txStep] at h
    split at h
    · rename_i t ht
      split at h <;> cases h
      rename_i hp
      exact .inr (.inr ⟨t, ht, hp, rfl⟩)
    · cases h
  | engine wb => simp [TxAct.caller] at hc
  | tick now => simp [TxAct.caller] at hc
  | link up => simp [TxAct.caller] at hc
  | foreign o b => simp [TxAct.caller] at hc

end Rk3576.Gmac
