import Rk3576.Gmac.TransmitChain
import Rk3576.Gmac.TransmitRing

/-! TX as a stream: as long as no call gives up on a frame it has armed, what goes out on
the wire is what the successful calls passed in, in the order they took the lock. -/
namespace Rk3576.Gmac
open Rk3576.Run Rk3576.Bytes Rk3576.Handoff

def TxThread.chain : TxThread → List Pbuf
  | .idle => []
  | .busy t => t.p
  | .done p _ => p

def frameOf (s : TxState) (c : Nat) : Emission where
  caller := some c
  length := totLen (s.calls c).chain
  bytes := chainBytes (s.calls c).chain

def returnedOk (s : TxState) (c : Nat) : Bool :=
  match s.calls c with
  | .done _ e => e = .eok
  | _ => false

structure Loaded (m : Nat → Byte) (i : Nat) (t : TxCall) : Prop where
  offset : t.offset = (chainBytes t.p).length
  bytes : slice m (txSlot i) t.offset = chainBytes t.p

structure Copying (m : Nat → Byte) (i : Nat) (t : TxCall) (done : List Pbuf) :
    Prop extends CopySpan t done where
  bytes : slice m (txSlot i) (t.offset + t.k) = (chainBytes t.p).take (t.offset + t.k)

/-- What the holder has put into its slot and descriptor at each point. -/
def TxFill (pool : Nat) (s : TxState) (c : Nat) (t : TxCall) : Prop :=
  let d := s.txDesc s.txIndex
  match t.pc with
  | .checkFree => False
  | .copy => ∃ done, Copying s.pool s.txIndex t done
  | .des0 => Loaded s.pool s.txIndex t
  | .des1 | .des2 => Loaded s.pool s.txIndex t ∧ d.des0 = gmacDmaPhys pool (txSlot s.txIndex)
  | .des3 => Loaded s.pool s.txIndex t ∧ d.des0 = gmacDmaPhys pool (txSlot s.txIndex) ∧
      d.des2 = BitVec.ofNat 32 t.offset
  | .tail | .armDone | .pollDone | .checkDone =>
    d.own = true → Loaded s.pool s.txIndex t ∧ d.des0 = gmacDmaPhys pool (txSlot s.txIndex) ∧
      d.des2 = BitVec.ofNat 32 t.offset ∧ d.des3 = txArmed t.offset ∧ s.filledBy s.txIndex = some c
  | .unlock e => e = .eok
  | _ => True

/-- The holder's frame is out: taken by the engine, and not yet returned from. -/
def txSent (s : TxState) (t : TxCall) : Bool :=
  match t.pc with
  | .tail | .armDone | .pollDone | .checkDone => !(s.txDesc s.txIndex).own
  | .index => true
  | .unlock e => e = .eok
  | _ => false

def inflight (s : TxState) : List Emission :=
  match s.txLock with
  | none => []
  | some c =>
    match s.calls c with
    | .busy t => if txSent s t then [frameOf s c] else []
    | _ => []

/-- `l` are the calls that have come back, in the order they took the lock. -/
structure StreamOrder (s : TxState) (l : List Nat) : Prop where
  nodup : l.Nodup
  acquired : s.acquired = l ++ s.txLock.toList
  returned : ∀ c, c ∈ l ↔ returnedOk s c = true
  wire : s.wire = l.map (frameOf s) ++ inflight s

structure StreamInv (pool : Nat) (s : TxState) : Prop where
  fill : ∀ c t, s.txLock = some c → s.calls c = .busy t → TxFill pool s c t
  order : ∃ l, StreamOrder s l

theorem txArmed_len (n : Nat) (h : n ≤ gmacDmaBufferSize) :
    (txArmed n &&& desc3PacketLenMask).toNat = n := by
  have hbits : desc3Own ||| desc3Fd ||| desc3Ld = 0xb0000000#32 := by decide
  simp only [gmacDmaBufferSize] at h
  rw [txArmed, hbits, BitVec.and_comm, BitVec.and_or_distrib_left]
  have hz : desc3PacketLenMask &&& 0xb0000000#32 = 0#32 := by decide
  rw [hz, BitVec.zero_or, BitVec.and_comm, BitVec.toNat_and, BitVec.toNat_ofNat,
    show desc3PacketLenMask.toNat = 2 ^ 15 - 1 by decide, Nat.and_two_pow_sub_one_eq_mod]
  omega

theorem buffer_len (n : Nat) (h : n ≤ gmacDmaBufferSize) :
    (BitVec.ofNat 32 n &&& 0x3fff#32).toNat = n := by
  simp only [gmacDmaBufferSize] at h
  rw [BitVec.toNat_and, BitVec.toNat_ofNat, show (0x3fff#32).toNat = 2 ^ 14 - 1 by decide,
    Nat.and_two_pow_sub_one_eq_mod]
  omega

theorem txSlot_lt {i : Nat} (h : i < gmacTxDescCount) :
    txSlot i + gmacDmaBufferSize ≤ gmacDmaUsedSize := by
  simp only [gmacTxDescCount] at h
  simp only [txSlot, gmacDmaUsedSize, gmacTxDescCount, gmacDmaBufferSize]
  omega

/-- An armed descriptor that was filled completely describes exactly its caller's frame. -/
theorem txEmission_eq {pool : Nat} {s : TxState} {c : Nat} {t : TxCall}
    (hi : s.txIndex < gmacTxDescCount)
    (hc : s.calls c = .busy t) (hw : WellFormed t.p) (hlen : totLen t.p ≤ gmacDmaBufferSize)
    (hl : Loaded s.pool s.txIndex t)
    (h0 : (s.txDesc s.txIndex).des0 = gmacDmaPhys pool (txSlot s.txIndex))
    (h2 : (s.txDesc s.txIndex).des2 = BitVec.ofNat 32 t.offset)
    (h3 : (s.txDesc s.txIndex).des3 = txArmed t.offset) (hf : s.filledBy s.txIndex = some c) :
    txEmission pool s s.txIndex = frameOf s c := by
  have hoff : t.offset = totLen t.p := hl.offset.trans hw.symm
  have hle : t.offset ≤ gmacDmaBufferSize := hoff ▸ hlen
  have hslot : txSlot s.txIndex < 2 ^ 32 := by
    have := txSlot_lt hi
    simp only [gmacDmaUsedSize, gmacTxBufferOffset, gmacRxBufferOffset, gmacRxDescOffset,
      gmacTxDescOffset, gmacTxDescCount, gmacRxDescCount, gmacDescSize, gmacDmaBufferSize] at this
    omega
  simp only [txEmission, frameOf, hc, TxThread.chain, hf, h0, h2, h3, txArmed_len _ hle,
    buffer_len _ hle, gmacDmaOffset_phys pool _ hslot, hl.bytes]
  rw [hoff]

theorem Copying.store {m : Nat → Byte} {i : Nat} {t : TxCall} {done rest : List Pbuf}
    {b : Pbuf} {x : Byte}
    (h : Copying m i t done) (hq : t.q = b :: rest) (hx : b.payload[t.k]? = some x)
    (hb : t.buffer = txSlot i) :
    Copying (Function.update m (t.buffer + t.offset + t.k) x) i { t with k := t.k + 1 } done where
  toCopySpan := h.toCopySpan.store hq hx
  bytes := by
    simp only
    rw [← Nat.add_assoc, slice_succ, slice_update x (by right; omega), h.bytes, List.take_add_one,
      h.toCopySpan.at hq hx]
    simp [hb, Nat.add_assoc]

theorem Copying.next {m : Nat → Byte} {i : Nat} {t : TxCall} {done rest : List Pbuf} {b : Pbuf}
    (h : Copying m i t done) (hq : t.q = b :: rest) (hx : b.payload[t.k]? = none)
    (hlen : (chainBytes t.p).length ≤ gmacDmaBufferSize) :
    Copying m i { t with q := rest, k := 0, offset := (t.offset + b.payload.length) % 2 ^ 32 }
      (done ++ [b]) := by
  obtain ⟨hoff, hspan⟩ := h.toCopySpan.next hq hx hlen
  refine ⟨hspan, ?_⟩
  simp only [hoff, Nat.add_zero]
  exact h.bytes

theorem Copying.finish {m : Nat → Byte} {i : Nat} {t : TxCall} {done : List Pbuf}
    (h : Copying m i t done) (hq : t.q = []) : Loaded m i t := by
  obtain ⟨hk, hoff⟩ := h.toCopySpan.finish hq
  refine ⟨hoff, ?_⟩
  have hb := h.bytes
  rw [hk, Nat.add_zero] at hb
  rw [hb, hoff, List.take_length]

theorem TxFill.step {pool : Nat} {s : TxState} {c : Nat} {t u : TxCall} {a : TxAccess}
    (hf : TxFill pool s c t) (hh : TxHeld s t) (hsync : Sync gmacTxDescCount (handoff s))
    (hph : txPhase s = t.pc.phase) (hlen : (chainBytes t.p).length ≤ gmacDmaBufferSize)
    (hr : rk3576GmacDmaTransmit pool s t = (a, .next u))
    (hd : t.pc = .checkDone → tickReached s.tick t.timeout = false) :
    TxFill pool (s.perform c a) c u := by
  cases hp : t.pc <;> simp only [TxHeld, hp, rk3576GmacDmaTransmit] at hh hr <;>
    simp only [TxFill, hp] at hf
  case armFree => cases hr; trivial
  case pollFree =>
    -- nothing is armed between calls, so the slot is free at once
    have ho : (s.txDesc t.desc).own = false := by
      cases ho : (s.txDesc t.desc).own with
      | false => rfl
      | true =>
        have := (hsync.owned (by simpa [handoff, hh] using ho)).1
        simp [handoff, hph, hp, TxPc.phase] at this
    simp only [ho] at hr
    cases hr
    exact ⟨[], ⟨⟨rfl, rfl, Nat.zero_le _⟩, by simp⟩⟩
  case copy =>
    obtain ⟨done, hcopy⟩ := hf
    split at hr
    · rename_i hq
      cases hr
      have hl := hcopy.finish hq
      exact ⟨hl.offset, hl.bytes⟩
    · rename_i b rest hq
      split at hr <;> cases hr <;> rename_i hx
      · exact ⟨done, by simpa only [hp, TxState.perform] using hcopy.store hq hx hh.2.1⟩
      · exact ⟨done ++ [b], by simpa only [hp, TxState.perform] using hcopy.next hq hx hlen⟩
  case des0 =>
    cases hr
    have hd0 :
      (s.perform c (.desc t.desc .des0 (gmacDmaPhys pool (txSlot s.txIndex)))).txDesc s.txIndex =
        (s.txDesc s.txIndex).set .des0 (gmacDmaPhys pool (txSlot s.txIndex)) := by
      simp [TxState.perform, hh.1]
    exact ⟨⟨hf.offset, hf.bytes⟩,
      by rw [show (s.perform c _).txIndex = s.txIndex from rfl, hd0]; rfl⟩
  case des1 =>
    cases hr
    refine ⟨⟨hf.1.offset, hf.1.bytes⟩, ?_⟩
    simpa [TxState.perform, hh.1, GmacDesc.set] using hf.2
  case des2 =>
    cases hr
    refine ⟨⟨hf.1.offset, hf.1.bytes⟩, ?_⟩
    simpa [TxState.perform, hh.1, GmacDesc.set] using hf.2
  case des3 =>
    cases hr
    intro _
    refine ⟨⟨hf.1.offset, hf.1.bytes⟩, ?_⟩
    simpa [TxState.perform, hh.1, GmacDesc.set] using hf.2
  case tail => cases hr; exact fun ho => ⟨⟨(hf ho).1.offset, (hf ho).1.bytes⟩, (hf ho).2⟩
  case armDone => cases hr; exact fun ho => ⟨⟨(hf ho).1.offset, (hf ho).1.bytes⟩, (hf ho).2⟩
  case pollDone =>
    split at hr <;> cases hr
    · exact fun ho => ⟨⟨(hf ho).1.offset, (hf ho).1.bytes⟩, (hf ho).2⟩
    · trivial
  case checkDone =>
    simp only [hd hp] at hr
    cases hr
    exact fun ho => ⟨⟨(hf ho).1.offset, (hf ho).1.bytes⟩, (hf ho).2⟩
  case index => cases hr; rfl
  case unlock => cases hr

theorem txSent_next {pool : Nat} {s : TxState} {c : Nat} {t u : TxCall} {a : TxAccess}
    (hh : TxHeld s t) (hr : rk3576GmacDmaTransmit pool s t = (a, .next u))
    (hd : t.pc = .checkDone → tickReached s.tick t.timeout = false) :
    txSent (s.perform c a) u = txSent s t := by
  cases hp : t.pc <;> simp only [TxHeld, hp, rk3576GmacDmaTransmit] at hh hr
  case copy =>
    split at hr
    · cases hr; simp [txSent, hp]
    · split at hr <;> cases hr <;> simp [txSent, hp]
  case des3 =>
    cases hr
    simp [txSent, hp, TxState.perform, hh.1, own_txArmed]
  case pollDone =>
    split at hr <;> cases hr <;> rename_i ho
    · simp [txSent, hp, TxState.perform]
    · simpa [txSent, hp, hh.1] using ho
  case checkDone =>
    simp only [hd hp] at hr
    cases hr
    simp [txSent, hp, TxState.perform]
  case unlock => cases hr
  all_goals (repeat' split at hr) <;> cases hr <;> simp [txSent, hp, TxState.perform]

theorem StreamOrder.congr {s s' : TxState} {l : List Nat} (h : StreamOrder s l)
    (hacq : s'.acquired = s.acquired) (hlock : s'.txLock = s.txLock)
    (hret : ∀ d, returnedOk s' d = returnedOk s d)
    (hframe : ∀ d, returnedOk s d = true → frameOf s' d = frameOf s d)
    (hin : inflight s' = inflight s) (hwire : s'.wire = s.wire) : StreamOrder s' l where
  nodup := h.nodup
  acquired := by rw [hacq, hlock]; exact h.acquired
  returned d := by rw [hret d]; exact h.returned d
  wire := by
    rw [hwire, h.wire, hin]
    congr 1
    exact List.map_congr_left fun d hd => (hframe d ((h.returned d).mp hd)).symm

theorem inflight_holder {s : TxState} {c : Nat} {t : TxCall} (hl : s.txLock = some c)
    (hc : s.calls c = .busy t) : inflight s = if txSent s t then [frameOf s c] else [] := by
  simp [inflight, hl, hc]

theorem inflight_free {s : TxState} (hl : s.txLock = none) : inflight s = [] := by
  simp [inflight, hl]

theorem frameOf_of_ne {s : TxState} {c d : Nat} (v : TxThread) (h : d ≠ c) :
    frameOf (s.setCall c v) d = frameOf s d := by
  simp [frameOf, TxState.setCall, Function.update_of_ne h]

theorem returnedOk_of_ne {s : TxState} {c d : Nat} (v : TxThread) (h : d ≠ c) :
    returnedOk (s.setCall c v) d = returnedOk s d := by
  simp [returnedOk, TxState.setCall, Function.update_of_ne h]

theorem returnedOk_perform (s : TxState) (c d : Nat) (a : TxAccess) :
    returnedOk (s.perform c a) d = returnedOk s d := by
  cases a <;> rfl

theorem frameOf_perform (s : TxState) (c d : Nat) (a : TxAccess) :
    frameOf (s.perform c a) d = frameOf s d := by
  cases a <;> rfl

theorem returnedOk_busy {s : TxState} {c : Nat} {t : TxCall} (h : s.calls c = .busy t) :
    returnedOk s c = false := by
  simp [returnedOk, h]

theorem StreamInv.held {pool : Nat} {s : TxState} {c : Nat} {t u : TxCall} {a : TxAccess}
    (h : StreamInv pool s) (hi : TxInv s) (hk : TxChecked s)
    (hsync : Sync gmacTxDescCount (handoff s)) (hl : s.txLock = some c) (hc : s.calls c = .busy t)
    (hr : rk3576GmacDmaTransmit pool s t = (a, .next u))
    (hd : t.pc = .checkDone → tickReached s.tick t.timeout = false) :
    StreamInv pool ((s.perform c a).setCall c (.busy u)) := by
  have hh := hi.held hl hc
  have hne : t.pc ≠ .entry := fun hp => by simp [TxHeld, hp] at hh
  have hp := TxCall.p_next hr
  have hlock : (s.perform c a).txLock = some c := (hh.step hi.index_lt hr).2.2.1.trans hl
  obtain ⟨l, ho⟩ := h.order
  refine ⟨fun d v hd' hv => ?_, l, ?_⟩
  · obtain rfl : c = d := by simpa [TxState.setCall, hlock] using hd'
    obtain rfl : u = v := by simpa [TxState.setCall] using hv
    exact (h.fill c t hl hc).step hh hsync (txPhase_holder hl hc) ((hk c t hc).length hne) hr hd
  · refine ho.congr ?_ (hlock.trans hl.symm) (fun d => ?_) (fun d hd' => ?_) ?_ ?_
    · exact (hh.step (c := c) hi.index_lt hr).2.2.2
    · by_cases he : d = c
      · subst he; rw [returnedOk_busy hc]; simp [returnedOk, TxState.setCall]
      · rw [returnedOk_of_ne _ he, returnedOk_perform]
    · have he : d ≠ c := fun he => by rw [he, returnedOk_busy hc] at hd'; cases hd'
      rw [frameOf_of_ne _ he, frameOf_perform]
    · have hc' : ((s.perform c a).setCall c (.busy u)).calls c = .busy u := by
        simp [TxState.setCall]
      rw [inflight_holder (by simpa [TxState.setCall] using hlock) hc', inflight_holder hl hc]
      have hframe : frameOf ((s.perform c a).setCall c (.busy u)) c = frameOf s c := by
        simp [frameOf, hc', hc, TxThread.chain, hp]
      rw [hframe, ← txSent_next (c := c) hh hr hd]
      rfl
    · cases a <;> rfl

theorem StreamInv.release {pool : Nat} {s : TxState} {c : Nat} {t : TxCall} (h : StreamInv pool s)
    (hl : s.txLock = some c) (hc : s.calls c = .busy t) (hp : t.pc = .unlock .eok) :
    StreamInv pool ((s.perform c .unlock).setCall c (.done t.p .eok)) := by
  obtain ⟨l, ho⟩ := h.order
  have hother :
      ∀ d, d ≠ c → ((s.perform c .unlock).setCall c (.done t.p .eok)).calls d = s.calls d := by
    intro d he
    simp [TxState.setCall, TxState.perform, Function.update_of_ne he]
  have hframe : frameOf ((s.perform c .unlock).setCall c (.done t.p .eok)) = frameOf s := by
    funext d
    by_cases he : d = c
    · subst he; simp [frameOf, TxState.setCall, hc, TxThread.chain]
    · simp [frameOf, hother d he]
  refine ⟨by simp [TxState.setCall, TxState.perform], l ++ [c], ?_, ?_, fun d => ?_, ?_⟩
  · -- a call returns once, so it is not among the finished ones yet
    have hmem : c ∉ l := fun hm => by
      have := (ho.returned c).mp hm
      rw [returnedOk_busy hc] at this
      cases this
    exact List.nodup_append.mpr ⟨ho.nodup, by simp, by
      rintro d hd e he rfl
      exact hmem (List.mem_singleton.mp he ▸ hd)⟩
  · show s.acquired = _
    rw [ho.acquired, hl]
    simp [TxState.setCall, TxState.perform]
  · by_cases he : d = c
    · subst he; simp [returnedOk, TxState.setCall]
    · simpa [returnedOk, hother d he, he] using ho.returned d
  · show s.wire = _
    rw [ho.wire, hframe, inflight_holder hl hc,
      inflight_free (by simp [TxState.setCall, TxState.perform])]
    simp [txSent, hp]

/-- A caller outside the lock moves, returning success in no case. -/
theorem StreamInv.outside {pool : Nat} {s : TxState} {c : Nat} {v : TxThread} (h : StreamInv pool s)
    (hl : s.txLock ≠ some c) (hret : returnedOk s c = false)
    (hv : ∀ p e, v = .done p e → e ≠ .eok) :
    StreamInv pool (s.setCall c v) := by
  obtain ⟨l, ho⟩ := h.order
  have hother : ∀ d, d ≠ c → (s.setCall c v).calls d = s.calls d := fun d he => by
    simp [TxState.setCall, Function.update_of_ne he]
  refine ⟨fun d t hd ht => ?_, l, ho.congr rfl rfl (fun d => ?_) (fun d hd => ?_) ?_ rfl⟩
  · have he : d ≠ c := fun he => hl (he ▸ hd)
    exact h.fill d t hd (hother d he ▸ ht)
  · by_cases he : d = c
    · subst he
      rw [hret]
      cases v with
      | done p e => simpa [returnedOk, TxState.setCall] using hv p e rfl
      | _ => simp [returnedOk, TxState.setCall]
    · exact returnedOk_of_ne v he
  · have he : d ≠ c := fun he => by rw [he, hret] at hd; cases hd
    exact frameOf_of_ne v he
  · cases hk : s.txLock with
    | none => rw [inflight_free hk, inflight_free (by simpa [TxState.setCall] using hk)]
    | some d =>
      have he : d ≠ c := fun he => hl (he ▸ hk)
      have hk' : (s.setCall c v).txLock = some d := hk
      cases hcd : s.calls d with
      | busy t =>
        rw [inflight_holder hk' ((hother d he).trans hcd), inflight_holder hk hcd,
          frameOf_of_ne v he]
        rfl
      | _ => simp [inflight, hk, hk', hother d he, hcd]

theorem StreamInv.acquire {pool : Nat} {s : TxState} {c : Nat} {t : TxCall} (h : StreamInv pool s)
    (hl : s.txLock = none) (hc : s.calls c = .busy t) :
    StreamInv pool ((s.perform c .lock).setCall c (.busy { t with pc := .armFree })) := by
  obtain ⟨l, ho⟩ := h.order
  have hother : ∀ d, d ≠ c →
      ((s.perform c .lock).setCall c (.busy { t with pc := .armFree })).calls d = s.calls d := by
    intro d he
    simp [TxState.setCall, TxState.perform, Function.update_of_ne he]
  refine ⟨fun d v hd hv => ?_, l, ho.nodup, ?_, fun d => ?_, ?_⟩
  · obtain rfl : c = d := by simpa [TxState.setCall, TxState.perform] using hd
    obtain rfl : { t with pc := .armFree } = v := by simpa [TxState.setCall] using hv
    trivial
  · show s.acquired ++ [c] = _
    rw [ho.acquired, hl]
    simp [TxState.setCall, TxState.perform]
  · by_cases he : d = c
    · subst he
      rw [ho.returned, returnedOk_busy hc]
      simp [returnedOk, TxState.setCall]
    · simpa [returnedOk, hother d he] using ho.returned d
  · show s.wire = _
    have hin : inflight ((s.perform c .lock).setCall c (.busy { t with pc := .armFree })) = [] := by
      rw [inflight_holder
        (s := (s.perform c .lock).setCall c (.busy { t with pc := .armFree })) (c := c)
        (t := { t with pc := .armFree }) rfl (by simp [TxState.setCall])]
      simp [txSent]
    have hmap : l.map (frameOf s) = l.map (frameOf ((s.perform c .lock).setCall c
        (.busy { t with pc := .armFree }))) := by
      apply List.map_congr_left
      intro d hd
      have he : d ≠ c := fun he => by
        have := (ho.returned d).mp hd
        rw [he, returnedOk_busy hc] at this
        cases this
      simp [frameOf, hother d he]
    rw [ho.wire, inflight_free hl, hin, hmap]

theorem txSent_armed {s : TxState} {t : TxCall} (h : t.pc.phase = .armed) :
    txSent s t = !(s.txDesc s.txIndex).own := by
  cases hp : t.pc <;> simp [hp, TxPc.phase] at h <;> simp [txSent, hp]

theorem txFill_armed {pool : Nat} {s : TxState} {c : Nat} {t : TxCall} (h : t.pc.phase = .armed) :
    TxFill pool s c t ↔ ((s.txDesc s.txIndex).own = true →
      Loaded s.pool s.txIndex t ∧ (s.txDesc s.txIndex).des0 = gmacDmaPhys pool (txSlot s.txIndex) ∧
        (s.txDesc s.txIndex).des2 = BitVec.ofNat 32 t.offset ∧
        (s.txDesc s.txIndex).des3 = txArmed t.offset ∧ s.filledBy s.txIndex = some c) := by
  cases hp : t.pc <;> simp [hp, TxPc.phase] at h <;> simp only [TxFill, hp]

/-- The engine takes the slot of the lock holder, and what it sends is the holder's frame. -/
theorem StreamInv.emit {pool : Nat} {s : TxState} {wb : GmacDesc} (h : StreamInv pool s)
    (hi : TxInv s)
    (hk : TxChecked s) (hsync : Sync gmacTxDescCount (handoff s))
    (ho : (s.txDesc s.engine).own = true) :
    StreamInv pool (s.emit pool wb) := by
  have he : s.engine = s.txIndex := hsync.engine_eq_of_own ho
  have hown : (s.txDesc s.txIndex).own = true := he ▸ ho
  have hclear : ((s.emit pool wb).txDesc (s.emit pool wb).txIndex).own = false := by
    simp [TxState.emit, he]
  -- only the lock holder can be waiting for an armed slot
  have harmed : txPhase s = .armed := (hsync.owned hown).1
  obtain ⟨c, hl⟩ : ∃ c, s.txLock = some c := by
    cases hk : s.txLock with
    | none => simp [txPhase, hk] at harmed
    | some c => exact ⟨c, rfl⟩
  obtain ⟨t, hc, hh⟩ := hi.holder c hl
  rw [txPhase_holder hl hc] at harmed
  obtain ⟨hw, hlen⟩ := hk c t hc
  have hlen : totLen t.p ≤ gmacDmaBufferSize :=
    hlen.resolve_left fun hp => by simp [hp, TxPc.phase] at harmed
  obtain ⟨hload, h0, h2, h3, hf⟩ := (txFill_armed harmed).mp (h.fill c t hl hc) hown
  have hemit : txEmission pool s s.engine = frameOf s c :=
    he ▸ txEmission_eq hi.index_lt hc hw hlen hload h0 h2 h3 hf
  have hbefore : inflight s = [] := by
    rw [inflight_holder hl hc, txSent_armed harmed, hown]
    rfl
  have hafter : inflight (s.emit pool wb) = [frameOf s c] := by
    rw [inflight_holder (s := s.emit pool wb) (c := c) (t := t) hl hc, txSent_armed harmed, hclear]
    rfl
  obtain ⟨l, hord⟩ := h.order
  refine ⟨fun d v hd hv => ?_, l, hord.nodup, hord.acquired, hord.returned, ?_⟩
  · obtain rfl : c = d := Option.some.inj (hl.symm.trans hd)
    obtain rfl : t = v := TxThread.busy.inj (hc.symm.trans hv)
    exact (txFill_armed harmed).mpr fun hon => absurd (hclear.symm.trans hon) Bool.false_ne_true
  · rw [hafter]
    show s.wire ++ [txEmission pool s s.engine] = l.map (frameOf s) ++ [frameOf s c]
    rw [hemit, hord.wire, hbefore, List.append_nil]

theorem TxFill.foreign {pool : Nat} {s : TxState} {c o : Nat} {t : TxCall} (b : Byte)
    (h : TxFill pool s c t) (hi : s.txIndex < gmacTxDescCount)
    (hlen : t.pc = .entry ∨ (chainBytes t.p).length ≤ gmacDmaBufferSize) (ho : ¬ inTxBuffers o) :
    TxFill pool { s with pool := Function.update s.pool o b } c t := by
  have hslice : ∀ n, n ≤ gmacDmaBufferSize →
      slice (Function.update s.pool o b) (txSlot s.txIndex) n =
          slice s.pool (txSlot s.txIndex) n := by
    intro n hn
    have hend := txSlot_lt hi
    have hbase : gmacTxBufferOffset ≤ txSlot s.txIndex := Nat.le_add_right _ _
    exact slice_update b (by simp only [inTxBuffers] at ho; omega)
  have hload : (chainBytes t.p).length ≤ gmacDmaBufferSize → Loaded s.pool s.txIndex t →
      Loaded (Function.update s.pool o b) s.txIndex t := fun hn hl =>
    ⟨hl.offset, by rw [hslice _ (by rw [hl.offset]; exact hn)]; exact hl.bytes⟩
  cases hp : t.pc <;> simp only [hp, reduceCtorEq, false_or] at hlen <;>
    simp only [TxFill, hp] at h ⊢
  case copy =>
    obtain ⟨done, hc⟩ := h
    have hn : t.offset + t.k ≤ (chainBytes t.p).length := by
      have := congrArg List.length hc.bytes
      simp only [slice_length, List.length_take] at this
      omega
    exact ⟨done, hc.toCopySpan, by rw [hslice _ (hn.trans hlen)]; exact hc.bytes⟩
  case des0 => exact hload hlen h
  case des1 => exact ⟨hload hlen h.1, h.2⟩
  case des2 => exact ⟨hload hlen h.1, h.2⟩
  case des3 => exact ⟨hload hlen h.1, h.2⟩
  case tail => exact fun ho => ⟨hload hlen (h ho).1, (h ho).2⟩
  case armDone => exact fun ho => ⟨hload hlen (h ho).1, (h ho).2⟩
  case pollDone => exact fun ho => ⟨hload hlen (h ho).1, (h ho).2⟩
  case checkDone => exact fun ho => ⟨hload hlen (h ho).1, (h ho).2⟩
  case unlock => exact h

theorem StreamInv.foreign {pool : Nat} {s : TxState} {o : Nat} (b : Byte) (h : StreamInv pool s)
    (hk : TxChecked s) (hi : s.txIndex < gmacTxDescCount) (ho : ¬ inTxBuffers o) :
    StreamInv pool { s with pool := Function.update s.pool o b } := by
  obtain ⟨l, hord⟩ := h.order
  refine ⟨fun c t hl hc => ?_, l, hord.nodup, hord.acquired, hord.returned, hord.wire⟩
  obtain ⟨hw, hlen⟩ := hk c t hc
  exact (h.fill c t hl hc).foreign b hi (hlen.imp_right fun hn => hw ▸ hn) ho

theorem streamInv_cpu {pool : Nat} {s s' : TxState} {c : Nat} (h : StreamInv pool s) (hi : TxInv s)
    (hk : TxChecked s) (hsync : Sync gmacTxDescCount (handoff s))
    (hs : txStep pool s (.cpu c) = some s')
    (hd : doneTimeout s (.cpu c) = false) : StreamInv pool s' := by
  obtain ⟨t, a, hc, hs⟩ := txStep_cpu hs
  by_cases hl : s.txLock = some c
  · have hh := hi.held hl hc
    rcases hs with ⟨u, hr, rfl⟩ | ⟨e, hr, rfl⟩
    · exact h.held hi hk hsync hl hc hr fun hp => by simpa [doneTimeout, hc, hp] using hd
    · obtain ⟨hp, rfl⟩ := hh.ret hr
      obtain rfl : e = .eok := by simpa [TxFill, hp] using h.fill c t hl hc
      exact h.release hl hc hp
  · have hout : t.pc = .entry ∨ t.pc = .lock := by simpa [hc, TxOutside] using hi.outside c hl
    have hret := returnedOk_busy hc
    rcases hout with hp | hp <;> simp only [rk3576GmacDmaTransmit, hp] at hs
    · split at hs <;> rcases hs with ⟨u, hr, rfl⟩ | ⟨e, hr, rfl⟩ <;> cases hr <;>
        exact h.outside hl hret (by simp)
    · split at hs <;> rename_i hfree <;> rcases hs with ⟨u, hr, rfl⟩ | ⟨e, hr, rfl⟩ <;> cases hr
      exact h.acquire hfree hc

theorem streamInv_step {pool : Nat} {s s' : TxState} {a : TxAct} (h : StreamInv pool s)
    (hi : TxInv s)
    (hk : TxChecked s) (hsync : Sync gmacTxDescCount (handoff s)) (hs : txStep pool s a = some s')
    (hd : doneTimeout s a = false) : StreamInv pool s' := by
  have hidle : ∀ c, s.calls c = .idle → s.txLock ≠ some c := fun c hc hl => by
    obtain ⟨t, ht, -⟩ := hi.holder c hl
    simp [hc] at ht
  cases a with
  | call c p =>
    simp only [txStep] at hs
    split at hs <;> cases hs
    rename_i hc
    exact h.outside (hidle c hc) (by simp [returnedOk, hc]) (by simp)
  | cpu c => exact streamInv_cpu h hi hk hsync hs hd
  | lockFail c =>
    rcases txStep_caller hs rfl with ⟨p, hc, rfl⟩ | he | ⟨t, hc, hp, rfl⟩
    · simp [txStep, hc] at hs
    · cases he
    · have hl : s.txLock ≠ some c := fun hl => by simpa [TxHeld, hp] using hi.held hl hc
      exact h.outside hl (returnedOk_busy hc) (by simp)
  | engine wb =>
    simp only [txStep, txEngine] at hs
    split at hs <;> cases hs
    rename_i he
    exact h.emit hi hk hsync he.2
  | tick _ | link _ =>
    cases hs
    exact ⟨h.fill, h.order.imp fun _ o => ⟨o.nodup, o.acquired, o.returned, o.wire⟩⟩
  | foreign o b =>
    simp only [txStep] at hs
    split at hs <;> cases hs
    rename_i ho
    exact h.foreign b hk hi.index_lt ho

theorem streamInv_init (pool : Nat) (g : GmacDev) (buf : Nat → Byte) (now : BitVec 32) :
    StreamInv pool (txInit pool g buf now) :=
  ⟨by simp [txInit], [], List.nodup_nil, rfl, by simp [returnedOk, txInit], rfl⟩

theorem streamInv_runs {pool : Nat} {g : GmacDev} {buf : Nat → Byte} {now : BitVec 32}
    {as : List TxAct} {s : TxState} (hr : runs (txStep pool) (txInit pool g buf now) as = some s)
    (hok : NoDoneTimeout pool (txInit pool g buf now) as) (hw : ∀ a ∈ as, a.WellFormed) :
    TxInv s ∧ StreamInv pool s := by
  have h := runs_invariant_along
    (I := fun s => (TxInv s ∧ TxChecked s) ∧ Sync gmacTxDescCount (handoff s) ∧ StreamInv pool s)
    (fun _ _ _ ⟨⟨hi, hk⟩, hsync, h⟩ hd hs => ⟨⟨txInv_step hi hs, txChecked_step hk hs hd.2⟩,
      hsync.step (handoff_step hi hs hd.1), streamInv_step h hi hk hsync hs hd.1⟩)
    ⟨⟨txInv_init pool g buf now, txChecked_init pool g buf now⟩, txSync_init pool g buf now,
      streamInv_init pool g buf now⟩
    (along_and hok (along_of_forall hw _)) hr
  exact ⟨h.1.1, h.2.2⟩

theorem StreamOrder.filter_acquired {s : TxState} {l : List Nat} (h : StreamOrder s l)
    (hi : TxInv s) : s.acquired.filter (returnedOk s) = l := by
  have hl : l.filter (returnedOk s) = l := List.filter_eq_self.mpr fun c hc => (h.returned c).mp hc
  have hk : s.txLock.toList.filter (returnedOk s) = [] := by
    cases hk : s.txLock with
    | none => rfl
    | some c =>
      obtain ⟨t, hc, -⟩ := hi.holder c hk
      simp [returnedOk_busy hc]
  rw [h.acquired, List.filter_append, hl, hk, List.append_nil]

/-- The frames of the calls that have returned RT_EOK, in the order they took the lock. -/
def sentFrames (s : TxState) : List Emission := (s.acquired.filter (returnedOk s)).map (frameOf s)

/-- The wire carries the frames of the successful calls, in lock order and once each. At most
one more frame is out: that of the lock holder, about to return success. When every call has
come back the two sequences are equal. -/
theorem wire_eq_sentFrames (pool : Nat) (g : GmacDev) (buf : Nat → Byte) (now : BitVec 32)
    (as : List TxAct) (s : TxState) (hr : runs (txStep pool) (txInit pool g buf now) as = some s)
    (hok : NoDoneTimeout pool (txInit pool g buf now) as) (hw : ∀ a ∈ as, a.WellFormed) :
    s.wire = sentFrames s ++ inflight s ∧ (s.acquired.filter (returnedOk s)).Nodup ∧
      (∀ c, returnedOk s c = true → c ∈ s.acquired) ∧
      ((∀ c t, s.calls c ≠ .busy t) → s.wire = sentFrames s) := by
  obtain ⟨hi, hs⟩ := streamInv_runs hr hok hw
  obtain ⟨l, ho⟩ := hs.order
  have hwire : s.wire = sentFrames s ++ inflight s := by
    rw [sentFrames, ho.filter_acquired hi]
    exact ho.wire
  refine ⟨hwire, (ho.filter_acquired hi).symm ▸ ho.nodup, fun c hc => ?_, fun hq => ?_⟩
  · rw [ho.acquired]
    exact List.mem_append_left _ ((ho.returned c).mpr hc)
  · have hfree : s.txLock = none := by
      cases hk : s.txLock with
      | none => rfl
      | some c =>
        obtain ⟨t, hc, -⟩ := hi.holder c hk
        exact absurd hc (hq c t)
    rw [hwire, inflight_free hfree, List.append_nil]

def threeSegments : List Pbuf := [⟨[1, 2], 3, by decide⟩, ⟨[], 1, by decide⟩, ⟨[3], 1, by decide⟩]

/-- Two senders at once: the second one is at the mutex while the first one sends a chain with
an empty segment. -/
def sendTwo : List TxAct :=
  [TxAct.call 0 threeSegments, .call 1 oneByte, .cpu 0, .cpu 0, .cpu 1] ++
    List.replicate 16 (TxAct.cpu 0) ++
    [TxAct.engine .zero] ++ List.replicate 4 (TxAct.cpu 0) ++ List.replicate 13 (TxAct.cpu 1) ++
    [TxAct.engine .zero] ++ List.replicate 4 (TxAct.cpu 1)

theorem wire_eq_sentFrames_sendTwo :
    ∃ s, runs (txStep 0x40000000) txStart sendTwo = some s ∧
      s.wire = [⟨some 0, 3, [1, 2, 3]⟩, ⟨some 1, 1, [0x5a]⟩] ∧ s.wire = sentFrames s := by
  obtain ⟨s, hs, hv⟩ := Option.map_eq_some_iff.mp
    (by decide +kernel : (runs (txStep 0x40000000) txStart sendTwo).map
      (fun s => (s.txLock, s.wire)) =
      some (none, [⟨some 0, 3, [1, 2, 3]⟩, ⟨some 1, 1, [0x5a]⟩]))
  obtain ⟨hl, hwire⟩ := Prod.mk.inj hv
  have h := (wire_eq_sentFrames _ _ _ _ _ s hs (by decide +kernel) (by decide +kernel)).1
  rw [inflight_free hl, List.append_nil] at h
  exact ⟨s, hs, hwire, h⟩

end Rk3576.Gmac
