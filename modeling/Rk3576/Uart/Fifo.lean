import Rk3576.Lib.Ring
import Rk3576.Lib.Run
import Rk3576.Uart.Receive

/-! The receive path as a whole: bytes come over the line into the FIFO of the UART, the interrupt
handler moves them to the buffer of the serial device, and `rt_serial_read` takes them. -/
namespace Rk3576.Uart
open Rk3576.Ring Rk3576.Run
open Rk3576.Gmac (Byte)

def SerialRxFifo.get (bufsz : BitVec 16) (f : SerialRxFifo) : Option (Byte × SerialRxFifo) :=
  if f.getIndex = f.putIndex ∧ f.isFull = false then none
  else
    some (f.buffer f.getIndex.toNat,
      { f with getIndex := if f.getIndex + 1 ≥ bufsz then 0 else f.getIndex + 1, isFull := false })

/-- The length that RX_IND hands to `rx_indicate`. -/
def SerialRxFifo.rxLength (bufsz : BitVec 16) (f : SerialRxFifo) : Nat :=
  if f.putIndex ≥ f.getIndex then f.putIndex.toNat - f.getIndex.toNat
  else bufsz.toNat - (f.getIndex.toNat - f.putIndex.toNat)

def SerialRxFifo.bytes (bufsz : BitVec 16) (f : SerialRxFifo) : List Byte :=
  items f.buffer bufsz.toNat f.getIndex.toNat (f.rxLength bufsz)

/-- `line` is all that has arrived, `handed` all that handlers gave to the buffer code, and `taken`
all that readers got. -/
structure RxPath where
  hw : List Byte
  rx : SerialRxFifo
  line : List Byte
  handed : List Byte
  taken : List Byte

inductive RxPathAction where
  | arrive (bytes : List Byte)
  | isr (env : List UartAccess)
  | read

/-- A handler runs to its end, a reader may be interrupted between any two bytes. -/
def rxPathStep (bufsz : BitVec 16) (w : RxPath) : RxPathAction → Option RxPath
  | .arrive bytes => some { w with hw := w.hw ++ bytes, line := w.line ++ bytes }
  | .isr env =>
    let t := rtHwUartIsr bufsz (isrEntry w.rx w.hw) env
    if t.pc = .done then
      some { w with
        hw := t.fifo, rx := t.rx, line := w.line ++ arrived env, handed := w.handed ++ t.handed }
    else none
  | .read => (w.rx.get bufsz).map fun r => { w with rx := r.2, taken := w.taken ++ [r.1] }

def rxPathInit (buffer : Nat → Byte) : RxPath := ⟨[], ⟨buffer, 0, 0, false⟩, [], [], []⟩

structure RxOk (bufsz : BitVec 16) (f : SerialRxFifo) : Prop where
  two : 2 ≤ bufsz.toNat
  put : f.putIndex.toNat < bufsz.toNat
  get : f.getIndex.toNat < bufsz.toNat
  full : f.isFull = true → f.rxLength bufsz ≠ 0

theorem wrap_toNat {bufsz i : BitVec 16} (h : i.toNat < bufsz.toNat) :
    (if i + 1 ≥ bufsz then 0 else i + 1).toNat = succ bufsz.toNat i.toNat := by
  have hlt := bufsz.isLt
  have hone : (i + 1).toNat = i.toNat + 1 := by
    rw [BitVec.toNat_add]
    exact Nat.mod_eq_of_lt (by change i.toNat + 1 < 2 ^ 16; omega)
  have hge : i + 1 ≥ bufsz ↔ i.toNat + 1 ≥ bufsz.toNat := by
    rw [ge_iff_le, BitVec.le_def, hone]
  rw [succ]
  split
  · next hw =>
    rw [if_pos (hge.mp hw)]
    rfl
  · next hw => rw [if_neg fun hw' => hw (hge.mpr hw'), hone]

section Buffer
variable {bufsz : BitVec 16} {f : SerialRxFifo} (h : RxOk bufsz f)
include h

theorem RxOk.length : f.rxLength bufsz < bufsz.toNat ∧
      f.putIndex.toNat = (f.getIndex.toNat + f.rxLength bufsz) % bufsz.toNat := by
  have hput := h.put
  have hget := h.get
  rw [SerialRxFifo.rxLength]
  split
  · next hle =>
    rw [ge_iff_le, BitVec.le_def] at hle
    refine ⟨by omega, ?_⟩
    rw [Nat.add_sub_cancel' hle, Nat.mod_eq_of_lt hput]
  · next hle =>
    rw [ge_iff_le, BitVec.le_def] at hle
    refine ⟨by omega, ?_⟩
    have hsum : f.getIndex.toNat + (bufsz.toNat - (f.getIndex.toNat - f.putIndex.toNat)) =
        f.putIndex.toNat + bufsz.toNat := by omega
    rw [hsum, Nat.add_mod_right, Nat.mod_eq_of_lt hput]

end Buffer

theorem rxLength_unique {bufsz : BitVec 16} {f : SerialRxFifo}
    (hget : f.getIndex.toNat < bufsz.toNat) {c : Nat}
    (hc : c < bufsz.toNat) (hput : f.putIndex.toNat = (f.getIndex.toNat + c) % bufsz.toNat) :
    f.rxLength bufsz = c := by
  have hmod : f.putIndex.toNat = if f.getIndex.toNat + c < bufsz.toNat then f.getIndex.toNat + c
      else f.getIndex.toNat + c - bufsz.toNat := by
    rw [hput]
    split
    · next hlt => exact Nat.mod_eq_of_lt hlt
    · next hlt => rw [Nat.mod_eq_sub_mod (by omega), Nat.mod_eq_of_lt (by omega)]
  rw [SerialRxFifo.rxLength]
  simp only [ge_iff_le, BitVec.le_def]
  split at hmod <;> split <;> omega

/-- A byte into the buffer: the oldest one goes when there are already `bufsz - 1`. -/
theorem RxOk.put_bytes {bufsz : BitVec 16} {f : SerialRxFifo} (h : RxOk bufsz f) (ch : Byte) :
    RxOk bufsz (f.put bufsz ch) ∧
      (f.put bufsz ch).bytes bufsz =
      if f.rxLength bufsz + 1 < bufsz.toNat then f.bytes bufsz ++ [ch]
        else (f.bytes bufsz ++ [ch]).tail := by
  obtain ⟨hlen, hput⟩ := h.length
  have htwo := h.two
  have hget := h.get
  have hnext := wrap_toNat h.put
  have hstep : succ bufsz.toNat f.putIndex.toNat =
      (f.getIndex.toNat + (f.rxLength bufsz + 1)) % bufsz.toNat := by
    rw [succ_eq h.put, hput, Nat.mod_add_mod, Nat.add_assoc]
  have hpush : items (Function.update f.buffer f.putIndex.toNat ch) bufsz.toNat f.getIndex.toNat
    (f.rxLength bufsz + 1) =
      f.bytes bufsz ++ [ch] := by
    rw [hput]
    exact items_push f.buffer hlen ch
  rw [SerialRxFifo.put]
  generalize hp : (if f.putIndex + 1 ≥ bufsz then 0 else f.putIndex + 1) = p at hnext
  by_cases hroom : f.rxLength bufsz + 1 < bufsz.toNat
  · have hne : p ≠ f.getIndex := by
      intro he
      have hslot : (f.getIndex.toNat + (f.rxLength bufsz + 1)) % bufsz.toNat ≠
          (f.getIndex.toNat + 0) % bufsz.toNat :=
        slot_ne hroom (by omega) (by omega)
      rw [← hstep, ← hnext, he, Nat.add_zero, Nat.mod_eq_of_lt hget] at hslot
      exact hslot rfl
    have hlen' : (SerialRxFifo.mk
      (Function.update f.buffer f.putIndex.toNat ch) p f.getIndex f.isFull).rxLength bufsz =
        f.rxLength bufsz + 1 := by
      refine rxLength_unique ?_ hroom ?_
      · exact hget
      · exact hnext.trans hstep
    rw [if_neg hne, if_pos hroom]
    refine ⟨⟨htwo, ?_, hget, fun _ => ?_⟩, ?_⟩
    · exact hnext ▸ succ_lt (by omega)
    · rw [hlen']
      exact Nat.succ_ne_zero _
    · rw [SerialRxFifo.bytes, hlen']
      exact hpush
  · -- the new put index meets the get index, which gives way
    have hfull : f.rxLength bufsz + 1 = bufsz.toNat := by omega
    have heq : p = f.getIndex := by
      apply BitVec.eq_of_toNat_eq
      rw [hnext, hstep, hfull, Nat.add_mod_right, Nat.mod_eq_of_lt hget]
    have hgnext := wrap_toNat hget
    rw [if_pos heq, if_neg hroom]
    generalize hg : (if f.getIndex + 1 ≥ bufsz then 0 else f.getIndex + 1) = g at hgnext
    have hglt : g.toNat < bufsz.toNat := hgnext ▸ succ_lt (by omega)
    have hlen' :
      (SerialRxFifo.mk (Function.update f.buffer f.putIndex.toNat ch) p g true).rxLength bufsz =
        f.rxLength bufsz := by
      refine rxLength_unique hglt hlen ?_
      dsimp only
      rw [heq, hgnext, succ_eq hget, Nat.mod_add_mod, Nat.add_assoc, Nat.add_comm 1,
        hfull, Nat.add_mod_right, Nat.mod_eq_of_lt hget]
    refine ⟨⟨htwo, ?_, hglt, fun _ => ?_⟩, ?_⟩
    · exact hnext ▸ succ_lt (by omega)
    · rw [hlen']
      omega
    · rw [SerialRxFifo.bytes, hlen', ← hpush, items_pop _ _ hget, List.tail_cons, ← hgnext]

theorem RxOk.get_bytes {bufsz : BitVec 16} {f : SerialRxFifo} (h : RxOk bufsz f) :
    (f.bytes bufsz = [] ∧ f.get bufsz = none) ∨
      ∃ ch f', f.get bufsz = some (ch, f') ∧ RxOk bufsz f' ∧
      f.bytes bufsz = ch :: f'.bytes bufsz := by
  obtain ⟨hlen, hput⟩ := h.length
  have hget := h.get
  have hempty : f.getIndex = f.putIndex ↔ f.rxLength bufsz = 0 := by
    constructor
    · intro he
      refine rxLength_unique hget (by omega) ?_
      rw [← he, Nat.add_zero, Nat.mod_eq_of_lt hget]
    · intro hz
      apply BitVec.eq_of_toNat_eq
      rw [hput, hz, Nat.add_zero, Nat.mod_eq_of_lt hget]
  by_cases hz : f.rxLength bufsz = 0
  · left
    have hnotfull : f.isFull = false := Bool.eq_false_of_not_eq_true fun hf => h.full hf hz
    rw [SerialRxFifo.get, if_pos ⟨hempty.mpr hz, hnotfull⟩, SerialRxFifo.bytes, hz]
    exact ⟨rfl, rfl⟩
  · right
    obtain ⟨n, hn⟩ : ∃ n, f.rxLength bufsz = n + 1 := ⟨f.rxLength bufsz - 1, by omega⟩
    have hgnext := wrap_toNat hget
    refine ⟨_, _, by rw [SerialRxFifo.get, if_neg fun he => hz (hempty.mp he.1)], ?_⟩
    generalize hg : (if f.getIndex + 1 ≥ bufsz then 0 else f.getIndex + 1) = g at hgnext
    have hglt : g.toNat < bufsz.toNat := hgnext ▸ succ_lt (by omega)
    have hlen' : (SerialRxFifo.mk f.buffer f.putIndex g false).rxLength bufsz = n := by
      refine rxLength_unique hglt (by omega) ?_
      dsimp only
      rw [hput, hgnext, succ_eq hget, Nat.mod_add_mod, hn]
      congr 1
      omega
    refine ⟨⟨h.two, h.put, hglt, fun hf => (by cases hf)⟩, ?_⟩
    rw [SerialRxFifo.bytes, SerialRxFifo.bytes, hlen', hn, items_pop _ _ hget, ← hgnext]

theorem RxOk.fold {bufsz : BitVec 16} {f : SerialRxFifo} (h : RxOk bufsz f) (chs : List Byte) :
    RxOk bufsz (chs.foldl (SerialRxFifo.put bufsz) f) ∧
      ∃ lost, f.bytes bufsz ++ chs = lost ++ (chs.foldl (SerialRxFifo.put bufsz) f).bytes bufsz ∧
      ((f.bytes bufsz).length + chs.length < bufsz.toNat → lost = []) := by
  induction chs generalizing f with
  | nil => exact ⟨h, [], by rw [List.append_nil]; rfl, fun _ => rfl⟩
  | cons ch chs ih =>
    obtain ⟨hok, hbytes⟩ := h.put_bytes ch
    obtain ⟨hfold, lost, heq, hnone⟩ := ih hok
    have hlength : (f.bytes bufsz).length = f.rxLength bufsz := items_length _ _ _ _
    refine ⟨hfold, ?_⟩
    rw [List.foldl_cons]
    by_cases hroom : f.rxLength bufsz + 1 < bufsz.toNat
    · rw [if_pos hroom] at hbytes
      refine ⟨lost, ?_, fun hfit => hnone ?_⟩
      · rw [← heq, hbytes, List.append_assoc]
        rfl
      · rw [hbytes, List.length_append, List.length_singleton]
        rw [List.length_cons] at hfit
        omega
    · rw [if_neg hroom] at hbytes
      obtain ⟨old, rest, hold⟩ : ∃ old rest, f.bytes bufsz ++ [ch] = old :: rest :=
        List.exists_cons_of_ne_nil (List.append_ne_nil_of_right_ne_nil _ (List.cons_ne_nil ch []))
      rw [hold, List.tail_cons] at hbytes
      refine ⟨old :: lost, ?_, fun hfit => ?_⟩
      · rw [List.cons_append, ← heq, hbytes, ← List.cons_append, ← hold, List.append_assoc]
        rfl
      · rw [List.length_cons, hlength] at hfit
        omega

/-- The handler does not throw a byte away to clear a timeout interrupt. -/
def RaceFree (w : RxPath) : RxPathAction → Prop
  | .isr env => ¬TimeoutRace w.hw env
  | .arrive _ | .read => True

def Fits (bufsz : BitVec 16) (w : RxPath) : RxPathAction → Prop
  | .isr env => (w.rx.bytes bufsz).length +
      (rtHwUartIsr bufsz (isrEntry w.rx w.hw) env).handed.length < bufsz.toNat
  | .arrive _ | .read => True

structure RxPathInv (bufsz : BitVec 16) (w : RxPath) : Prop where
  ok : RxOk bufsz w.rx
  newest : ∃ old, w.handed = old ++ w.rx.bytes bufsz
  order : (w.taken ++ w.rx.bytes bufsz ++ w.hw).Sublist w.line

def Lossless (bufsz : BitVec 16) (w : RxPath) : Prop := w.taken ++ w.rx.bytes bufsz ++ w.hw = w.line

/-- One step: `new` bytes go from the FIFO to the buffer code, `lost` ones give way in the buffer,
`more` come in from the line and `got` are taken by a reader. -/
theorem rxPathStep_cases {bufsz : BitVec 16} {w w' : RxPath} {a : RxPathAction}
    (h : RxOk bufsz w.rx) (hrace : RaceFree w a) (hs : rxPathStep bufsz w a = some w') :
    RxOk bufsz w'.rx ∧ ∃ new lost more got, w'.handed = w.handed ++ new ∧ w'.line = w.line ++ more ∧
      w'.taken = w.taken ++ got ∧ w.hw ++ more = new ++ w'.hw ∧
      w.rx.bytes bufsz ++ new = lost ++ (got ++ w'.rx.bytes bufsz) ∧
      (Fits bufsz w a → lost = []) := by
  cases a with
  | arrive bytes =>
    obtain rfl := Option.some.inj hs
    exact ⟨h, [], [], bytes, [], (List.append_nil _).symm, rfl, (List.append_nil _).symm, rfl,
      List.append_nil _, fun _ => rfl⟩
  | isr env =>
    rw [rxPathStep.eq_2] at hs
    split at hs
    · obtain rfl := Option.some.inj hs
      have hc := race_free_conserved hrace bufsz w.rx
      obtain ⟨hok, lost, heq, hfit⟩ := h.fold (rtHwUartIsr bufsz (isrEntry w.rx w.hw) env).handed
      rw [← hc.buffer] at hok heq
      exact ⟨hok, _, lost, arrived env, [], rfl, rfl, (List.append_nil _).symm,
        hc.order.symm, heq, hfit⟩
    · cases hs
  | read =>
    obtain ⟨r, hr, rfl⟩ := Option.map_eq_some_iff.mp hs
    rcases h.get_bytes with ⟨-, hnone⟩ | ⟨ch, f', hget, hok, hbytes⟩
    · cases hnone.symm.trans hr
    · obtain rfl : r = (ch, f') := Option.some.inj (hr.symm.trans hget)
      refine ⟨hok, [], [], [], [ch], (List.append_nil _).symm, (List.append_nil _).symm, rfl,
        List.append_nil _, ?_, fun _ => rfl⟩
      rw [List.append_nil, hbytes]
      rfl

theorem RxPathInv.step {bufsz : BitVec 16} (w : RxPath) (a : RxPathAction) (w' : RxPath)
    (h : RxPathInv bufsz w)
    (hrace : RaceFree w a) (hs : rxPathStep bufsz w a = some w') : RxPathInv bufsz w' := by
  obtain ⟨hok, new, lost, more, got, hhanded, hline, htaken, hhw, hbytes, -⟩ :=
    rxPathStep_cases h.ok hrace hs
  obtain ⟨old, hold⟩ := h.newest
  refine ⟨hok, ⟨old ++ lost ++ got, ?_⟩, ?_⟩
  · calc w'.handed = old ++ (w.rx.bytes bufsz ++ new) := by rw [hhanded, hold, List.append_assoc]
      _ = old ++ lost ++ got ++ w'.rx.bytes bufsz := by rw [hbytes]; simp only [List.append_assoc]
  · have hall : w.taken ++ (lost ++ (got ++ w'.rx.bytes bufsz)) ++ w'.hw =
        w.taken ++ w.rx.bytes bufsz ++ w.hw ++ more := by
      rw [← hbytes, List.append_assoc _ w.hw, hhw]
      simp only [List.append_assoc]
    have hsub : (w'.taken ++ w'.rx.bytes bufsz ++ w'.hw).Sublist
        (w.taken ++ (lost ++ (got ++ w'.rx.bytes bufsz)) ++ w'.hw) := by
      rw [htaken, List.append_assoc w.taken]
      exact ((List.sublist_append_right lost _).append_left w.taken).append_right _
    rw [hline]
    exact hsub.trans (hall ▸ h.order.append_right more)

theorem Lossless.step {bufsz : BitVec 16} {w w' : RxPath} {a : RxPathAction} (h : RxOk bufsz w.rx)
    (hl : Lossless bufsz w)
    (hrace : RaceFree w a) (hfit : Fits bufsz w a) (hs : rxPathStep bufsz w a = some w') :
    Lossless bufsz w' := by
  obtain ⟨-, new, lost, more, got, -, hline, htaken, hhw, hbytes, hlost⟩ :=
    rxPathStep_cases h hrace hs
  rw [hlost hfit, List.nil_append] at hbytes
  rw [Lossless] at hl ⊢
  calc w'.taken ++ w'.rx.bytes bufsz ++ w'.hw = w.taken ++ (got ++ w'.rx.bytes bufsz) ++ w'.hw := by
        rw [htaken, List.append_assoc w.taken]
    _ = w.taken ++ w.rx.bytes bufsz ++ (w.hw ++ more) := by
        rw [← hbytes, hhw]
        simp only [List.append_assoc]
    _ = w'.line := by rw [← List.append_assoc, hl, hline]

theorem rxPathInit_inv {bufsz : BitVec 16} (h : 2 ≤ bufsz.toNat) (buffer : Nat → Byte) :
    RxPathInv bufsz (rxPathInit buffer) ∧ Lossless bufsz (rxPathInit buffer) := by
  have hbytes : (rxPathInit buffer).rx.bytes bufsz = [] := rfl
  have hzero : (0#16).toNat < bufsz.toNat := Nat.lt_of_lt_of_le (by decide) h
  refine ⟨⟨⟨h, hzero, hzero, fun hf => (by cases hf)⟩, ⟨[], by rw [hbytes]; rfl⟩, ?_⟩, ?_⟩
  · rw [hbytes]
    exact List.Sublist.refl _
  · rw [Lossless, hbytes]
    rfl

/-- The receive path from the line to the readers, in every order of arrivals, interrupts and reads
in which no interrupt runs into the timeout race: what the readers have got, what is in the buffer
and what is in the FIFO are bytes of the line, in order and none twice; the buffer has the newest of
the bytes handed to it, up to `bufsz - 1`, and RX_IND reports their number; a read finds nothing
only if the buffer is empty; and as long as each interrupt finds room nothing is missing at all. -/
theorem uart_receive_stream {bufsz : BitVec 16} (h : 2 ≤ bufsz.toNat) (buffer : Nat → Byte)
    {as : List RxPathAction}
    {w : RxPath} (hr : runs (rxPathStep bufsz) (rxPathInit buffer) as = some w)
    (hrace : Along (rxPathStep bufsz) (fun s a _ => RaceFree s a) (rxPathInit buffer) as) :
    (w.taken ++ w.rx.bytes bufsz ++ w.hw).Sublist w.line ∧
      (∃ old, w.handed = old ++ w.rx.bytes bufsz) ∧ (w.rx.bytes bufsz).length < bufsz.toNat ∧
      w.rx.rxLength bufsz = (w.rx.bytes bufsz).length ∧
      (w.rx.get bufsz = none ↔ w.rx.bytes bufsz = []) ∧
      (Along (rxPathStep bufsz) (fun s a _ => Fits bufsz s a) (rxPathInit buffer) as →
        w.taken ++ w.rx.bytes bufsz ++ w.hw = w.line) := by
  obtain ⟨hinit, hlossless⟩ := rxPathInit_inv h buffer
  have hinv := runs_invariant_along RxPathInv.step hinit hrace hr
  have hlen : (w.rx.bytes bufsz).length = w.rx.rxLength bufsz := items_length _ _ _ _
  refine ⟨hinv.order, hinv.newest, hlen ▸ hinv.ok.length.1, hlen.symm, ?_, fun hfit => ?_⟩
  · rcases hinv.ok.get_bytes with ⟨hnil, hnone⟩ | ⟨ch, f', hsome, -, hcons⟩
    · exact ⟨fun _ => hnil, fun _ => hnone⟩
    · rw [hsome, hcons]
      exact ⟨fun he => (by cases he), fun he => (by cases he)⟩
  · have hstep : ∀ s a t, RxPathInv bufsz s ∧ Lossless bufsz s → RaceFree s a ∧ Fits bufsz s a →
        rxPathStep bufsz s a = some t → RxPathInv bufsz t ∧ Lossless bufsz t :=
      fun s a t hI hok hs => ⟨hI.1.step s a t hok.1 hs, hI.2.step hI.1.ok hok.1 hok.2 hs⟩
    exact (runs_invariant_along hstep ⟨hinit, hlossless⟩ (along_and hrace hfit) hr).2

/-- Five bytes in one interrupt for a buffer of four: the first two give way. -/
theorem uart_receive_stream_overrun :
    ∃ w, runs (rxPathStep 4) (rxPathInit fun _ => 0)
        [.arrive [1, 2, 3, 4, 5], .isr (⟨[], 0xc4⟩ :: List.replicate 11 ⟨[], 0⟩), .read] = some w ∧
      w.taken = [3] ∧ w.rx.bytes 4 = [4, 5] ∧ (w.taken ++ w.rx.bytes 4 ++ w.hw).Sublist w.line := by
  obtain ⟨w, hw, htaken, hbytes⟩ : ∃ w, runs (rxPathStep 4) (rxPathInit fun _ => 0)
      [.arrive [1, 2, 3, 4, 5], .isr (⟨[], 0xc4⟩ :: List.replicate 11 ⟨[], 0⟩), .read] = some w ∧
      w.taken = [3] ∧ w.rx.bytes 4 = [4, 5] := ⟨_, rfl, rfl, rfl⟩
  have hrace : Along (rxPathStep 4) (fun s a _ => RaceFree s a) (rxPathInit fun _ => 0)
      [.arrive [1, 2, 3, 4, 5], .isr (⟨[], 0xc4⟩ :: List.replicate 11 ⟨[], 0⟩), .read] :=
    ⟨trivial, fun h => absurd h.1 (by decide), trivial, trivial⟩
  exact ⟨w, hw, htaken, hbytes, (uart_receive_stream (by decide) (fun _ => 0) hw hrace).1⟩

end Rk3576.Uart
