import Mathlib.Logic.Function.Basic
import Rk3576.Gmac.Layout

/-! `rt_hw_uart_isr` down to its register accesses, with bytes coming in from the line between
any two of them. -/
namespace Rk3576.Uart
open Rk3576.Gmac (Byte)

def uartLsrDr : BitVec 32 := 0x01
def uartLsrBi : BitVec 32 := 0x10
def uartIirNoInt : BitVec 32 := 0x01
def uartIirBusy : BitVec 32 := 0x07
def uartIirRxTimeout : BitVec 32 := 0x0c

structure SerialRxFifo where
  buffer : Nat → Byte
  putIndex : BitVec 16
  getIndex : BitVec 16
  isFull : Bool

/-- The body of the RX_IND loop: one byte into the buffer, over the oldest one if need be. -/
def SerialRxFifo.put (bufsz : BitVec 16) (f : SerialRxFifo) (ch : Byte) : SerialRxFifo :=
  let buffer := Function.update f.buffer f.putIndex.toNat ch
  let putIndex := if f.putIndex + 1 ≥ bufsz then 0 else f.putIndex + 1
  if putIndex = f.getIndex then
    { buffer, putIndex, getIndex := if f.getIndex + 1 ≥ bufsz then 0 else f.getIndex + 1,
      isFull := true }
  else { f with buffer, putIndex }

/-- What the handler meets at one register access: the bytes that arrive before it, and the
register's bits, as far as the receive FIFO does not determine them. -/
structure UartAccess where
  arrivals : List Byte
  bits : BitVec 32

/-- The access that comes next, with the IIR read at the start. -/
inductive IsrPc where
  | iir
  | timeoutLsr (iir : BitVec 32)
  | timeoutRx (iir : BitVec 32)
  | getcLsr (iir : BitVec 32)
  | getcRx (iir : BitVec 32)
  | usr
  | done
  deriving DecidableEq

/-- `handed` are the bytes given to the buffer code so far, `dropped` those that another read
took from the FIFO. -/
structure IsrState where
  pc : IsrPc
  fifo : List Byte
  rx : SerialRxFifo
  handed : List Byte
  dropped : List Byte

def isrEntry (rx : SerialRxFifo) (fifo : List Byte) : IsrState := ⟨.iir, fifo, rx, [], []⟩

/-- LSR.DR is set exactly while the FIFO holds a byte. -/
def lsrValue (fifo : List Byte) (bits : BitVec 32) : BitVec 32 :=
  (bits &&& ~~~uartLsrDr) ||| (if fifo = [] then 0 else uartLsrDr)

def rxValue (fifo : List Byte) (bits : BitVec 32) : BitVec 32 :=
  match fifo with
  | [] => bits
  | c :: _ => (bits &&& ~~~0xff) ||| c.setWidth 32

def busyDetect (iir : BitVec 32) : IsrPc :=
  if iir &&& uartIirBusy = uartIirBusy then .usr else .done

def rxInd (iir : BitVec 32) : IsrPc :=
  if iir &&& uartIirNoInt = 0 then .getcLsr iir else busyDetect iir

/-- One access and the code up to the next one. `dw8250_uart_getc` returns -1 without DR, which
ends the loop, and never on a byte. -/
def isrAccess (bufsz : BitVec 16) (s : IsrState) (bits : BitVec 32) : IsrState :=
  match s.pc with
  | .iir =>
    { s with pc := if bits &&& 0x3f = uartIirRxTimeout then .timeoutLsr bits else rxInd bits }
  | .timeoutLsr iir =>
    { s with
      pc := if lsrValue s.fifo bits &&& (uartLsrDr ||| uartLsrBi) = 0 then .timeoutRx iir
        else rxInd iir }
  | .timeoutRx iir =>
    { s with pc := rxInd iir, fifo := s.fifo.tail, dropped := s.dropped ++ s.fifo.take 1 }
  | .getcLsr iir =>
    { s with pc := if lsrValue s.fifo bits &&& 0x1 ≠ 0 then .getcRx iir else busyDetect iir }
  | .getcRx iir =>
    let ch := (rxValue s.fifo bits &&& 0xff).setWidth 8
    { s with
      pc := .getcLsr iir, fifo := s.fifo.tail, rx := s.rx.put bufsz ch, handed := s.handed ++ [ch] }
  | .usr => { s with pc := .done }
  | .done => s

/-- Bytes that arrive after the return just stay in the FIFO. -/
def isrStep (bufsz : BitVec 16) (s : IsrState) (a : UartAccess) : IsrState :=
  isrAccess bufsz { s with fifo := s.fifo ++ a.arrivals } a.bits

def rtHwUartIsr (bufsz : BitVec 16) (s : IsrState) (env : List UartAccess) : IsrState :=
  env.foldl (isrStep bufsz) s

def arrived (env : List UartAccess) : List Byte := env.flatMap (·.arrivals)

/-- Every byte that was or came into the FIFO is, in this order, with the buffer code or still
in the FIFO; no other read took one; and the buffer is what the buffer code makes of them. -/
structure IsrLossless (bufsz : BitVec 16) (rx : SerialRxFifo) (fifo : List Byte)
    (env : List UartAccess) (t : IsrState) : Prop where
  order : t.handed ++ t.fifo = fifo ++ arrived env
  dropped : t.dropped = []
  buffer : t.rx = t.handed.foldl (SerialRxFifo.put bufsz) rx

/-- A timeout interrupt with nothing in the FIFO when LSR is read, no break, and a byte that
arrives between this read and the read meant to clear the interrupt. -/
def TimeoutRace (fifo : List Byte) : List UartAccess → Prop
  | a₀ :: a₁ :: a₂ :: _ =>
    a₀.bits &&& 0x3f = uartIirRxTimeout ∧ fifo ++ a₀.arrivals ++ a₁.arrivals = [] ∧
    a₁.bits &&& uartLsrBi = 0 ∧
      a₂.arrivals ≠ []
  | _ => False

theorem lsr_dr (fifo : List Byte) (bits : BitVec 32) :
    lsrValue fifo bits &&& 0x1 ≠ 0 ↔ fifo ≠ [] := by
  have hclear : ∀ b : BitVec 32, (bits &&& ~~~uartLsrDr ||| b) &&& 0x1 = b &&& 0x1 :=
    fun b => Gmac.and_clear (by decide)
  rw [lsrValue, hclear]
  by_cases h : fifo = []
  · rw [if_pos h]
    exact iff_of_false (by decide) (not_not.mpr h)
  · rw [if_neg h]
    exact iff_of_true (by decide) h

theorem lsr_idle (fifo : List Byte) (bits : BitVec 32) :
    lsrValue fifo bits &&& (uartLsrDr ||| uartLsrBi) = 0 ↔ fifo = [] ∧ bits &&& uartLsrBi = 0 := by
  have hbi : lsrValue fifo bits &&& uartLsrBi = bits &&& uartLsrBi := by
    rw [lsrValue]
    split
    · exact Gmac.and_keep (by decide) (by decide)
    · exact Gmac.and_keep (by decide) (by decide)
  rw [BitVec.and_or_distrib_left, hbi]
  refine BitVec.or_eq_zero_iff.trans ?_
  exact and_congr_left fun _ => not_iff_not.mp (lsr_dr fifo bits)

theorem rx_head (c : Byte) (fifo : List Byte) (bits : BitVec 32) :
    (rxValue (c :: fifo) bits &&& 0xff).setWidth 8 = c := by
  have hlow : (bits &&& ~~~0xff ||| c.setWidth 32) &&& 0xff = c.setWidth 32 &&& 0xff :=
    Gmac.and_clear (by decide)
  have hc : c.toNat < 256 := c.isLt
  have hbyte : (c.setWidth 32 &&& 0xff).toNat = c.toNat % 256 := by
    rw [BitVec.toNat_and, BitVec.toNat_setWidth, Nat.mod_eq_of_lt (by omega)]
    exact Nat.and_two_pow_sub_one_eq_mod _ 8
  rw [rxValue, hlow]
  apply BitVec.eq_of_toNat_eq
  rw [BitVec.toNat_setWidth, hbyte]
  omega

/-- Every byte so far is handed or in the FIFO, and a byte is there for the loop to take. -/
structure Conserved (bufsz : BitVec 16) (rx : SerialRxFifo) (all : List Byte)
    (s : IsrState) : Prop where
  order : s.handed ++ s.fifo = all
  dropped : s.dropped = []
  buffer : s.rx = s.handed.foldl (SerialRxFifo.put bufsz) rx
  ready : ∀ iir, s.pc = .getcRx iir → s.fifo ≠ []

theorem busyDetect_ne (iir j : BitVec 32) : busyDetect iir ≠ .getcRx j := by
  rw [busyDetect]
  split <;> exact IsrPc.noConfusion

theorem rxInd_ne (iir j : BitVec 32) : rxInd iir ≠ .getcRx j := by
  rw [rxInd]
  split
  · exact IsrPc.noConfusion
  · exact busyDetect_ne iir j

/-- The loop reads UART_RX only right after LSR showed a byte. -/
theorem access_ready (bufsz : BitVec 16) (s : IsrState) (bits iir : BitVec 32)
    (h : (isrAccess bufsz s bits).pc = .getcRx iir) : (isrAccess bufsz s bits).fifo ≠ [] := by
  revert h
  rw [isrAccess]
  cases hpc : s.pc with
  | iir | timeoutLsr =>
    dsimp only
    split
    · exact IsrPc.noConfusion
    · exact fun hj => absurd hj (rxInd_ne _ _)
  | timeoutRx => exact fun hj => absurd hj (rxInd_ne _ _)
  | getcLsr =>
    dsimp only
    split
    · next hdr => exact fun _ => (lsr_dr s.fifo bits).mp hdr
    · exact fun hj => absurd hj (busyDetect_ne _ _)
  | getcRx | usr => exact IsrPc.noConfusion
  | done =>
    rw [hpc]
    exact IsrPc.noConfusion

section Access
variable {bufsz : BitVec 16} {rx : SerialRxFifo} {all : List Byte} {s : IsrState}

theorem Conserved.arrive (h : Conserved bufsz rx all s) (bytes : List Byte) :
    Conserved bufsz rx (all ++ bytes) { s with fifo := s.fifo ++ bytes } where
  order := by rw [← List.append_assoc, h.order]
  dropped := h.dropped
  buffer := h.buffer
  ready iir hpc hnil := h.ready iir hpc (List.append_eq_nil_iff.mp hnil).1

theorem Conserved.access (h : Conserved bufsz rx all s) (bits : BitVec 32)
    (hrx : ∀ iir, s.pc = .timeoutRx iir → s.fifo = []) :
    Conserved bufsz rx all (isrAccess bufsz s bits) := by
  have hready := access_ready bufsz s bits
  revert hready
  rw [isrAccess]
  cases hpc : s.pc with
  | iir | timeoutLsr | getcLsr | usr | done =>
    exact fun hready => ⟨h.order, h.dropped, h.buffer, hready⟩
  | timeoutRx iir =>
    intro hready
    have hnil := hrx iir hpc
    refine ⟨?_, ?_, h.buffer, hready⟩
    · rw [hnil, List.tail_nil, ← hnil, h.order]
    · rw [hnil, List.take_nil, List.append_nil, h.dropped]
  | getcRx iir =>
    intro hready
    obtain ⟨c, fifo, hf⟩ := List.exists_cons_of_ne_nil (h.ready iir hpc)
    refine ⟨?_, h.dropped, ?_, hready⟩
    · simp only [hf, rx_head, List.tail_cons, List.append_assoc, List.singleton_append]
      rw [← hf, h.order]
    · simp only [hf, rx_head, List.foldl_append, List.foldl_cons, List.foldl_nil]
      rw [h.buffer]

theorem Conserved.step (h : Conserved bufsz rx all s) (a : UartAccess)
    (hrx : ∀ iir, s.pc = .timeoutRx iir → s.fifo ++ a.arrivals = []) :
    Conserved bufsz rx (all ++ a.arrivals) (isrStep bufsz s a) :=
  (h.arrive a.arrivals).access a.bits hrx

def IsrPc.late : IsrPc → Bool
  | .iir | .timeoutLsr _ | .timeoutRx _ => false
  | _ => true

theorem busyDetect_late (iir : BitVec 32) : (busyDetect iir).late = true := by
  rw [busyDetect]
  split <;> rfl

theorem rxInd_late (iir : BitVec 32) : (rxInd iir).late = true := by
  rw [rxInd]
  split
  · rfl
  · exact busyDetect_late iir

theorem access_late (h : s.pc.late = true) (bits : BitVec 32) :
    (isrAccess bufsz s bits).pc.late = true := by
  rw [isrAccess]
  cases hpc : s.pc with
  | iir | timeoutLsr | timeoutRx =>
    rw [hpc] at h
    cases h
  | getcLsr iir =>
    dsimp only
    split
    · rfl
    · exact busyDetect_late iir
  | getcRx iir => rfl
  | usr => rfl
  | done => exact h

theorem access_dropped (h : s.dropped ≠ []) (bits : BitVec 32) :
    (isrAccess bufsz s bits).dropped ≠ [] := by
  rw [isrAccess]
  cases s.pc with
  | timeoutRx iir => exact fun hn => h (List.append_eq_nil_iff.mp hn).1
  | _ => exact h

theorem run_dropped (h : s.dropped ≠ []) (env : List UartAccess) :
    (rtHwUartIsr bufsz s env).dropped ≠ [] := by
  induction env generalizing s with
  | nil => exact h
  | cons a env ih =>
    have hstep : (isrStep bufsz s a).dropped ≠ [] :=
      access_dropped (s := { s with fifo := s.fifo ++ a.arrivals }) h a.bits
    exact ih hstep

theorem conserved_nil (h : Conserved bufsz rx all s) :
    Conserved bufsz rx (all ++ arrived []) (rtHwUartIsr bufsz s []) := by
  rw [arrived, List.flatMap_nil, List.append_nil]
  exact h

theorem conserved_cons {a : UartAccess} {env : List UartAccess}
    (h : Conserved bufsz rx (all ++ a.arrivals ++ arrived env)
      (rtHwUartIsr bufsz (isrStep bufsz s a) env)) :
    Conserved bufsz rx (all ++ arrived (a :: env)) (rtHwUartIsr bufsz s (a :: env)) := by
  rw [List.append_assoc] at h
  exact h

theorem run_late (h : Conserved bufsz rx all s) (hl : s.pc.late = true) (env : List UartAccess) :
    Conserved bufsz rx (all ++ arrived env) (rtHwUartIsr bufsz s env) := by
  induction env generalizing s all with
  | nil => exact conserved_nil h
  | cons a env ih =>
    have hrx : ∀ iir, s.pc = .timeoutRx iir → s.fifo ++ a.arrivals = [] := by
      intro iir hpc
      rw [hpc] at hl
      cases hl
    have hlate : (isrStep bufsz s a).pc.late = true :=
      access_late (s := { s with fifo := s.fifo ++ a.arrivals }) hl a.bits
    exact conserved_cons (ih (h.step a hrx) hlate)

theorem run_timeoutRx (h : Conserved bufsz rx all s) {iir : BitVec 32} (hpc : s.pc = .timeoutRx iir)
    (env : List UartAccess) (hq : ∀ a rest, env = a :: rest → s.fifo ++ a.arrivals = []) :
    Conserved bufsz rx (all ++ arrived env) (rtHwUartIsr bufsz s env) := by
  cases env with
  | nil => exact conserved_nil h
  | cons a env =>
    have hlate : (isrStep bufsz s a).pc.late = true := by
      rw [isrStep, isrAccess, hpc]
      exact rxInd_late iir
    exact conserved_cons (run_late (h.step a fun _ _ => hq a env rfl) hlate env)

theorem run_timeoutLsr (h : Conserved bufsz rx all s) {iir : BitVec 32}
    (hpc : s.pc = .timeoutLsr iir)
    (env : List UartAccess) (hq : ∀ a b rest, env = a :: b :: rest → s.fifo ++ a.arrivals = [] →
      a.bits &&& uartLsrBi = 0 → b.arrivals = []) :
    Conserved bufsz rx (all ++ arrived env) (rtHwUartIsr bufsz s env) := by
  cases env with
  | nil => exact conserved_nil h
  | cons a env =>
    have hstep := h.step a fun j hj => by rw [hpc] at hj; cases hj
    have hnext : isrStep bufsz s a = { s with
        fifo := s.fifo ++ a.arrivals
        pc := if lsrValue (s.fifo ++ a.arrivals) a.bits &&& (uartLsrDr ||| uartLsrBi) = 0 then
          .timeoutRx iir
          else rxInd iir } := by
      rw [isrStep, isrAccess, hpc]
    apply conserved_cons
    by_cases hidle : lsrValue (s.fifo ++ a.arrivals) a.bits &&& (uartLsrDr ||| uartLsrBi) = 0
    · obtain ⟨hnil, hbi⟩ := (lsr_idle _ _).mp hidle
      rw [if_pos hidle] at hnext
      refine run_timeoutRx hstep (by rw [hnext]) env ?_
      intro b rest he
      rw [hnext, hq a b rest (by rw [he]) hnil hbi]
      exact List.append_eq_nil_iff.mpr ⟨hnil, rfl⟩
    · rw [if_neg hidle] at hnext
      refine run_late hstep ?_ env
      rw [hnext]
      exact rxInd_late iir

end Access

theorem isrEntry_conserved (bufsz : BitVec 16) (rx : SerialRxFifo) (fifo : List Byte) :
    Conserved bufsz rx fifo (isrEntry rx fifo) :=
  ⟨rfl, rfl, rfl, fun _ => IsrPc.noConfusion⟩

/-- In the window the read that should clear the interrupt takes the byte that came in. -/
theorem race_dropped {fifo : List Byte} {env : List UartAccess} (h : TimeoutRace fifo env)
    (bufsz : BitVec 16)
    (rx : SerialRxFifo) : (rtHwUartIsr bufsz (isrEntry rx fifo) env).dropped ≠ [] := by
  match env, h with
  | a₀ :: a₁ :: a₂ :: env, ⟨hiir, hnil, hbi, harr⟩ =>
    have hlsr :
        lsrValue (fifo ++ a₀.arrivals ++ a₁.arrivals) a₁.bits &&& (uartLsrDr ||| uartLsrBi) = 0 :=
      (lsr_idle _ _).mpr ⟨hnil, hbi⟩
    have h₁ : isrStep bufsz (isrEntry rx fifo) a₀ = ⟨.timeoutLsr a₀.bits, fifo ++ a₀.arrivals, rx,
        [], []⟩ := by
      simp only [isrStep, isrEntry, isrAccess, hiir, if_true]
    have h₂ : isrStep bufsz ⟨.timeoutLsr a₀.bits, fifo ++ a₀.arrivals, rx, [], []⟩ a₁ =
        ⟨.timeoutRx a₀.bits, fifo ++ a₀.arrivals ++ a₁.arrivals, rx, [], []⟩ := by
      simp only [isrStep, isrAccess, hlsr, if_true]
    obtain ⟨c, rest, hc⟩ := List.exists_cons_of_ne_nil harr
    have h₃ : (isrStep bufsz ⟨.timeoutRx a₀.bits, fifo ++ a₀.arrivals ++ a₁.arrivals, rx, [],
        []⟩ a₂).dropped = [c] := by
      simp only [isrStep, isrAccess, hnil, hc, List.nil_append, List.take_succ_cons, List.take_zero]
    rw [rtHwUartIsr, List.foldl_cons, List.foldl_cons, List.foldl_cons, h₁, h₂]
    refine run_dropped ?_ env
    rw [h₃]
    exact List.cons_ne_nil c []

theorem race_free_conserved {fifo : List Byte} {env : List UartAccess} (h : ¬TimeoutRace fifo env)
    (bufsz : BitVec 16)
    (rx : SerialRxFifo) :
    Conserved bufsz rx (fifo ++ arrived env) (rtHwUartIsr bufsz (isrEntry rx fifo) env) := by
  have h₀ := isrEntry_conserved bufsz rx fifo
  cases env with
  | nil => exact conserved_nil h₀
  | cons a env =>
    have hstep := h₀.step a fun _ => IsrPc.noConfusion
    apply conserved_cons
    by_cases hiir : a.bits &&& 0x3f = uartIirRxTimeout
    · have hnext : isrStep bufsz (isrEntry rx fifo) a =
        ⟨.timeoutLsr a.bits, fifo ++ a.arrivals, rx, [], []⟩ := by
        simp only [isrStep, isrEntry, isrAccess, hiir, if_true]
      refine run_timeoutLsr hstep (by rw [hnext]) env ?_
      intro b c rest he hnil hbi
      rw [hnext] at hnil
      by_contra hc
      exact h (by rw [he]; exact ⟨hiir, hnil, hbi, hc⟩)
    · have hnext :
        isrStep bufsz (isrEntry rx fifo) a = ⟨rxInd a.bits, fifo ++ a.arrivals, rx, [], []⟩ := by
        simp only [isrStep, isrEntry, isrAccess, hiir, if_false]
      refine run_late hstep ?_ env
      rw [hnext]
      exact rxInd_late a.bits

/-- The handler loses no byte, at any point of any run, exactly when nothing arrives in that
window. -/
theorem isr_lossless_iff (bufsz : BitVec 16) (rx : SerialRxFifo) (fifo : List Byte)
    (env : List UartAccess) :
    IsrLossless bufsz rx fifo env (rtHwUartIsr bufsz (isrEntry rx fifo) env) ↔
    ¬TimeoutRace fifo env := by
  constructor
  · intro h hrace
    exact race_dropped hrace bufsz rx h.dropped
  · intro h
    have hc := race_free_conserved h bufsz rx
    exact ⟨hc.order, hc.dropped, hc.buffer⟩

/-- A timeout interrupt on an empty FIFO: LSR shows neither data nor break, and 0x41 comes in
before the read of UART_RX. The byte reaches neither the buffer code nor a later read. -/
theorem isr_drops_late_byte :
    let rx : SerialRxFifo := ⟨fun _ => 0, 0, 0, false⟩
    let env : List UartAccess := [⟨[], 0xcc⟩, ⟨[], 0x60⟩, ⟨[0x41], 0⟩, ⟨[], 0x60⟩]
    let t := rtHwUartIsr 64 (isrEntry rx []) env
    t.pc = .done ∧ t.dropped = [0x41] ∧ t.handed = [] ∧ t.fifo = [] ∧
    ¬IsrLossless 64 rx [] env t := by
  have hrun : (rtHwUartIsr 64 (isrEntry ⟨fun _ => 0, 0, 0, false⟩ [])
      [⟨[], 0xcc⟩, ⟨[], 0x60⟩, ⟨[0x41], 0⟩, ⟨[], 0x60⟩]).dropped = [0x41] := by decide
  refine ⟨by decide, hrun, by decide, by decide, fun h => ?_⟩
  have hnil := h.dropped
  rw [hrun] at hnil
  cases hnil

def IsrPc.rank : IsrPc → Nat
  | .iir => 5
  | .timeoutLsr _ => 4
  | .timeoutRx _ => 3
  | .getcLsr _ => 2
  | .getcRx _ | .usr => 1
  | .done => 0

/-- An upper bound on the accesses still to come while nothing arrives: two for each byte. -/
def IsrState.remaining (s : IsrState) : Nat := 2 * s.fifo.length + s.pc.rank

theorem rank_busyDetect (iir : BitVec 32) : (busyDetect iir).rank ≤ 1 := by
  rw [busyDetect]
  split
  · exact Nat.le_refl _
  · exact Nat.zero_le _

theorem rank_rxInd (iir : BitVec 32) : (rxInd iir).rank ≤ 2 := by
  rw [rxInd]
  split
  · exact Nat.le_refl _
  · exact Nat.le_succ_of_le (rank_busyDetect iir)

theorem access_remaining (bufsz : BitVec 16) {s : IsrState}
    (hs : ∀ iir, s.pc = .getcRx iir → s.fifo ≠ [])
    (hd : s.pc ≠ .done) (bits : BitVec 32) : (isrAccess bufsz s bits).remaining < s.remaining := by
  rw [isrAccess, IsrState.remaining, IsrState.remaining]
  cases hpc : s.pc with
  | iir =>
    have hrank := rank_rxInd bits
    dsimp only
    split
    · exact Nat.lt_succ_self _
    · change _ < 2 * s.fifo.length + 5
      omega
  | timeoutLsr iir =>
    have hrank := rank_rxInd iir
    dsimp only
    split
    · exact Nat.lt_succ_self _
    · change _ < 2 * s.fifo.length + 4
      omega
  | timeoutRx iir =>
    have hrank := rank_rxInd iir
    have htail : s.fifo.tail.length ≤ s.fifo.length := List.length_tail ▸ Nat.sub_le _ 1
    change 2 * s.fifo.tail.length + (rxInd iir).rank < 2 * s.fifo.length + 3
    omega
  | getcLsr iir =>
    have hrank := rank_busyDetect iir
    dsimp only
    split
    · exact Nat.lt_succ_self _
    · change _ < 2 * s.fifo.length + 2
      omega
  | getcRx iir =>
    obtain ⟨c, fifo, hf⟩ := List.exists_cons_of_ne_nil (hs iir hpc)
    simp only [IsrPc.rank, hf, List.tail_cons, List.length_cons]
    omega
  | usr => exact Nat.lt_succ_self _
  | done => exact absurd hpc hd

theorem step_remaining (bufsz : BitVec 16) {s : IsrState}
    (hs : ∀ iir, s.pc = .getcRx iir → s.fifo ≠ [])
    (a : UartAccess) : (isrStep bufsz s a).remaining ≤ s.remaining + 2 * a.arrivals.length := by
  have harr : ({ s with fifo := s.fifo ++ a.arrivals } : IsrState).remaining =
      s.remaining + 2 * a.arrivals.length := by
    simp only [IsrState.remaining, List.length_append]
    omega
  rw [← harr, isrStep]
  by_cases hd : s.pc = .done
  · rw [isrAccess, hd]
  · refine Nat.le_of_lt
      (access_remaining (s := { s with fifo := s.fifo ++ a.arrivals }) bufsz ?_ hd a.bits)
    exact fun iir hpc hnil => hs iir hpc (List.append_eq_nil_iff.mp hnil).1

theorem run_remaining (bufsz : BitVec 16) (env : List UartAccess) {s : IsrState}
    (hs : ∀ iir, s.pc = .getcRx iir → s.fifo ≠ []) :
    (rtHwUartIsr bufsz s env).remaining ≤ s.remaining + 2 * (arrived env).length ∧
      ∀ iir, (rtHwUartIsr bufsz s env).pc = .getcRx iir → (rtHwUartIsr bufsz s env).fifo ≠ [] := by
  induction env generalizing s with
  | nil => exact ⟨Nat.le_add_right _ _, hs⟩
  | cons a env ih =>
    obtain ⟨hrem, hready⟩ := ih (access_ready bufsz { s with fifo := s.fifo ++ a.arrivals } a.bits)
    refine ⟨Nat.le_trans hrem ?_, hready⟩
    have hstep := step_remaining bufsz hs a
    have hlen : (arrived (a :: env)).length = a.arrivals.length + (arrived env).length :=
      List.length_append
    rw [hlen]
    change (isrStep bufsz s a).remaining + _ ≤ _
    omega

theorem run_quiet (bufsz : BitVec 16) (quiet : List UartAccess) {s : IsrState}
    (hs : ∀ iir, s.pc = .getcRx iir → s.fifo ≠ []) (hq : ∀ a ∈ quiet, a.arrivals = [])
    (hlen : s.pc = .done ∨ s.remaining ≤ quiet.length) :
    (rtHwUartIsr bufsz s quiet).pc = .done := by
  induction quiet generalizing s with
  | nil =>
    refine hlen.elim id fun h => ?_
    rw [IsrState.remaining] at h
    change s.pc = .done
    have hrank : s.pc.rank = 0 := by
      rw [List.length_nil] at h
      omega
    cases hpc : s.pc with
    | done => rfl
    | _ => rw [hpc] at hrank; cases hrank
  | cons a quiet ih =>
    have ha : a.arrivals = [] := hq a List.mem_cons_self
    have hself : ({ s with fifo := s.fifo ++ a.arrivals } : IsrState) = s := by
      rw [ha, List.append_nil]
    have hready := access_ready bufsz s a.bits
    rw [rtHwUartIsr, List.foldl_cons, isrStep, hself]
    refine ih hready (fun b hb => hq b (List.mem_cons_of_mem a hb)) ?_
    by_cases hd : s.pc = .done
    · left
      rw [isrAccess, hd]
      exact hd
    · right
      have hrem := access_remaining bufsz hs hd a.bits
      have hle := hlen.resolve_left hd
      rw [List.length_cons] at hle
      omega

/-- Once the line is quiet, the handler returns within a bounded number of accesses. -/
theorem isr_returns (bufsz : BitVec 16) (rx : SerialRxFifo) (fifo : List Byte)
    (env quiet : List UartAccess)
    (hq : ∀ a ∈ quiet, a.arrivals = [])
    (hlen : 2 * (fifo.length + (arrived env).length) + 5 ≤ quiet.length) :
    (rtHwUartIsr bufsz (isrEntry rx fifo) (env ++ quiet)).pc = .done := by
  obtain ⟨hrem, hready⟩ :=
    run_remaining (s := isrEntry rx fifo) bufsz env fun _ => IsrPc.noConfusion
  have hstart : (isrEntry rx fifo).remaining = 2 * fifo.length + 5 := rfl
  have hrun : rtHwUartIsr bufsz (isrEntry rx fifo) (env ++ quiet) =
      rtHwUartIsr bufsz (rtHwUartIsr bufsz (isrEntry rx fifo) env) quiet := List.foldl_append
  rw [hrun]
  refine run_quiet bufsz quiet hready hq (Or.inr ?_)
  omega

end Rk3576.Uart
