import Mathlib.Data.Nat.Count
import Rk3576.Lib.Hiword
import Rk3576.Lib.Poll
import Rk3576.Gmac.Link

/-! `rk3576_gmac_power_on`: the SDGMAC power domain and its bus, each polled until a deadline,
under a clock override that the PMU holds from the first write to the last. -/
namespace Rk3576.Gmac
open Rk3576.Poll

def pmuPwrGateSftcon0 : Nat := 0x0210
def pmuBusIdleReq : Nat := 0x0114
def pmuBusIdleAck : Nat := 0x0120
def pmuBusIdleSt : Nat := 0x0128
def pmuClkUngate : Nat := 0x0144
def pmuRepairStatus : Nat := 0x0570
def pmuSdgmacPwrBit : BitVec 32 := gmacBit 7
def pmuSdgmacIdleReqBit : BitVec 32 := gmacBit 1
def pmuSdgmacIdleStatusBit : BitVec 32 := gmacBit 17
def pmuSdgmacClkMask : BitVec 32 := gmacBit 1 ||| gmacBit 2

/-- The values of the successive reads of each status register, and of the successive calls of
`rt_tick_get`. -/
structure PmuHw where
  repair : Nat → BitVec 32
  ack : Nat → BitVec 32
  st : Nat → BitVec 32
  tick : Nat → BitVec 32

inductive PmuEvent where
  | read (offset : Nat) (value : BitVec 32)
  | write (offset : Nat) (value : BitVec 32)
  | tick (value : BitVec 32)
  deriving DecidableEq

/-- The control registers, the number of reads so far of each stream, and the history. -/
structure PmuState where
  reg : Nat → BitVec 16
  repairs : Nat
  acks : Nat
  sts : Nat
  ticks : Nat
  log : List PmuEvent

def pmuEntry (reg : Nat → BitVec 16) : PmuState := ⟨reg, 0, 0, 0, 0, []⟩

def pmuWrite (s : PmuState) (offset : Nat) (value : BitVec 32) : PmuState :=
  { s with reg := Hiword.write s.reg offset value, log := s.log ++ [.write offset value] }

def readRepairStatus (hw : PmuHw) (s : PmuState) : BitVec 32 × PmuState :=
  (hw.repair s.repairs,
    { s with
      repairs := s.repairs + 1, log := s.log ++ [.read pmuRepairStatus (hw.repair s.repairs)] })

def readBusIdleAck (hw : PmuHw) (s : PmuState) : BitVec 32 × PmuState :=
  (hw.ack s.acks,
    { s with acks := s.acks + 1, log := s.log ++ [.read pmuBusIdleAck (hw.ack s.acks)] })

def readBusIdleSt (hw : PmuHw) (s : PmuState) : BitVec 32 × PmuState :=
  (hw.st s.sts, { s with sts := s.sts + 1, log := s.log ++ [.read pmuBusIdleSt (hw.st s.sts)] })

def rtTickGet (hw : PmuHw) (s : PmuState) : BitVec 32 × PmuState :=
  (hw.tick s.ticks, { s with ticks := s.ticks + 1, log := s.log ++ [.tick (hw.tick s.ticks)] })

def unpowered (hw : PmuHw) (s : PmuState) : Bool × PmuState :=
  let r := readRepairStatus hw s
  (r.1 &&& pmuSdgmacPwrBit == 0, r.2)

/-- `((ACK & STATUS_BIT) != 0U) || ((ST & STATUS_BIT) != 0U)`; ST is not read while ACK is set. -/
def busIdle (hw : PmuHw) (s : PmuState) : Bool × PmuState :=
  let a := readBusIdleAck hw s
  if a.1 &&& pmuSdgmacIdleStatusBit != 0 then (true, a.2)
  else
    let b := readBusIdleSt hw a.2
    (b.1 &&& pmuSdgmacIdleStatusBit != 0, b.2)

/-- `timeout = rt_tick_get() + rt_tick_from_millisecond(100)` and the loop below it, with the
test of `tickReached`. `rt_thread_mdelay` shows only in the next reading of the tick. -/
def waitWhile (hw : PmuHw) (busy : PmuState → Bool × PmuState) (fuel : Nat) (s : PmuState) :
    Option (Bool × PmuState) :=
  let now := rtTickGet hw s
  poll busy (rtTickGet hw) (now.1 + rtTickFromMillisecond 100) fuel now.2

def powerUp (hw : PmuHw) (fuel : Nat) (s : PmuState) : Option (Bool × PmuState) :=
  let r := unpowered hw s
  if r.1 then
    waitWhile hw (unpowered hw) fuel
      (pmuWrite r.2 pmuPwrGateSftcon0 (gmacHiwordUpdate pmuSdgmacPwrBit 0))
  else some (true, r.2)

def busUp (hw : PmuHw) (fuel : Nat) (s : PmuState) : Option (Bool × PmuState) :=
  waitWhile hw (busIdle hw) fuel (pmuWrite s pmuBusIdleReq (gmacHiwordUpdate pmuSdgmacIdleReqBit 0))

/-- `none` while `fuel` rounds of a loop are not enough. -/
def rk3576GmacPowerOn (hw : PmuHw) (fuel : Nat) (s : PmuState) : Option (RtErr × PmuState) :=
  match powerUp hw fuel
    (pmuWrite s pmuClkUngate (gmacHiwordUpdate pmuSdgmacClkMask pmuSdgmacClkMask)) with
  | none => none
  | some (false, s) => some (.etimeout, s)
  | some (true, s) =>
    match busUp hw fuel s with
    | none => none
    | some (false, s) => some (.etimeout, s)
    | some (true, s) => some (.eok, pmuWrite s pmuClkUngate (gmacHiwordUpdate pmuSdgmacClkMask 0))

def pmuBits (reg : Nat → BitVec 16) (offset : Nat) (mask : BitVec 32) : BitVec 32 :=
  (reg offset).setWidth 32 &&& mask

def OverrideReleased (reg : Nat → BitVec 16) : Prop := pmuBits reg pmuClkUngate pmuSdgmacClkMask = 0

instance (reg : Nat → BitVec 16) : Decidable (OverrideReleased reg) :=
  inferInstanceAs (Decidable (pmuBits reg pmuClkUngate pmuSdgmacClkMask = 0))

def PmuEvent.isWrite : PmuEvent → Bool
  | .write _ _ => true
  | _ => false

/-- The power bit is seen set, then the idle request is withdrawn, and after this, with nothing
written between, ACK and ST are seen clear. -/
def SeenUp (log : List PmuEvent) : Prop :=
  ∃ before value between ack st,
    log = before ++ PmuEvent.read pmuRepairStatus value ::
      PmuEvent.write pmuBusIdleReq (gmacHiwordUpdate pmuSdgmacIdleReqBit 0) :: between ++
      [PmuEvent.read pmuBusIdleAck ack, .read pmuBusIdleSt st,
        .write pmuClkUngate (gmacHiwordUpdate pmuSdgmacClkMask 0)] ∧
    value &&& pmuSdgmacPwrBit ≠ 0 ∧ (∀ e ∈ between, e.isWrite = false) ∧
    ack &&& pmuSdgmacIdleStatusBit = 0 ∧ st &&& pmuSdgmacIdleStatusBit = 0

def PmuHw.powered (hw : PmuHw) (i : Nat) : Bool := hw.repair i &&& pmuSdgmacPwrBit != 0

def PmuHw.ackClear (hw : PmuHw) (j : Nat) : Bool := hw.ack j &&& pmuSdgmacIdleStatusBit == 0

/-- Poll `j` of the bus finds both bits clear. ST has been read once for each ACK seen clear. -/
def PmuHw.awake (hw : PmuHw) (j : Nat) : Bool :=
  hw.ackClear j &&
    hw.st (Nat.count (fun i => hw.ackClear i = true) j) &&& pmuSdgmacIdleStatusBit == 0

def PmuHw.deadline (hw : PmuHw) (k : Nat) : BitVec 32 := hw.tick k + rtTickFromMillisecond 100

/-- The first deadline is read while the power bit has never been seen set. -/
def PmuHw.PowerLate (hw : PmuHw) : Prop :=
  ∃ n, (∀ i ≤ n + 1, hw.powered i = false) ∧ tickReached (hw.tick (n + 1)) (hw.deadline 0) = true

/-- The second deadline is read while the idle bits have never been seen both clear; `i` tick
readings came before it was set. -/
def PmuHw.BusLate (hw : PmuHw) (i : Nat) : Prop :=
  ∃ n, (∀ j ≤ n, hw.awake j = false) ∧ tickReached (hw.tick (i + 1 + n)) (hw.deadline i) = true

structure PmuHw.FirstPowered (hw : PmuHw) (i : Nat) : Prop where
  before : ∀ k < i, hw.powered k = false
  here : hw.powered i = true

def PmuHw.TimesOut (hw : PmuHw) : Prop := hw.PowerLate ∨ ∃ i, hw.FirstPowered i ∧ hw.BusLate i

structure Watches (s t : PmuState) : Prop where
  reg : t.reg = s.reg
  log : ∃ l, t.log = s.log ++ l ∧ ∀ e ∈ l, e.isWrite = false

theorem Watches.refl (s : PmuState) : Watches s s :=
  ⟨rfl, [], (List.append_nil _).symm, fun _ he => absurd he List.not_mem_nil⟩

theorem Watches.trans {s t u : PmuState} (h : Watches s t) (h' : Watches t u) : Watches s u := by
  obtain ⟨l, hl, hq⟩ := h.log
  obtain ⟨l', hl', hq'⟩ := h'.log
  refine ⟨h'.reg.trans h.reg, l ++ l', by rw [hl', hl, List.append_assoc], fun e he => ?_⟩
  exact (List.mem_append.mp he).elim (hq e) (hq' e)

theorem watches_one {s t : PmuState} (hreg : t.reg = s.reg) {e : PmuEvent}
    (hlog : t.log = s.log ++ [e]) (he : e.isWrite = false) : Watches s t :=
  ⟨hreg, [e], hlog, fun _ hd => (List.mem_singleton.mp hd) ▸ he⟩

theorem tick_watches (hw : PmuHw) (s : PmuState) : Watches s (rtTickGet hw s).2 :=
  watches_one rfl rfl rfl

theorem unpowered_watches (hw : PmuHw) (s : PmuState) : Watches s (unpowered hw s).2 :=
  watches_one rfl rfl rfl

theorem busIdle_watches (hw : PmuHw) (s : PmuState) : Watches s (busIdle hw s).2 := by
  have hack : Watches s (readBusIdleAck hw s).2 := watches_one rfl rfl rfl
  have hst : Watches (readBusIdleAck hw s).2 (readBusIdleSt hw (readBusIdleAck hw s).2).2 :=
    watches_one rfl rfl rfl
  rw [busIdle]
  dsimp only
  split
  · exact hack
  · exact hack.trans hst

abbrev powerRound (hw : PmuHw) : PmuState → PmuState := round (unpowered hw) (rtTickGet hw)
abbrev busRound (hw : PmuHw) : PmuState → PmuState := round (busIdle hw) (rtTickGet hw)

theorem powerRound_iterate (hw : PmuHw) (s : PmuState) (j : Nat) :
    ((powerRound hw)^[j] s).repairs = s.repairs + j ∧ ((powerRound hw)^[j] s).ticks = s.ticks + j ∧
      ((powerRound hw)^[j] s).acks = s.acks ∧ ((powerRound hw)^[j] s).sts = s.sts ∧
      Watches s ((powerRound hw)^[j] s) := by
  induction j with
  | zero => exact ⟨rfl, rfl, rfl, rfl, Watches.refl s⟩
  | succ j ih =>
    obtain ⟨hr, ht, ha, hst, hq⟩ := ih
    rw [Function.iterate_succ_apply']
    have hround := (unpowered_watches hw ((powerRound hw)^[j] s)).trans (tick_watches hw _)
    exact ⟨congrArg (· + 1) hr, congrArg (· + 1) ht, ha, hst, hq.trans hround⟩

theorem unpowered_fst (hw : PmuHw) (s : PmuState) : (unpowered hw s).1 = !hw.powered s.repairs := by
  rw [PmuHw.powered, bne, Bool.not_not]
  rfl

theorem power_sees (hw : PmuHw) (s : PmuState) :
    Sees (unpowered hw) (rtTickGet hw) s (fun j => !hw.powered (s.repairs + j)) fun j =>
      hw.tick (s.ticks + j) where
  cond j := by
    obtain ⟨hr, -⟩ := powerRound_iterate hw s j
    rw [← hr]
    exact unpowered_fst hw _
  time j := by
    obtain ⟨-, ht, -⟩ := powerRound_iterate hw s j
    exact congrArg hw.tick ht

theorem busIdle_fst (hw : PmuHw) (s : PmuState) :
    (busIdle hw s).1 = !(hw.ackClear s.acks && hw.st s.sts &&& pmuSdgmacIdleStatusBit == 0) := by
  rw [busIdle, PmuHw.ackClear]
  cases h : hw.ack s.acks &&& pmuSdgmacIdleStatusBit == 0 with
  | true => simp only [readBusIdleAck, readBusIdleSt, bne, h, Bool.not_true, Bool.true_and,
      Bool.false_eq_true, if_false]
  | false => simp only [readBusIdleAck, bne, h, Bool.not_false, Bool.false_and, if_true]

theorem busIdle_counts (hw : PmuHw) (s : PmuState) :
    (busIdle hw s).2.acks = s.acks + 1 ∧
    (busIdle hw s).2.sts = s.sts + (if hw.ackClear s.acks = true then 1 else 0) ∧
      (busIdle hw s).2.ticks = s.ticks := by
  rw [busIdle, PmuHw.ackClear]
  cases h : hw.ack s.acks &&& pmuSdgmacIdleStatusBit == 0 with
  | true => simp only [readBusIdleAck, readBusIdleSt, bne, h, Bool.not_true, Bool.false_eq_true,
      if_false, if_true, and_self]
  | false =>
    simp only [readBusIdleAck, bne, h, Bool.not_false, Bool.false_eq_true, if_false, if_true,
      Nat.add_zero, and_self]

theorem busIdle_log {hw : PmuHw} {s : PmuState} (h : (busIdle hw s).1 = false) :
    (busIdle hw s).2.log = s.log ++ [.read pmuBusIdleAck (hw.ack s.acks),
      .read pmuBusIdleSt (hw.st s.sts)] := by
  rw [busIdle_fst, Bool.not_eq_false', Bool.and_eq_true, PmuHw.ackClear] at h
  simp only [busIdle, readBusIdleAck, readBusIdleSt, bne, h.1, Bool.not_true,
    Bool.false_eq_true, if_false, List.append_assoc, List.singleton_append]

theorem busRound_iterate (hw : PmuHw) {s : PmuState} (ha : s.acks = 0) (hs : s.sts = 0) (j : Nat) :
    ((busRound hw)^[j] s).acks = j ∧
    ((busRound hw)^[j] s).sts = Nat.count (fun i => hw.ackClear i = true) j ∧
      ((busRound hw)^[j] s).ticks = s.ticks + j ∧ Watches s ((busRound hw)^[j] s) := by
  induction j with
  | zero => exact ⟨ha, hs.trans (Nat.count_zero _).symm, rfl, Watches.refl s⟩
  | succ j ih =>
    obtain ⟨hacks, hsts, hticks, hq⟩ := ih
    rw [Function.iterate_succ_apply']
    obtain ⟨hacks', hsts', hticks'⟩ := busIdle_counts hw ((busRound hw)^[j] s)
    rw [hacks] at hacks' hsts'
    rw [hsts] at hsts'
    rw [hticks] at hticks'
    have hround := (busIdle_watches hw ((busRound hw)^[j] s)).trans (tick_watches hw _)
    exact ⟨hacks', hsts'.trans (Nat.count_succ _ j).symm, congrArg (· + 1) hticks', hq.trans hround⟩

theorem bus_sees (hw : PmuHw) {s : PmuState} (ha : s.acks = 0) (hs : s.sts = 0) :
    Sees (busIdle hw) (rtTickGet hw) s (fun j => !hw.awake j) fun j => hw.tick (s.ticks + j) where
  cond j := by
    obtain ⟨hacks, hsts, -⟩ := busRound_iterate hw ha hs j
    rw [busIdle_fst, hacks, hsts]
    rfl
  time j := by
    obtain ⟨-, -, ht, -⟩ := busRound_iterate hw ha hs j
    exact congrArg hw.tick ((busIdle_counts hw _).2.2.trans ht)

structure PoweredUp (hw : PmuHw) (t : PmuState) : Prop where
  in_time : ¬hw.PowerLate
  first : hw.FirstPowered t.ticks
  log : ∃ before, t.log = before ++ [.read pmuRepairStatus (hw.repair t.ticks)]

section Loops
variable {hw : PmuHw} {s t : PmuState} {fuel : Nat} {ok : Bool}

theorem power_in_time {k : Nat}
    (h : Ends (fun j => !hw.powered (j + 1)) (fun j => hw.tick (j + 1)) (hw.deadline 0) k true) :
    ¬hw.PowerLate := by
  intro ⟨n, hn, hlate⟩
  have hk : hw.powered (k + 1) = true := Bool.not_inj h.at_busy
  by_cases hlt : n < k
  · have hnot : tickReached (hw.tick (n + 1)) (hw.deadline 0) = false := (h.before n hlt).2
    rw [hlate] at hnot
    cases hnot
  · rw [hn (k + 1) (by omega)] at hk
    cases hk

theorem unpowered_upto {k : Nat} {T : Nat → BitVec 32} {timeout : BitVec 32}
    (h0 : hw.powered 0 = false)
    (h : Ends (fun j => !hw.powered (j + 1)) T timeout k ok) : ∀ i < k + 1,
      hw.powered i = false := by
  intro i hi
  cases i with
  | zero => exact h0
  | succ i => exact Bool.not_inj (h.before i (Nat.lt_of_succ_lt_succ hi)).1

theorem waitWhile_eq (busy : PmuState → Bool × PmuState) :
    waitWhile hw busy fuel s =
      poll busy (rtTickGet hw) (hw.deadline s.ticks) fuel (rtTickGet hw s).2 := rfl

theorem waitPower_sees (hr : s.repairs = 1) (ht : s.ticks = 0) :
    Sees (unpowered hw) (rtTickGet hw) (rtTickGet hw s).2 (fun j => !hw.powered (j + 1)) fun j =>
      hw.tick (j + 1) := by
  have hsees := power_sees hw (rtTickGet hw s).2
  have hr' : (rtTickGet hw s).2.repairs = 1 := hr
  have ht' : (rtTickGet hw s).2.ticks = 1 := congrArg (· + 1) ht
  simp only [hr', ht', Nat.add_comm 1] at hsees
  exact hsees

theorem waitPower_some (hr : s.repairs = 1) (ht : s.ticks = 0) (h0 : hw.powered 0 = false)
    (h : waitWhile hw (unpowered hw) fuel s = some (ok, t)) :
    t.reg = s.reg ∧ t.acks = s.acks ∧ t.sts = s.sts ∧ (ok = true → PoweredUp hw t) ∧
    (ok = false → hw.PowerLate) := by
  have hr' : (rtTickGet hw s).2.repairs = 1 := hr
  have ht' : (rtTickGet hw s).2.ticks = 1 := congrArg (· + 1) ht
  rw [waitWhile_eq, ht] at h
  obtain ⟨k, hends, htk⟩ := poll_some (waitPower_sees hr ht) h
  cases ok with
  | true =>
    rw [if_pos rfl] at htk
    subst htk
    obtain ⟨hrep, htick, hack, hst, hq⟩ := powerRound_iterate hw (rtTickGet hw s).2 k
    generalize (powerRound hw)^[k] (rtTickGet hw s).2 = u at hrep htick hack hst hq
    have hu : u.ticks = k + 1 := by rw [htick, ht', Nat.add_comm]
    have hur : u.repairs = u.ticks := by rw [hrep, htick, hr', ht']
    refine ⟨hq.reg, hack, hst, fun _ => ⟨power_in_time hends, ?_, u.log, ?_⟩, Bool.noConfusion⟩
    · change hw.FirstPowered u.ticks
      rw [hu]
      exact ⟨unpowered_upto h0 hends, Bool.not_inj hends.at_busy⟩
    · rw [unpowered, readRepairStatus, hur]
  | false =>
    obtain ⟨-, -, hack, hst, hq⟩ := powerRound_iterate hw (rtTickGet hw s).2 (k + 1)
    rw [if_neg Bool.noConfusion] at htk
    subst htk
    refine ⟨hq.reg, hack, hst, Bool.noConfusion, fun _ => ⟨k, fun i hi => ?_, hends.at_late rfl⟩⟩
    rcases Nat.lt_or_eq_of_le hi with hlt | rfl
    · exact unpowered_upto h0 hends i hlt
    · exact Bool.not_inj hends.at_busy

theorem pmuWrite_of_ne {o offset : Nat} (h : o ≠ offset) (value : BitVec 32) :
    (pmuWrite s offset value).reg o = s.reg o := Function.update_of_ne h _ _

/-- The first read decides; `g` is the state in which the wait starts. -/
theorem powerUp_eq (hw : PmuHw) (hr : s.repairs = 0) :
    ∃ g : PmuState, g.repairs = 1 ∧ g.ticks = s.ticks ∧ g.acks = s.acks ∧ g.sts = s.sts ∧
      g.reg pmuClkUngate = s.reg pmuClkUngate ∧
      ∀ fuel, powerUp hw fuel s =
        if hw.powered 0 then some (true, (unpowered hw s).2)
          else waitWhile hw (unpowered hw) fuel g := by
  refine ⟨pmuWrite (unpowered hw s).2 pmuPwrGateSftcon0 (gmacHiwordUpdate pmuSdgmacPwrBit 0),
    congrArg (· + 1) hr, rfl,
    rfl, rfl, pmuWrite_of_ne (by decide) _, fun fuel => ?_⟩
  simp only [powerUp, unpowered_fst, hr]
  cases hw.powered 0 with
  | true => rfl
  | false => rfl

theorem powerUp_some (hr : s.repairs = 0) (ht : s.ticks = 0)
    (h : powerUp hw fuel s = some (ok, t)) :
    t.reg pmuClkUngate = s.reg pmuClkUngate ∧ t.acks = s.acks ∧ t.sts = s.sts ∧
      (ok = true → PoweredUp hw t) ∧ (ok = false → hw.PowerLate) := by
  obtain ⟨g, hgr, hgt, hga, hgs, hgreg, hrun⟩ := powerUp_eq hw hr
  rw [hrun] at h
  cases h0 : hw.powered 0 with
  | true =>
    rw [h0] at h
    obtain ⟨rfl, rfl⟩ : true = ok ∧ (unpowered hw s).2 = t := by simpa using h
    have hlate : ¬hw.PowerLate := by
      intro ⟨n, hn, _⟩
      rw [hn 0 (Nat.zero_le _)] at h0
      cases h0
    have htick : (unpowered hw s).2.ticks = 0 := ht
    refine ⟨rfl, rfl, rfl, fun _ => ⟨hlate, ?_, s.log, ?_⟩, Bool.noConfusion⟩
    · rw [htick]
      exact ⟨fun k hk => absurd hk (Nat.not_lt_zero k), h0⟩
    · rw [htick, ← hr]
      rfl
  | false =>
    rw [h0] at h
    obtain ⟨hreg, hack, hst, hup, hlate⟩ := waitPower_some hgr (hgt.trans ht) h0 h
    exact ⟨by rw [hreg, hgreg], hack.trans hga, hst.trans hgs, hup, hlate⟩

/-- The poll that ends the second loop, and the events from the write before it. -/
structure BusAwake (hw : PmuHw) (s t : PmuState) : Prop where
  in_time : ¬hw.BusLate s.ticks
  log : ∃ between ack st, t.log = s.log ++
    PmuEvent.write pmuBusIdleReq (gmacHiwordUpdate pmuSdgmacIdleReqBit 0) :: between ++
    [PmuEvent.read pmuBusIdleAck ack, .read pmuBusIdleSt st] ∧ (∀ e ∈ between, e.isWrite = false) ∧
    ack &&& pmuSdgmacIdleStatusBit = 0 ∧ st &&& pmuSdgmacIdleStatusBit = 0

theorem bus_in_time {i k : Nat}
    (h : Ends (fun j => !hw.awake j) (fun j => hw.tick (i + 1 + j))
      (hw.deadline i) k true) : ¬hw.BusLate i := by
  intro ⟨n, hn, hlate⟩
  have hk : hw.awake k = true := Bool.not_inj h.at_busy
  by_cases hlt : n < k
  · have hnot : tickReached (hw.tick (i + 1 + n)) (hw.deadline i) = false := (h.before n hlt).2
    rw [hlate] at hnot
    cases hnot
  · rw [hn k (by omega)] at hk
    cases hk

theorem busUp_some (ha : s.acks = 0) (hs : s.sts = 0) (h : busUp hw fuel s = some (ok, t)) :
    t.reg = (pmuWrite s pmuBusIdleReq (gmacHiwordUpdate pmuSdgmacIdleReqBit 0)).reg ∧
      (ok = true → BusAwake hw s t) ∧ (ok = false → hw.BusLate s.ticks) := by
  rw [busUp, waitWhile_eq] at h
  generalize hu : (rtTickGet hw
    (pmuWrite s pmuBusIdleReq (gmacHiwordUpdate pmuSdgmacIdleReqBit 0))).2 = u at h
  have hua : u.acks = 0 := by rw [← hu]; exact ha
  have hus : u.sts = 0 := by rw [← hu]; exact hs
  have hut : u.ticks = s.ticks + 1 := by rw [← hu]; rfl
  have hsees := bus_sees hw hua hus
  rw [hut] at hsees
  obtain ⟨k, hends, htk⟩ := poll_some hsees h
  have hreg : u.reg = (pmuWrite s pmuBusIdleReq (gmacHiwordUpdate pmuSdgmacIdleReqBit 0)).reg := by
    rw [← hu]; rfl
  have hlog : u.log = s.log ++ [.write pmuBusIdleReq (gmacHiwordUpdate pmuSdgmacIdleReqBit 0),
      .tick (hw.tick s.ticks)] := by
    rw [← hu, rtTickGet, pmuWrite, List.append_assoc]
    rfl
  cases ok with
  | true =>
    rw [if_pos rfl] at htk
    obtain ⟨hack, hst, -, hq⟩ := busRound_iterate hw hua hus k
    have hfst := hsees.cond k
    generalize (busRound hw)^[k] u = v at htk hack hst hq hfst
    have hawake : hw.awake k = true := Bool.not_inj hends.at_busy
    rw [hawake] at hfst
    rw [PmuHw.awake, Bool.and_eq_true, PmuHw.ackClear, beq_iff_eq, beq_iff_eq,
      ← hst, ← hack] at hawake
    obtain ⟨l, hl, hnw⟩ := hq.log
    subst htk
    refine ⟨((busIdle_watches hw v).reg.trans hq.reg).trans hreg, fun _ => ⟨bus_in_time hends, ?_⟩,
      Bool.noConfusion⟩
    refine ⟨.tick (hw.tick s.ticks) :: l, hw.ack v.acks, hw.st v.sts, ?_, ?_, hawake⟩
    · rw [busIdle_log hfst, hl, hlog]
      simp only [List.append_assoc, List.cons_append, List.nil_append]
    · intro e he
      rcases List.mem_cons.mp he with rfl | he
      · rfl
      · exact hnw e he
  | false =>
    rw [if_neg Bool.noConfusion] at htk
    obtain ⟨-, -, -, hq⟩ := busRound_iterate hw hua hus (k + 1)
    subst htk
    refine ⟨hq.reg.trans hreg, Bool.noConfusion, fun _ => ⟨k, fun j hj => ?_, hends.at_late rfl⟩⟩
    rcases Nat.lt_or_eq_of_le hj with hlt | rfl
    · exact Bool.not_inj (hends.before j hlt).1
    · exact Bool.not_inj hends.at_busy

end Loops

theorem pmuWrite_bits (s : PmuState) (offset : Nat) {mask : BitVec 32} (hm : mask.toNat < 2 ^ 16)
    (value : BitVec 32) :
    pmuBits (pmuWrite s offset (gmacHiwordUpdate mask value)).reg offset mask = value &&& mask := by
  have hreg : (pmuWrite s offset (gmacHiwordUpdate mask value)).reg offset =
      Hiword.merge (s.reg offset) (gmacHiwordUpdate mask value) := Function.update_self _ _ _
  rw [pmuBits, hreg]
  exact Hiword.merge_and (s.reg offset) hm value

theorem PmuHw.FirstPowered.unique {hw : PmuHw} {i j : Nat} (hi : hw.FirstPowered i)
    (hj : hw.FirstPowered j) : i = j := by
  rcases Nat.lt_trichotomy i j with h | h | h
  · have hk := hj.before i h
    rw [hi.here] at hk
    cases hk
  · exact h
  · have hk := hi.before j h
    rw [hj.here] at hk
    cases hk

structure PoweredOn (hw : PmuHw) (t : PmuState) : Prop where
  in_time : ¬hw.TimesOut
  seen : SeenUp t.log
  withdrawn : pmuBits t.reg pmuBusIdleReq pmuSdgmacIdleReqBit = 0
  released : OverrideReleased t.reg

/-- A call that times out returns with both override bits set. -/
structure TimedOut (hw : PmuHw) (t : PmuState) : Prop where
  late : hw.TimesOut
  held : pmuBits t.reg pmuClkUngate pmuSdgmacClkMask = pmuSdgmacClkMask

theorem PoweredUp.power_on {hw : PmuHw} {u v : PmuState} (hpow : PoweredUp hw u)
    (hbus : BusAwake hw u v)
    (hreg : v.reg = (pmuWrite u pmuBusIdleReq (gmacHiwordUpdate pmuSdgmacIdleReqBit 0)).reg) :
    PoweredOn hw (pmuWrite v pmuClkUngate (gmacHiwordUpdate pmuSdgmacClkMask 0)) where
  in_time hto := by
    rcases hto with hl | ⟨i, hi, hl⟩
    · exact hpow.in_time hl
    · exact hbus.in_time (hpow.first.unique hi ▸ hl)
  seen := by
    obtain ⟨before, hbefore⟩ := hpow.log
    obtain ⟨between, ack, st, hlog, hq, hbits⟩ := hbus.log
    refine ⟨before, hw.repair u.ticks, between, ack, st, ?_,
      bne_iff_ne.mp hpow.first.here, hq, hbits⟩
    rw [pmuWrite, hlog, hbefore]
    simp only [List.append_assoc, List.cons_append, List.nil_append]
  withdrawn := by
    rw [pmuBits, pmuWrite_of_ne (by decide), hreg]
    exact pmuWrite_bits u pmuBusIdleReq (by decide) 0
  released := pmuWrite_bits v pmuClkUngate (by decide) 0

theorem powerOn_some {hw : PmuHw} {fuel : Nat} {reg : Nat → BitVec 16} {ret : RtErr} {t : PmuState}
    (h : rk3576GmacPowerOn hw fuel (pmuEntry reg) = some (ret, t)) :
    ret = .eok ∧ PoweredOn hw t ∨ ret = .etimeout ∧ TimedOut hw t := by
  rw [rk3576GmacPowerOn] at h
  generalize hs : pmuWrite (pmuEntry reg) pmuClkUngate
    (gmacHiwordUpdate pmuSdgmacClkMask pmuSdgmacClkMask) = s at h
  have hset : pmuBits s.reg pmuClkUngate pmuSdgmacClkMask = pmuSdgmacClkMask := by
    rw [← hs, pmuWrite_bits _ _ (by decide)]
    decide
  cases hp : powerUp hw fuel s with
  | none =>
    rw [hp] at h
    cases h
  | some r =>
    obtain ⟨ok, u⟩ := r
    have hzero : s.repairs = 0 ∧ s.ticks = 0 ∧ s.acks = 0 ∧ s.sts = 0 := by
      rw [← hs]
      exact ⟨rfl, rfl, rfl, rfl⟩
    obtain ⟨hreg, hack, hst, hup, hlate⟩ := powerUp_some hzero.1 hzero.2.1 hp
    have hheld : pmuBits u.reg pmuClkUngate pmuSdgmacClkMask = pmuSdgmacClkMask := by
      rw [pmuBits, hreg]
      exact hset
    rw [hp] at h
    cases ok with
    | false =>
      obtain ⟨rfl, rfl⟩ : RtErr.etimeout = ret ∧ u = t := by simpa using h
      exact Or.inr ⟨rfl, Or.inl (hlate rfl), hheld⟩
    | true =>
      cases hb : busUp hw fuel u with
      | none =>
        simp only [hb] at h
        cases h
      | some r =>
        obtain ⟨ok, v⟩ := r
        obtain ⟨hbreg, hawake, hblate⟩ :=
          busUp_some (hack.trans hzero.2.2.1) (hst.trans hzero.2.2.2) hb
        simp only [hb] at h
        cases ok with
        | false =>
          obtain ⟨rfl, rfl⟩ : RtErr.etimeout = ret ∧ v = t := by simpa using h
          refine Or.inr ⟨rfl, Or.inr ⟨u.ticks, (hup rfl).first, hblate rfl⟩, ?_⟩
          rw [pmuBits, hbreg, pmuWrite_of_ne (by decide)]
          exact hheld
        | true =>
          obtain ⟨rfl, rfl⟩ :
              RtErr.eok = ret ∧ pmuWrite v pmuClkUngate (gmacHiwordUpdate pmuSdgmacClkMask 0) =
                t := by simpa using h
          exact Or.inl ⟨rfl, (hup rfl).power_on (hawake rfl) hbreg⟩

theorem powerUp_returns {hw : PmuHw} {s : PmuState} (hr : s.repairs = 0) (ht : s.ticks = 0)
    (h : ∃ k, hw.powered k = true ∨ tickReached (hw.tick (k + 1)) (hw.deadline 0) = true) :
    ∃ r n, ∀ fuel, n < fuel → powerUp hw fuel s = some r := by
  obtain ⟨g, hgr, hgt, -, -, -, hrun⟩ := powerUp_eq hw hr
  simp only [hrun]
  cases h0 : hw.powered 0 with
  | true => exact ⟨(true, (unpowered hw s).2), 0, fun _ _ => rfl⟩
  | false =>
    -- The read before the loop saw the bit clear, so a set bit is seen in a round of it.
    have hround : ∃ k, (!hw.powered (k + 1)) = false ∨
        reached (hw.tick (k + 1)) (hw.deadline 0) = true := by
      obtain ⟨k, hk | hk⟩ := h
      · cases k with
        | zero =>
          rw [h0] at hk
          cases hk
        | succ k => exact ⟨k, Or.inl (by rw [hk, Bool.not_true])⟩
      · exact ⟨k, Or.inr hk⟩
    obtain ⟨k, hk⟩ := hround
    obtain ⟨r, hpoll⟩ := poll_returns (waitPower_sees hgr (hgt.trans ht)) hk
    refine ⟨r, k, fun fuel hf => ?_⟩
    rw [if_neg Bool.noConfusion, waitWhile_eq, hgt.trans ht]
    exact hpoll fuel hf

theorem busUp_returns {hw : PmuHw} {s : PmuState} (ha : s.acks = 0) (hs : s.sts = 0)
    (h : ∃ n, tickReached (hw.tick (s.ticks + 1 + n)) (hw.deadline s.ticks) = true) :
    ∃ r n, ∀ fuel, n < fuel → busUp hw fuel s = some r := by
  obtain ⟨n, hn⟩ := h
  let u := (rtTickGet hw (pmuWrite s pmuBusIdleReq (gmacHiwordUpdate pmuSdgmacIdleReqBit 0))).2
  have hua : u.acks = 0 := ha
  obtain ⟨r, hpoll⟩ := poll_returns (k := n) (bus_sees hw hua (show u.sts = 0 from hs)) (Or.inr hn)
  exact ⟨r, n, fun fuel hf => hpoll fuel hf⟩

/-- A call returns if the tick keeps advancing; it also does if a deadline is read in time. -/
theorem powerOn_returns {hw : PmuHw} (h : Advancing hw.tick ∨ hw.TimesOut) (reg : Nat → BitVec 16) :
    ∃ r n, ∀ fuel, n < fuel → rk3576GmacPowerOn hw fuel (pmuEntry reg) = some r := by
  have hfirst : ∃ k, hw.powered k = true ∨
      tickReached (hw.tick (k + 1)) (hw.deadline 0) = true := by
    rcases h with hadv | ⟨n, -, hn⟩ | ⟨i, hi, -⟩
    · obtain ⟨n, hn⟩ := exists_reached hadv 0 (rtTickFromMillisecond 100)
      rw [Nat.zero_add, Nat.add_comm] at hn
      exact ⟨n, Or.inr hn⟩
    · exact ⟨n, Or.inr hn⟩
    · exact ⟨i, Or.inl hi.here⟩
  let s := pmuWrite (pmuEntry reg) pmuClkUngate (gmacHiwordUpdate pmuSdgmacClkMask pmuSdgmacClkMask)
  obtain ⟨⟨ok, u⟩, n, hn⟩ := powerUp_returns (s := s) rfl rfl hfirst
  cases ok with
  | false =>
    refine ⟨(.etimeout, u), n, fun fuel hf => ?_⟩
    have hrun : powerUp hw fuel s = some (false, u) := hn fuel hf
    simp only [rk3576GmacPowerOn, hrun, s]
  | true =>
    obtain ⟨-, hack, hst, hup, -⟩ := powerUp_some (s := s) rfl rfl (hn (n + 1) (Nat.lt_succ_self n))
    have hpow := hup rfl
    have hsecond : ∃ m, tickReached (hw.tick (u.ticks + 1 + m)) (hw.deadline u.ticks) = true := by
      rcases h with hadv | hl | ⟨i, hi, m, -, hm⟩
      · exact exists_reached hadv u.ticks (rtTickFromMillisecond 100)
      · exact absurd hl hpow.in_time
      · rw [hpow.first.unique hi]
        exact ⟨m, hm⟩
    obtain ⟨⟨ok, v⟩, m, hm⟩ := busUp_returns hack hst hsecond
    refine ⟨if ok then (.eok, pmuWrite v pmuClkUngate (gmacHiwordUpdate pmuSdgmacClkMask 0))
      else (.etimeout, v),
      max n m, fun fuel hf => ?_⟩
    have hrun : powerUp hw fuel s = some (true, u) :=
      hn fuel (Nat.lt_of_le_of_lt (Nat.le_max_left n m) hf)
    have hbus : busUp hw fuel u = some (ok, v) :=
      hm fuel (Nat.lt_of_le_of_lt (Nat.le_max_right n m) hf)
    cases ok with
    | false =>
      simp only [rk3576GmacPowerOn, s, hrun, hbus]
      rfl
    | true =>
      simp only [rk3576GmacPowerOn, s, hrun, hbus]
      rfl

end Rk3576.Gmac
