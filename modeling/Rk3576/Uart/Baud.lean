import Rk3576.Clock.Exact
import Rk3576.Pin.PinMap

/-! The first half of `dw8250_uart_configure`: pins, clock and divisor, with every 32-bit
operation of the baud arithmetic on record. -/
namespace Rk3576.Uart
open Rk3576.Clock Rk3576.Pin
open Rk3576.Gmac (RtErr)

/-- A 32-bit unsigned operation that the code carries out. -/
inductive U32Op where
  | mul (a b : BitVec 32)
  | add (a b : BitVec 32)
  | div (a b : BitVec 32)
  deriving DecidableEq

def U32Op.Sound : U32Op → Prop
  | .mul a b => a.toNat * b.toNat < 2 ^ 32
  | .add a b => a.toNat + b.toNat < 2 ^ 32
  | .div _ b => b.toNat ≠ 0

structure HwUartDevice where
  id : BitVec 32
  muxGroup : BitVec 32
  deriving DecidableEq

def uartDevs : List HwUartDevice := (List.range 12).map fun i => ⟨BitVec.ofNat 32 i, 0⟩

def targetClk (baudRate : BitVec 32) : List U32Op × BitVec 32 :=
  if baudRate ≤ 115200 then ([], rk3576OscHz)
  else if baudRate = 230400 ∨ baudRate = 1152000 then
    ([.mul baudRate 16, .mul (baudRate * 16) 2], baudRate * 16 * 2)
  else ([.mul baudRate 16], baudRate * 16)

def divisorOf (uartClk baudRate : BitVec 32) : List U32Op × BitVec 32 :=
  let divisor := (uartClk + baudRate * 8) / (baudRate * 16)
  ([.mul baudRate 8, .add uartClk (baudRate * 8), .mul baudRate 16,
    .div (uartClk + baudRate * 8) (baudRate * 16)],
    if divisor = 0 then 1 else divisor)

/-- What is known when the first write to the UART is due, or on an earlier return. -/
structure UartSetup where
  ret : RtErr
  ioc : IocRegs
  cru : CruRegs
  ops : List U32Op := []
  uartClk : BitVec 32 := 0
  divisor : BitVec 32 := 0

def UartSetup.dll (x : UartSetup) : BitVec 32 := x.divisor &&& 0xff
def UartSetup.dlm (x : UartSetup) : BitVec 32 := (x.divisor &&& 0xff00) >>> 8

def dw8250UartSetup (ioc : IocRegs) (cru : CruRegs) (uart : HwUartDevice) (baudRate : BitVec 32) :
    UartSetup :=
  let (ret, ioc) := rk3576UartIomuxInit ioc uart.id uart.muxGroup
  if ret ≠ .eok then { ret, ioc, cru }
  else
    let (ret, cru) := rk3576CruUartEnable cru uart.id
    if ret ≠ .eok then { ret, ioc, cru }
    else
      let (ops, target) := targetClk baudRate
      let (clk, cru) := rk3576CruSetUartClk cru uart.id target
      let uartClk := if clk = 0 then rk3576OscHz else clk
      let (ops', divisor) := divisorOf uartClk baudRate
      { ret := .eok, ioc, cru, ops := ops ++ ops', uartClk, divisor }

/-- The arithmetic is sound, and on RT_EOK the two bytes hold the rounded quotient. -/
def UartSetup.BaudSound (x : UartSetup) (baudRate : BitVec 32) : Prop :=
  (∀ op ∈ x.ops, op.Sound) ∧
    (x.ret = .eok → x.dlm.toNat * 256 + x.dll.toNat =
      max 1 ((x.uartClk.toNat + 8 * baudRate.toNat) / (16 * baudRate.toNat)))

theorem uartDevs_id {uart : HwUartDevice} (h : uart ∈ uartDevs) :
    uart.id < 12 ∧ uart.muxGroup = 0 := by
  have hall : ∀ uart ∈ uartDevs, uart.id < 12 ∧ uart.muxGroup = 0 := by decide
  exact hall uart h

theorem uart_pins_eok {uart : HwUartDevice} (h : uart ∈ uartDevs) (ioc : IocRegs) :
    (rk3576UartIomuxInit ioc uart.id uart.muxGroup).1 = .eok := by
  have hall : ∀ uart ∈ uartDevs, ¬(uart.id ≥ 12 ∨ uart.muxGroup ≥ 4) ∧
      ¬(rk3576UartIomux uart.id.toNat uart.muxGroup.toNat).valid = 0 := by decide
  obtain ⟨hi, hv⟩ := hall uart h
  exact (uartIomuxInit_valid ioc hi rfl hv).1

theorem uart_gates_eok {uart : HwUartDevice} (h : uart ∈ uartDevs) (cru : CruRegs) :
    (rk3576CruUartEnable cru uart.id).1 = .eok := by
  rw [rk3576CruUartEnable]
  by_cases h1 : uart.id = 1
  · rw [if_pos h1]
  · obtain ⟨d, hd⟩ := exists_uartDesc (uartDevs_id h).1 h1
    rw [if_neg h1, hd]

theorem enabled_ready {cru : CruRegs} (hf : FracsReady cru) (id : BitVec 32) :
    FracsReady (rk3576CruUartEnable cru id).2 :=
  fracsReady_run hf [.uartEnable id]

section Setup
variable {uart : HwUartDevice} (hu : uart ∈ uartDevs) (ioc : IocRegs) (cru : CruRegs)
  (hf : FracsReady cru)
  (baud : BitVec 32)
include hu

theorem dw8250UartSetup_eq :
    let x := dw8250UartSetup ioc cru uart baud
    let clk :=
      (rk3576CruSetUartClk (rk3576CruUartEnable cru uart.id).2 uart.id (targetClk baud).2).1
    x.ret = .eok ∧ x.uartClk = (if clk = 0 then rk3576OscHz else clk) ∧
      x.ops = (targetClk baud).1 ++ (divisorOf x.uartClk baud).1 ∧
      x.divisor = (divisorOf x.uartClk baud).2 := by
  simp only [dw8250UartSetup, uart_pins_eok hu, uart_gates_eok hu]
  simp

include hf

theorem dw8250UartSetup_clk (ht : (targetClk baud).2 ≠ 0) :
    (dw8250UartSetup ioc cru uart baud).uartClk =
        (rk3576CruSetUartClk (rk3576CruUartEnable cru uart.id).2 uart.id (targetClk baud).2).1 ∧
      (dw8250UartSetup ioc cru uart baud).uartClk.toNat ≤ 1188000000 := by
  obtain ⟨hpos, hle⟩ := setUartClk_bounds (enabled_ready hf uart.id) (uartDevs_id hu).1 ht
  have hclk := (dw8250UartSetup_eq hu ioc cru baud).2.1
  have hne : (rk3576CruSetUartClk (rk3576CruUartEnable cru uart.id).2 uart.id
      (targetClk baud).2).1 ≠ 0 := by
    intro h
    rw [h] at hpos
    exact absurd hpos (by decide)
  rw [hclk, if_neg hne]
  exact ⟨rfl, hle⟩

theorem dw8250UartSetup_clk_slow (hb : baud ≤ 115200) :
    (dw8250UartSetup ioc cru uart baud).uartClk.toNat = 24000000 := by
  have ht : (targetClk baud).2 = rk3576OscHz := by rw [targetClk, if_pos hb]
  have hfirst : firstMultiple rk3576OscHz.toNat = some 96000000 := by decide
  have hval :=
    setUartClk_toNat (enabled_ready hf uart.id) (uartDevs_id hu).1 (show rk3576OscHz ≠ 0 by decide)
  rw [(dw8250UartSetup_clk hu ioc cru hf baud (by rw [ht]; decide)).1, ht, hval, hfirst]
  decide

end Setup

theorem divisor_bytes (d : BitVec 32) :
    ((d &&& 0xff00) >>> 8).toNat * 256 + (d &&& 0xff).toNat = d.toNat % 2 ^ 16 := by
  have hlow : (d &&& 0xff).toNat = d.toNat % 256 := by
    rw [BitVec.toNat_and]
    exact Nat.and_two_pow_sub_one_eq_mod _ 8
  have hhigh : ((d &&& 0xff00) >>> 8).toNat = d.toNat / 256 % 256 := by
    rw [BitVec.toNat_ushiftRight, BitVec.toNat_and, Nat.shiftRight_and_distrib,
      Nat.shiftRight_eq_div_pow]
    exact Nat.and_two_pow_sub_one_eq_mod _ 8
  rw [hlow, hhigh]
  omega

theorem dlm_dll (x : UartSetup) : x.dlm.toNat * 256 + x.dll.toNat = x.divisor.toNat % 2 ^ 16 :=
  divisor_bytes x.divisor

theorem divisorOf_toNat {clk baud : BitVec 32} (hb : 0 < baud.toNat) (h16 : baud.toNat < 2 ^ 28)
    (hclk : clk.toNat ≤ 1188000000) :
    (∀ op ∈ (divisorOf clk baud).1, op.Sound) ∧
      (divisorOf clk baud).2.toNat = max 1 ((clk.toNat + 8 * baud.toNat) / (16 * baud.toNat)) := by
  have h8 : (baud * 8).toNat = 8 * baud.toNat := by bv_omega
  have h16' : (baud * 16).toNat = 16 * baud.toNat := by bv_omega
  have hsum : (clk + baud * 8).toNat = clk.toNat + 8 * baud.toNat := by
    rw [BitVec.toNat_add, h8, Nat.mod_eq_of_lt (by omega)]
  have hdiv : ((clk + baud * 8) / (baud * 16)).toNat =
      (clk.toNat + 8 * baud.toNat) / (16 * baud.toNat) := by
    rw [BitVec.toNat_udiv, hsum, h16']
  constructor
  · have e8 : (8 : BitVec 32).toNat = 8 := rfl
    have e16 : (16 : BitVec 32).toNat = 16 := rfl
    simp only [divisorOf, List.forall_mem_cons, U32Op.Sound, h8, h16', e8, e16]
    refine ⟨by omega, by omega, by omega, by omega, ?_⟩
    simp
  · simp only [divisorOf]
    generalize (clk + baud * 8) / (baud * 16) = d at hdiv
    rw [← hdiv]
    have hz : d = 0 ↔ d.toNat = 0 := BitVec.toNat_inj.symm
    by_cases h0 : d.toNat = 0
    · rw [if_pos (hz.mpr h0), h0]
      rfl
    · rw [if_neg (mt hz.mp h0), max_eq_right (by omega)]

/-- The last product and the division alone bound the rate. -/
theorem rate_of_divisorOf_sound {clk baud : BitVec 32}
    (h : ∀ op ∈ (divisorOf clk baud).1, op.Sound) :
    0 < baud.toNat ∧ baud.toNat < 2 ^ 28 := by
  have hmul : U32Op.Sound (.mul baud 16) := h _ (by simp [divisorOf])
  have hdiv : U32Op.Sound (.div (clk + baud * 8) (baud * 16)) := h _ (by simp [divisorOf])
  have e16 : (16 : BitVec 32).toNat = 16 := rfl
  simp only [U32Op.Sound, e16] at hmul hdiv
  refine ⟨Nat.pos_of_ne_zero fun h0 => hdiv ?_, by omega⟩
  bv_omega

theorem targetClk_sound {baud : BitVec 32} (h16 : baud.toNat < 2 ^ 28) :
    (∀ op ∈ (targetClk baud).1, op.Sound) ∧ (targetClk baud).2 ≠ 0 := by
  have e16 : (16 : BitVec 32).toNat = 16 := rfl
  rw [targetClk]
  split
  · exact ⟨by simp, by decide⟩
  · rename_i hb
    have hbig : 115200 < baud.toNat := by bv_omega
    split
    · rename_i hspecial
      have hmul : (baud * 16).toNat = 16 * baud.toNat := by bv_omega
      have hle : baud.toNat ≤ 1152000 := by
        cases hspecial with
        | inl h => rw [h]; decide
        | inr h => rw [h]; decide
      refine ⟨?_, by bv_omega⟩
      have e2 : (2 : BitVec 32).toNat = 2 := rfl
      simp only [List.forall_mem_cons, U32Op.Sound, hmul, e16, e2]
      refine ⟨by omega, by omega, ?_⟩
      simp
    · refine ⟨?_, by bv_omega⟩
      simp only [List.forall_mem_cons, U32Op.Sound, e16]
      refine ⟨by omega, ?_⟩
      simp

/-- For every UART and every state of the clock tree after its initialisation: the baud
arithmetic is sound exactly from 23 baud on, where the divisor fits in sixteen bits, up to
2^28, where sixteen times the rate still fits in 32. -/
theorem dw8250UartSetup_baudSound_iff (ioc : IocRegs) (r : CruRegs) (cs : List CruCall)
    (uart : HwUartDevice) (hu : uart ∈ uartDevs) (baud : BitVec 32) :
    (dw8250UartSetup ioc (cruRun (rk3576CruInit r) cs) uart baud).BaudSound baud ↔
      23 ≤ baud.toNat ∧ baud.toNat < 2 ^ 28 := by
  have hf : FracsReady (cruRun (rk3576CruInit r) cs) := fracsReady_run (fracsReady_init r) cs
  generalize cruRun (rk3576CruInit r) cs = cru at hf
  obtain ⟨hret, -, hops, hdiv⟩ := dw8250UartSetup_eq hu ioc cru baud
  have hslow := dw8250UartSetup_clk_slow hu ioc cru hf baud
  have hfast := fun ht => (dw8250UartSetup_clk hu ioc cru hf baud ht).2
  generalize dw8250UartSetup ioc cru uart baud = x at *
  rw [UartSetup.BaudSound, hops, dlm_dll, hdiv]
  constructor
  · rintro ⟨hsound, hbytes⟩
    have hbytes := hbytes hret
    obtain ⟨hpos, hlt⟩ :=
      rate_of_divisorOf_sound fun op hop => hsound op (List.mem_append_right _ hop)
    refine ⟨?_, hlt⟩
    by_contra hsmall
    have hclk := hslow (by bv_omega)
    have hq : 2 ^ 16 ≤ (x.uartClk.toNat + 8 * baud.toNat) / (16 * baud.toNat) := by
      rw [hclk, Nat.le_div_iff_mul_le (by omega)]
      omega
    omega
  · rintro ⟨hlow, hlt⟩
    obtain ⟨htops, htne⟩ := targetClk_sound hlt
    obtain ⟨hdops, hdval⟩ := divisorOf_toNat (by omega) hlt (hfast htne)
    refine ⟨fun op hop => (List.mem_append.mp hop).elim (htops op) (hdops op), fun _ => ?_⟩
    have hq : (x.uartClk.toNat + 8 * baud.toNat) / (16 * baud.toNat) < 2 ^ 16 := by
      rw [Nat.div_lt_iff_lt_mul (by omega)]
      by_cases hb : baud ≤ 115200
      · rw [hslow hb]
        omega
      · have := hfast htne
        have hbig : 115200 < baud.toNat := by bv_omega
        omega
    rw [hdval, Nat.mod_eq_of_lt (by omega)]

/-- The default rate of the board. -/
theorem baudSound_1500000 :
    (dw8250UartSetup (fun _ => 0) (cruRun (rk3576CruInit ⟨fun _ => 0, fun _ => 0⟩) [])
      ⟨0, 0⟩ 1500000).BaudSound 1500000 :=
  (dw8250UartSetup_baudSound_iff (fun _ => 0) ⟨fun _ => 0, fun _ => 0⟩ [] ⟨0, 0⟩
    (by decide) 1500000).mpr (by decide)

/-- At 0 baud the code divides by zero; at 22 the divisor 68182 is cut to 2646; at 2^28 the
product by sixteen wraps to 0. -/
theorem baud_unsound_at_ends :
    let x := dw8250UartSetup (fun _ => 0)
      (cruRun (rk3576CruInit ⟨fun _ => 0, fun _ => 0⟩) []) ⟨0, 0⟩
    (U32Op.div 24000000 0 ∈ (x 0).ops ∧ ¬(x 0).BaudSound 0) ∧
      ((x 22).divisor = 68182 ∧ (x 22).dlm.toNat * 256 + (x 22).dll.toNat = 2646 ∧
        ¬(x 22).BaudSound 22) ∧
      (U32Op.mul 0x10000000 16 ∈ (x 0x10000000).ops ∧ ¬(x 0x10000000).BaudSound 0x10000000) := by
  intro x
  have h0 : U32Op.div 24000000 0 ∈ (x 0).ops := by decide +kernel
  have hd : (x 22).divisor = 68182 ∧ (x 22).dlm.toNat * 256 + (x 22).dll.toNat = 2646 ∧
    (x 22).ret = .eok ∧
      (x 22).uartClk = 24000000 := by decide +kernel
  have hm : U32Op.mul 0x10000000 16 ∈ (x 0x10000000).ops := by decide +kernel
  refine ⟨⟨h0, fun h => h.1 _ h0 rfl⟩, ⟨hd.1, hd.2.1, fun h => ?_⟩, hm, fun h => ?_⟩
  · have hbytes := h.2 hd.2.2.1
    rw [hd.2.1, hd.2.2.2] at hbytes
    revert hbytes
    decide
  · have hwrap := h.1 _ hm
    simp only [U32Op.Sound] at hwrap
    revert hwrap
    decide

end Rk3576.Uart
