import Rk3576.Lib.Hiword
import Rk3576.Gmac.Layout

/-! `drv_cru.c`: the clocks of the twelve UARTs and the gates of the GPIO and GMAC drivers. -/
namespace Rk3576.Clock
open Rk3576.Hiword
open Rk3576.Gmac (RtErr)

/-- The rates are `UL` constants in the source. They fit in 32 bits, and a remainder by a 32-bit
rate is the same at either width. -/
def rk3576OscHz : BitVec 32 := 24000000
def rk3576GpllHz : BitVec 32 := 1188000000
def rk3576CpllHz : BitVec 32 := 1000000000
def rk3576AupllHz : BitVec 32 := 786432000

def rk3576ClkselCon (n : BitVec 32) : BitVec 32 := 0x0300 + n * 4
def rk3576ClkgateCon (n : BitVec 32) : BitVec 32 := 0x0800 + n * 4
def rk3576SoftrstCon (n : BitVec 32) : BitVec 32 := 0x0a00 + n * 4
def rk3576PmuClkselCon (n : BitVec 32) : BitVec 32 := 0x20000 + 0x0300 + n * 4
def rk3576PmuClkgateCon (n : BitVec 32) : BitVec 32 := 0x20000 + 0x0800 + n * 4

def uartSelGpll : BitVec 32 := 0
def uartSelCpll : BitVec 32 := 1
def uartSelAupll : BitVec 32 := 2
def uartSelOsc : BitVec 32 := 3
def uartSelFrac0 : BitVec 32 := 4
def uartSelFrac1 : BitVec 32 := 5
def uartSelFrac2 : BitVec 32 := 6

structure UartFracDesc where
  div : BitVec 32
  sel : BitVec 32

def uartFracs : List UartFracDesc :=
  [⟨rk3576ClkselCon 21, rk3576ClkselCon 22⟩,
   ⟨rk3576ClkselCon 23, rk3576ClkselCon 24⟩,
   ⟨rk3576ClkselCon 25, rk3576ClkselCon 26⟩]

/-- The registers by offset: sixteen payload bits each, but the three fractional dividers whole. -/
structure CruRegs where
  con : BitVec 32 → BitVec 16
  frac : BitVec 32 → BitVec 32

def wholeWord (offset : BitVec 32) : Bool := uartFracs.any fun d => d.div == offset

def rk3576CruRead (r : CruRegs) (offset : BitVec 32) : BitVec 32 :=
  if wholeWord offset then r.frac offset else (r.con offset).setWidth 32

def rk3576CruWrite (r : CruRegs) (offset value : BitVec 32) : CruRegs :=
  if wholeWord offset then { r with frac := Function.update r.frac offset value }
  else { r with con := write r.con offset value }

def rk3576CruHiwordUpdate (r : CruRegs) (offset mask value : BitVec 32) : CruRegs :=
  rk3576CruWrite r offset (word mask value)

def rk3576CruGateEnable (r : CruRegs) (offset bit : BitVec 32) : CruRegs :=
  rk3576CruHiwordUpdate r offset (1#32 <<< bit) 0

def rk3576CruResetAssert (r : CruRegs) (offset bit : BitVec 32) : CruRegs :=
  rk3576CruHiwordUpdate r offset (1#32 <<< bit) (1#32 <<< bit)

def rk3576CruResetDeassert (r : CruRegs) (offset bit : BitVec 32) : CruRegs :=
  rk3576CruHiwordUpdate r offset (1#32 <<< bit) 0

def rk3576CruParentRate (sel : BitVec 32) : BitVec 32 :=
  if sel = 0 then rk3576GpllHz
  else if sel = 1 then rk3576CpllHz
  else if sel = 2 then rk3576AupllHz
  else rk3576OscHz

def fracWord (numerator denominator : BitVec 32) : BitVec 32 :=
  ((numerator <<< 16) &&& (0xffff#32 <<< 16)) ||| ((denominator <<< 0) &&& (0xffff#32 <<< 0))

def rk3576UartFracSet (r : CruRegs)
    (fracId parentSel numerator denominator : BitVec 32) : CruRegs :=
  match uartFracs[fracId.toNat]? with
  | none => r
  | some d =>
    let r := rk3576CruWrite r d.div (fracWord numerator denominator)
    let r := rk3576CruHiwordUpdate r d.sel (0x3#32 <<< 0) (parentSel <<< 0)
    rk3576CruGateEnable r (rk3576ClkgateCon 2) (5 + fracId)

/-- The rate that a parent and a divider word stand for; the product is taken in 64 bits. -/
def fracOf (parent div : BitVec 32) : BitVec 32 :=
  let numerator := (div &&& (0xffff#32 <<< 16)) >>> 16
  let denominator := (div &&& (0xffff#32 <<< 0)) >>> 0
  if denominator = 0 then 0
  else ((parent.setWidth 64 * numerator.setWidth 64) / denominator.setWidth 64).setWidth 32

def rk3576UartFracGet (r : CruRegs) (fracId : BitVec 32) : BitVec 32 :=
  match uartFracs[fracId.toNat]? with
  | none => 0
  | some d =>
    let sel := (rk3576CruRead r d.sel &&& (0x3#32 <<< 0)) >>> 0
    fracOf (rk3576CruParentRate sel) (rk3576CruRead r d.div)

def rk3576CruInit (r : CruRegs) : CruRegs :=
  let r := rk3576UartFracSet r 0 0 1536 24750
  let r := rk3576UartFracSet r 1 1 12 125
  rk3576UartFracSet r 2 1 16 125

structure GateDesc where
  offset : BitVec 32
  bit : BitVec 8

structure UartClkDesc where
  id : BitVec 8
  clksel : BitVec 32
  pclk : GateDesc
  sclk : GateDesc

def uartClks : List UartClkDesc :=
  [⟨0, rk3576ClkselCon 60, ⟨rk3576ClkgateCon 13, 10⟩, ⟨rk3576ClkgateCon 14, 5⟩⟩,
   ⟨2, rk3576ClkselCon 61, ⟨rk3576ClkgateCon 13, 11⟩, ⟨rk3576ClkgateCon 14, 6⟩⟩,
   ⟨3, rk3576ClkselCon 62, ⟨rk3576ClkgateCon 13, 12⟩, ⟨rk3576ClkgateCon 14, 9⟩⟩,
   ⟨4, rk3576ClkselCon 63, ⟨rk3576ClkgateCon 13, 13⟩, ⟨rk3576ClkgateCon 14, 12⟩⟩,
   ⟨5, rk3576ClkselCon 64, ⟨rk3576ClkgateCon 13, 14⟩, ⟨rk3576ClkgateCon 14, 15⟩⟩,
   ⟨6, rk3576ClkselCon 65, ⟨rk3576ClkgateCon 13, 15⟩, ⟨rk3576ClkgateCon 15, 2⟩⟩,
   ⟨7, rk3576ClkselCon 66, ⟨rk3576ClkgateCon 14, 0⟩, ⟨rk3576ClkgateCon 15, 5⟩⟩,
   ⟨8, rk3576ClkselCon 67, ⟨rk3576ClkgateCon 14, 1⟩, ⟨rk3576ClkgateCon 15, 8⟩⟩,
   ⟨9, rk3576ClkselCon 68, ⟨rk3576ClkgateCon 14, 2⟩, ⟨rk3576ClkgateCon 15, 9⟩⟩,
   ⟨10, rk3576ClkselCon 69, ⟨rk3576ClkgateCon 14, 3⟩, ⟨rk3576ClkgateCon 15, 10⟩⟩,
   ⟨11, rk3576ClkselCon 70, ⟨rk3576ClkgateCon 14, 4⟩, ⟨rk3576ClkgateCon 15, 11⟩⟩]

def rk3576UartDesc (id : BitVec 32) : Option UartClkDesc :=
  uartClks.find? fun d => d.id.setWidth 32 == id

def GateDesc.enable (g : GateDesc) (r : CruRegs) : CruRegs :=
  rk3576CruGateEnable r g.offset (g.bit.setWidth 32)

def rk3576CruUartEnable (r : CruRegs) (id : BitVec 32) : RtErr × CruRegs :=
  if id = 1 then
    let r := rk3576CruGateEnable r (rk3576ClkgateCon 2) 13
    let r := rk3576CruGateEnable r (rk3576PmuClkgateCon 5) 5
    (.eok, rk3576CruGateEnable r (rk3576PmuClkgateCon 5) 6)
  else
    match rk3576UartDesc id with
    | none => (.einval, r)
    | some d => (.eok, d.sclk.enable (d.pclk.enable r))

def uartRate (r : CruRegs) (src div : BitVec 32) : BitVec 32 :=
  let parent :=
    if src = uartSelGpll then rk3576GpllHz
    else if src = uartSelCpll then rk3576CpllHz
    else if src = uartSelAupll then rk3576AupllHz
    else if src = uartSelFrac0 then rk3576UartFracGet r 0
    else if src = uartSelFrac1 then rk3576UartFracGet r 1
    else if src = uartSelFrac2 then rk3576UartFracGet r 2
    else rk3576OscHz
  parent / (div + 1)

def rk3576CruGetUartClk (r : CruRegs) (id : BitVec 32) : BitVec 32 :=
  if id = 1 then
    let con := rk3576CruRead r (rk3576PmuClkselCon 8)
    if (con &&& (0x1#32 <<< 0)) >>> 0 = 1 then rk3576OscHz
    else
      let con := rk3576CruRead r (rk3576ClkselCon 27)
      uartRate r ((con &&& (0x7#32 <<< 13)) >>> 13) ((con &&& (0xff#32 <<< 5)) >>> 5)
  else
    match rk3576UartDesc id with
    | none => 0
    | some d =>
      let con := rk3576CruRead r d.clksel
      uartRate r ((con &&& (0x7#32 <<< 8)) >>> 8) ((con &&& (0xff#32 <<< 0)) >>> 0)

/-- The source that `rk3576_cru_set_uart_clk` takes, with its rate: the first in its order that
the wanted rate divides, else the oscillator. -/
def uartSource (r : CruRegs) (rate : BitVec 32) : BitVec 32 × BitVec 32 :=
  if rk3576GpllHz % rate = 0 then (uartSelGpll, rk3576GpllHz)
  else if rk3576CpllHz % rate = 0 then (uartSelCpll, rk3576CpllHz)
  else if rk3576UartFracGet r 0 ≠ 0 ∧ rk3576UartFracGet r 0 % rate = 0 then
    (uartSelFrac0, rk3576UartFracGet r 0)
  else if rk3576UartFracGet r 1 ≠ 0 ∧ rk3576UartFracGet r 1 % rate = 0 then
    (uartSelFrac1, rk3576UartFracGet r 1)
  else if rk3576UartFracGet r 2 ≠ 0 ∧ rk3576UartFracGet r 2 % rate = 0 then
    (uartSelFrac2, rk3576UartFracGet r 2)
  else if rk3576OscHz % rate = 0 then (uartSelOsc, rk3576OscHz)
  else (uartSelOsc, rk3576OscHz)

def uartDiv (parent rate : BitVec 32) : BitVec 32 :=
  let div := (parent + rate - 1) / rate
  if div = 0 then 1 else if div > 256 then 256 else div

def rk3576CruSetUartClk (r : CruRegs) (id rate : BitVec 32) : BitVec 32 × CruRegs :=
  if rate = 0 then (0, r)
  else
    let (src, parent) := uartSource r rate
    let div := uartDiv parent rate
    if id = 1 then
      if src = uartSelOsc ∧ div = 1 then
        let r := rk3576CruHiwordUpdate r (rk3576PmuClkselCon 8) (0x1#32 <<< 0) (1#32 <<< 0)
        (rk3576CruGetUartClk r id, r)
      else
        let value := (src <<< 13) ||| ((div - 1) <<< 5)
        let r := rk3576CruHiwordUpdate r (rk3576ClkselCon 27)
          ((0x7#32 <<< 13) ||| (0xff#32 <<< 5)) value
        let r := rk3576CruHiwordUpdate r (rk3576PmuClkselCon 8) (0x1#32 <<< 0) (0#32 <<< 0)
        (rk3576CruGetUartClk r id, r)
    else
      match rk3576UartDesc id with
      | none => (0, r)
      | some d =>
        let value := (src <<< 8) ||| ((div - 1) <<< 0)
        let r := rk3576CruHiwordUpdate r d.clksel ((0x7#32 <<< 8) ||| (0xff#32 <<< 0)) value
        (rk3576CruGetUartClk r id, r)

def rk3576GpioClockEnable (r : CruRegs) (bank : BitVec 32) : RtErr × CruRegs :=
  let both (o b o' b' : BitVec 32) :=
    (RtErr.eok, rk3576CruGateEnable (rk3576CruGateEnable r o b) o' b')
  if bank = 0 then both (rk3576PmuClkgateCon 7) 6 (rk3576PmuClkgateCon 7) 7
  else if bank = 1 then both (rk3576ClkgateCon 17) 15 (rk3576ClkgateCon 18) 0
  else if bank = 2 then both (rk3576ClkgateCon 18) 1 (rk3576ClkgateCon 18) 2
  else if bank = 3 then both (rk3576ClkgateCon 18) 3 (rk3576ClkgateCon 18) 4
  else if bank = 4 then both (rk3576ClkgateCon 18) 5 (rk3576ClkgateCon 18) 6
  else (.einval, r)

def rk3576GmacClockEnable (r : CruRegs) : RtErr × CruRegs :=
  let r := rk3576CruHiwordUpdate r (rk3576ClkselCon 30) (0x1f#32 <<< 10) (7#32 <<< 10)
  let r := rk3576CruGateEnable r (rk3576ClkgateCon 3) 6
  let r := rk3576CruGateEnable r (rk3576ClkgateCon 42) 1
  let r := rk3576CruGateEnable r (rk3576ClkgateCon 42) 7
  let r := rk3576CruGateEnable r (rk3576ClkgateCon 42) 2
  (.eok, rk3576CruGateEnable r (rk3576ClkgateCon 42) 9)

theorem read_write_ne {r : CruRegs} {o a value : BitVec 32} (h : a ≠ o) :
    rk3576CruRead (rk3576CruWrite r o value) a = rk3576CruRead r a := by
  rw [rk3576CruRead, rk3576CruRead, rk3576CruWrite]
  split
  · split
    · exact Function.update_of_ne h _ _
    · rfl
  · split
    · rfl
    · exact congrArg (BitVec.setWidth 32) (Function.update_of_ne h _ _)

def Leaves (as : List (BitVec 32)) (f : CruRegs → CruRegs) : Prop :=
  ∀ r, ∀ a ∈ as, rk3576CruRead (f r) a = rk3576CruRead r a

theorem leaves_hiwordUpdate {as : List (BitVec 32)} {o : BitVec 32} (h : o ∉ as)
    (mask value : BitVec 32) :
    Leaves as fun r => rk3576CruHiwordUpdate r o mask value := by
  intro r a ha
  refine read_write_ne ?_
  rintro rfl
  exact h ha

theorem leaves_comp {as : List (BitVec 32)} {f g : CruRegs → CruRegs} (hf : Leaves as f)
    (hg : Leaves as g) :
    Leaves as fun r => g (f r) :=
  fun r a ha => (hg (f r) a ha).trans (hf r a ha)

theorem leaves_gateEnable {as : List (BitVec 32)} {o : BitVec 32} (h : o ∉ as) (bit : BitVec 32) :
    Leaves as fun r => rk3576CruGateEnable r o bit :=
  leaves_hiwordUpdate h _ _

def fracRegs : List (BitVec 32) := uartFracs.flatMap fun d => [d.div, d.sel]

def uartRegs (id : BitVec 32) : List (BitVec 32) :=
  if id = 1 then [rk3576PmuClkselCon 8, rk3576ClkselCon 27]
  else (rk3576UartDesc id).toList.map UartClkDesc.clksel

def clockRegs : List (BitVec 32) :=
  fracRegs ++ [rk3576PmuClkselCon 8, rk3576ClkselCon 27] ++ uartClks.map UartClkDesc.clksel

theorem fracGet_congr_own {r r' : CruRegs} {i : BitVec 32} {d : UartFracDesc}
    (hd : uartFracs[i.toNat]? = some d)
    (h : ∀ a ∈ [d.div, d.sel], rk3576CruRead r' a = rk3576CruRead r a) :
    rk3576UartFracGet r' i = rk3576UartFracGet r i := by
  simp only [rk3576UartFracGet, hd, h d.div (by simp), h d.sel (by simp)]

theorem fracGet_congr {r r' : CruRegs} (h : ∀ a ∈ fracRegs, rk3576CruRead r' a = rk3576CruRead r a)
    (i : BitVec 32) : rk3576UartFracGet r' i = rk3576UartFracGet r i := by
  cases hd : uartFracs[i.toNat]? with
  | none => simp only [rk3576UartFracGet, hd]
  | some d =>
    exact fracGet_congr_own hd fun a ha =>
      h a (List.mem_flatMap.mpr ⟨d, List.mem_of_getElem? hd, ha⟩)

theorem getUartClk_congr {r r' : CruRegs} {id : BitVec 32}
    (hf : ∀ a ∈ fracRegs, rk3576CruRead r' a = rk3576CruRead r a)
    (hu : ∀ a ∈ uartRegs id, rk3576CruRead r' a = rk3576CruRead r a) :
    rk3576CruGetUartClk r' id = rk3576CruGetUartClk r id := by
  have hrate : ∀ src div, uartRate r' src div = uartRate r src div := fun src div => by
    simp only [uartRate, fracGet_congr hf]
  rw [rk3576CruGetUartClk, rk3576CruGetUartClk]
  by_cases hid : id = 1
  · rw [uartRegs, if_pos hid] at hu
    have h8 := hu (rk3576PmuClkselCon 8) (by simp)
    have h27 := hu (rk3576ClkselCon 27) (by simp)
    simp only [hid, if_true, h8, h27, hrate]
  · rw [uartRegs, if_neg hid] at hu
    simp only [hid, if_false]
    cases hd : rk3576UartDesc id with
    | none => rfl
    | some d =>
      have h := hu d.clksel (by simp [hd])
      simp only [h, hrate]

theorem leaves_uartEnable (id : BitVec 32) :
    Leaves clockRegs fun r => (rk3576CruUartEnable r id).2 := by
  have hall : ∀ d ∈ uartClks, d.pclk.offset ∉ clockRegs ∧ d.sclk.offset ∉ clockRegs := by decide
  by_cases hid : id = 1
  · simp only [rk3576CruUartEnable, hid, if_true]
    exact leaves_comp
      (leaves_comp (leaves_gateEnable (by decide) 13) (leaves_gateEnable (by decide) 5))
      (leaves_gateEnable (by decide) 6)
  · simp only [rk3576CruUartEnable, hid, if_false]
    cases hd : rk3576UartDesc id with
    | none => exact fun r a _ => rfl
    | some d =>
      have h := hall d (List.mem_of_find?_eq_some hd)
      exact leaves_comp (leaves_gateEnable h.1 _) (leaves_gateEnable h.2 _)

theorem leaves_gates {o o' : BitVec 32} (h : o ∉ clockRegs) (h' : o' ∉ clockRegs)
    (b b' : BitVec 32) :
    Leaves clockRegs fun r => rk3576CruGateEnable (rk3576CruGateEnable r o b) o' b' :=
  leaves_comp (leaves_gateEnable h b) (leaves_gateEnable h' b')

theorem leaves_gpioClockEnable (bank : BitVec 32) :
    Leaves clockRegs fun r => (rk3576GpioClockEnable r bank).2 := by
  have h7 : rk3576PmuClkgateCon 7 ∉ clockRegs := by decide
  have h17 : rk3576ClkgateCon 17 ∉ clockRegs := by decide
  have h18 : rk3576ClkgateCon 18 ∉ clockRegs := by decide
  intro r
  simp only [rk3576GpioClockEnable]
  split
  · exact leaves_gates h7 h7 6 7 r
  split
  · exact leaves_gates h17 h18 15 0 r
  split
  · exact leaves_gates h18 h18 1 2 r
  split
  · exact leaves_gates h18 h18 3 4 r
  split
  · exact leaves_gates h18 h18 5 6 r
  · exact fun a _ => rfl

theorem leaves_gmacClockEnable : Leaves clockRegs fun r => (rk3576GmacClockEnable r).2 := by
  have h30 : rk3576ClkselCon 30 ∉ clockRegs := by decide
  have h3 : rk3576ClkgateCon 3 ∉ clockRegs := by decide
  have h42 : rk3576ClkgateCon 42 ∉ clockRegs := by decide
  have hsel :=
    leaves_comp (leaves_hiwordUpdate h30 (0x1f#32 <<< 10) (7#32 <<< 10)) (leaves_gateEnable h3 6)
  exact leaves_comp (leaves_comp hsel (leaves_gates h42 h42 1 7)) (leaves_gates h42 h42 2 9)

theorem leaves_setUartClk {as : List (BitVec 32)} {id : BitVec 32} (h : ∀ a ∈ uartRegs id, a ∉ as)
    (rate : BitVec 32) : Leaves as fun r => (rk3576CruSetUartClk r id rate).2 := by
  intro r
  simp only [rk3576CruSetUartClk]
  split
  · exact fun a _ => rfl
  by_cases hid : id = 1
  · rw [uartRegs, if_pos hid] at h
    have h8 := h (rk3576PmuClkselCon 8) (by simp)
    have h27 := h (rk3576ClkselCon 27) (by simp)
    rw [if_pos hid]
    split
    · exact leaves_hiwordUpdate h8 _ _ r
    · exact leaves_comp (leaves_hiwordUpdate h27 _ _) (leaves_hiwordUpdate h8 _ _) r
  · rw [uartRegs, if_neg hid] at h
    rw [if_neg hid]
    cases hd : rk3576UartDesc id with
    | none => exact fun a _ => rfl
    | some d => exact leaves_hiwordUpdate (h d.clksel (by simp [hd])) _ _ r

theorem uartDesc_none {id : BitVec 32} (h : ¬id < 12) : rk3576UartDesc id = none := by
  have hall : ∀ d ∈ uartClks, d.id.setWidth 32 < 12#32 := by decide
  rw [rk3576UartDesc, List.find?_eq_none]
  intro d hd hid
  have := hall d hd
  rw [beq_iff_eq.mp hid] at this
  exact h this

theorem uartRegs_of_unknown {id : BitVec 32} (h : ¬id < 12) : uartRegs id = [] := by
  have h1 : id ≠ 1 := by
    rintro rfl
    exact h (by decide)
  rw [uartRegs, if_neg h1, uartDesc_none h]
  rfl

theorem forall_id {P : BitVec 32 → Prop} (h : ∀ i : Fin 12, P (BitVec.ofNat 32 i)) {id : BitVec 32}
    (hid : id < 12) :
    P id := by
  have hlt : id.toNat < 12 := by bv_omega
  have := h ⟨id.toNat, hlt⟩
  simpa using this

theorem exists_uartDesc {id : BitVec 32} (hid : id < 12) (h1 : id ≠ 1) :
    ∃ d, rk3576UartDesc id = some d := by
  have h : id ≠ 1 → (rk3576UartDesc id).isSome :=
    forall_id (P := fun id => id ≠ 1 → (rk3576UartDesc id).isSome) (by decide +kernel) hid
  exact Option.isSome_iff_exists.mp (h h1)

theorem uartRegs_not_frac {id a : BitVec 32} (ha : a ∈ uartRegs id) : a ∉ fracRegs := by
  by_cases hid : id < 12
  · have h : (uartRegs id).all fun a => !fracRegs.contains a :=
      forall_id (P := fun id => (uartRegs id).all fun a => !fracRegs.contains a)
        (by decide +kernel) hid
    simpa using List.all_eq_true.mp h a ha
  · simp [uartRegs_of_unknown hid] at ha

theorem uartRegs_disjoint {id id' a : BitVec 32} (hne : id ≠ id') (ha : a ∈ uartRegs id) :
    a ∉ uartRegs id' := by
  by_cases hid : id < 12
  · by_cases hid' : id' < 12
    · have hall : ∀ i j : Fin 12, BitVec.ofNat 32 i ≠ BitVec.ofNat 32 j →
          (uartRegs (BitVec.ofNat 32 i)).all fun a =>
              !(uartRegs (BitVec.ofNat 32 j)).contains a := by
        decide +kernel
      have h :=
        forall_id (P := fun id => id ≠ id' → (uartRegs id).all fun a => !(uartRegs id').contains a)
        (fun i => forall_id (P := fun id' => BitVec.ofNat 32 i ≠ id' →
          (uartRegs (BitVec.ofNat 32 i)).all fun a => !(uartRegs id').contains a)
            (hall i) hid') hid hne
      simpa using List.all_eq_true.mp h a ha
    · simp [uartRegs_of_unknown hid']
  · simp [uartRegs_of_unknown hid] at ha

theorem uartRegs_subset {id a : BitVec 32} (ha : a ∈ uartRegs id) : a ∈ clockRegs := by
  by_cases hid : id < 12
  · have h : (uartRegs id).all fun a => clockRegs.contains a :=
      forall_id (P := fun id => (uartRegs id).all fun a => clockRegs.contains a)
        (by decide +kernel) hid
    simpa using List.all_eq_true.mp h a ha
  · simp [uartRegs_of_unknown hid] at ha

def fracRate : Fin 3 → BitVec 32
  | 0 => 73728000
  | 1 => 96000000
  | 2 => 128000000

def FracsReady (r : CruRegs) : Prop :=
  ∀ i : Fin 3, rk3576UartFracGet r (BitVec.ofNat 32 i) = fracRate i

theorem read_write_whole {r : CruRegs} {o value : BitVec 32} (h : wholeWord o) :
    rk3576CruRead (rk3576CruWrite r o value) o = value := by
  rw [rk3576CruRead, rk3576CruWrite, if_pos h, if_pos h]
  exact Function.update_self o value r.frac

theorem read_field (o : BitVec 32) (sh w : Nat) (hf : sh + w ≤ 16) {r : CruRegs} (hw : ¬wholeWord o)
    {mask mask' value : BitVec 32} (hm : mask = ((1#32 <<< w) - 1) <<< sh)
    (he : mask &&& mask' = mask) :
    (rk3576CruRead (rk3576CruHiwordUpdate r o mask' value) o &&& mask) >>> sh =
      (((value >>> sh).setWidth w).setWidth 16).setWidth 32 := by
  let f : Slot (BitVec 32) := ⟨o, sh, w, hf⟩
  have hfm : f.mask = mask := hm.symm
  have hfe : f.Enabled mask' := Slot.enabled_of_and (by rw [hfm, he])
  rw [rk3576CruRead, rk3576CruHiwordUpdate, rk3576CruWrite, if_neg hw, if_neg hw, ← hfm]
  exact (f.read_eq _).trans (congrArg (BitVec.setWidth 32) (f.get_write r.con hfe))

theorem fracGet_set (r : CruRegs) {i sel num den : BitVec 32} {d : UartFracDesc}
    (hd : uartFracs[i.toNat]? = some d) (hs : sel < 4) :
    rk3576UartFracGet (rk3576UartFracSet r i sel num den) i =
      fracOf (rk3576CruParentRate sel) (fracWord num den) := by
  have hall : ∀ d ∈ uartFracs, wholeWord d.div ∧ ¬wholeWord d.sel ∧ d.div ≠ d.sel ∧
      rk3576ClkgateCon 2 ∉ [d.div, d.sel] := by decide
  obtain ⟨hdiv, hsel, hne, hg⟩ := hall d (List.mem_of_getElem? hd)
  have hcut : ((((sel <<< 0) >>> 0).setWidth 2).setWidth 16).setWidth 32 = sel := by
    have h4 :
      ∀ k : Fin 4, ((((BitVec.ofNat 32 k <<< 0) >>> 0).setWidth 2).setWidth 16).setWidth 32 =
        BitVec.ofNat 32 k := by decide
    have hlt : sel.toNat < 4 := by bv_omega
    simpa using h4 ⟨sel.toNat, hlt⟩
  have hgate := leaves_gateEnable hg (5 + i)
  simp only [rk3576UartFracGet, rk3576UartFracSet, hd]
  rw [hgate _ d.sel (by simp), hgate _ d.div (by simp), read_field d.sel 0 2 (by decide) hsel
    (by decide) (by decide), hcut, rk3576CruHiwordUpdate, read_write_ne hne, read_write_whole hdiv]

theorem fracGet_set_ne (r : CruRegs) {i j : BitVec 32} {d e : UartFracDesc}
    (hd : uartFracs[i.toNat]? = some d)
    (he : uartFracs[j.toNat]? = some e) (hne : d.div ∉ [e.div, e.sel])
    (hne' : d.sel ∉ [e.div, e.sel]) (sel num den : BitVec 32) :
    rk3576UartFracGet (rk3576UartFracSet r i sel num den) j = rk3576UartFracGet r j := by
  have hg : ∀ e ∈ uartFracs, rk3576ClkgateCon 2 ∉ [e.div, e.sel] := by decide
  refine fracGet_congr_own he fun a ha => ?_
  simp only [rk3576UartFracSet, hd]
  rw [leaves_gateEnable (hg e (List.mem_of_getElem? he)) _ _ a ha,
    leaves_hiwordUpdate hne' _ _ _ a ha]
  refine read_write_ne ?_
  rintro rfl
  exact hne ha

theorem fracsReady_init (r : CruRegs) : FracsReady (rk3576CruInit r) := by
  intro i
  rw [rk3576CruInit]
  match i with
  | 0 =>
    refine (fracGet_set_ne _ rfl rfl (by decide) (by decide) _ _ _).trans
      ((fracGet_set_ne _ rfl rfl (by decide) (by decide) _ _ _).trans ?_)
    exact (fracGet_set _ rfl (by decide)).trans (by decide)
  | 1 =>
    refine (fracGet_set_ne _ rfl rfl (by decide) (by decide) _ _ _).trans ?_
    exact (fracGet_set _ rfl (by decide)).trans (by decide)
  | 2 => exact (fracGet_set _ rfl (by decide)).trans (by decide)

end Rk3576.Clock
