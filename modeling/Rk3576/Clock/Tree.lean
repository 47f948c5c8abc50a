import Rk3576.Clock.Cru

/-! The clock tree over sequences of calls: each UART keeps the rate of its own last setting, and
the fractional clocks they share keep theirs. -/
namespace Rk3576.Clock
open Rk3576.Gmac (RtErr)

inductive CruCall where
  | setUartClk (id rate : BitVec 32)
  | uartEnable (id : BitVec 32)
  | gpioClockEnable (bank : BitVec 32)
  | gmacClockEnable

def cruCall (r : CruRegs) : CruCall → CruRegs
  | .setUartClk id rate => (rk3576CruSetUartClk r id rate).2
  | .uartEnable id => (rk3576CruUartEnable r id).2
  | .gpioClockEnable bank => (rk3576GpioClockEnable r bank).2
  | .gmacClockEnable => (rk3576GmacClockEnable r).2

def cruRun (r : CruRegs) : List CruCall → CruRegs
  | [] => r
  | c :: cs => cruRun (cruCall r c) cs

/-- The call sets the clock of this UART: its id and a rate other than 0. -/
def CruCall.Sets (id : BitVec 32) : CruCall → Prop
  | .setUartClk id' rate => id' = id ∧ rate ≠ 0
  | _ => False

instance (id : BitVec 32) (c : CruCall) : Decidable (c.Sets id) :=
  match c with
  | .setUartClk id' rate => inferInstanceAs (Decidable (id' = id ∧ rate ≠ 0))
  | .uartEnable _ => isFalse not_false
  | .gpioClockEnable _ => isFalse not_false
  | .gmacClockEnable => isFalse not_false

def cruReturns (r : CruRegs) : CruCall → BitVec 32
  | .setUartClk id rate => (rk3576CruSetUartClk r id rate).1
  | _ => 0

def lastReturned (id : BitVec 32) (r : CruRegs) : List CruCall → Option (BitVec 32)
  | [] => none
  | c :: cs =>
    (lastReturned id (cruCall r c) cs).or (if c.Sets id then some (cruReturns r c) else none)

theorem leaves_frac (c : CruCall) : Leaves fracRegs fun r => cruCall r c := by
  have hsub : ∀ {f}, Leaves clockRegs f → Leaves fracRegs f := fun hf r a ha =>
    hf r a (List.mem_append_left _ (List.mem_append_left _ ha))
  cases c with
  | setUartClk id rate => exact leaves_setUartClk (fun a ha => uartRegs_not_frac ha) rate
  | uartEnable id => exact hsub (leaves_uartEnable id)
  | gpioClockEnable bank => exact hsub (leaves_gpioClockEnable bank)
  | gmacClockEnable => exact hsub leaves_gmacClockEnable

theorem setUartClk_zero (r : CruRegs) (id : BitVec 32) : rk3576CruSetUartClk r id 0 = (0, r) := rfl

theorem setUartClk_unknown (r : CruRegs) {id : BitVec 32} (h : ¬id < 12) (rate : BitVec 32) :
    rk3576CruSetUartClk r id rate = (0, r) := by
  have h1 : id ≠ 1 := by
    rintro rfl
    exact h (by decide)
  simp only [rk3576CruSetUartClk, h1, uartDesc_none h, if_false]
  split <;> rfl

theorem leaves_uart {id : BitVec 32} {c : CruCall} (h : ¬c.Sets id) (r : CruRegs) :
    ∀ a ∈ uartRegs id, rk3576CruRead (cruCall r c) a = rk3576CruRead r a := by
  have hsub : ∀ {f}, Leaves clockRegs f → Leaves (uartRegs id) f :=
    fun hf r a ha => hf r a (uartRegs_subset ha)
  cases c with
  | setUartClk id' rate =>
    by_cases hid : id' = id
    · have h0 : rate = 0 := not_not.mp fun h0 => h ⟨hid, h0⟩
      intro a _
      rw [h0]
      rfl
    · exact leaves_setUartClk (fun a ha => uartRegs_disjoint hid ha) rate r
  | uartEnable id => exact hsub (leaves_uartEnable id) r
  | gpioClockEnable bank => exact hsub (leaves_gpioClockEnable bank) r
  | gmacClockEnable => exact hsub leaves_gmacClockEnable r

theorem getUartClk_frame {id : BitVec 32} {c : CruCall} (h : ¬c.Sets id) (r : CruRegs) :
    rk3576CruGetUartClk (cruCall r c) id = rk3576CruGetUartClk r id :=
  getUartClk_congr (leaves_frac c r) (leaves_uart h r)

theorem getUartClk_set {id rate : BitVec 32} (hid : id < 12) (hr : rate ≠ 0) (r : CruRegs) :
    rk3576CruGetUartClk (rk3576CruSetUartClk r id rate).2 id =
      (rk3576CruSetUartClk r id rate).1 := by
  simp only [rk3576CruSetUartClk, hr, if_false]
  by_cases h1 : id = 1
  · rw [if_pos h1]
    split <;> rfl
  · rw [if_neg h1]
    obtain ⟨d, hd⟩ := exists_uartDesc hid h1
    rw [hd]

theorem getUartClk_run {id : BitVec 32} (hid : id < 12) (r : CruRegs) (cs : List CruCall) :
    rk3576CruGetUartClk (cruRun r cs) id =
      (lastReturned id r cs).getD (rk3576CruGetUartClk r id) := by
  induction cs generalizing r with
  | nil => rfl
  | cons c cs ih =>
    rw [cruRun, ih, lastReturned]
    cases h : lastReturned id (cruCall r c) cs with
    | some v => rfl
    | none =>
      rw [Option.getD_none, Option.none_or]
      by_cases hc : c.Sets id
      · rw [if_pos hc, Option.getD_some]
        cases c with
        | setUartClk id' rate =>
          obtain ⟨rfl, hr⟩ := hc
          exact getUartClk_set hid hr r
        | _ => exact hc.elim
      · rw [if_neg hc, Option.getD_none, getUartClk_frame hc]

theorem fracsReady_run {r : CruRegs} (h : FracsReady r) (cs : List CruCall) :
    FracsReady (cruRun r cs) := by
  induction cs generalizing r with
  | nil => exact h
  | cons c cs ih => exact ih fun i => (fracGet_congr (leaves_frac c r) _).trans (h i)

/-- After `rk3576_cru_init` and any calls: every UART's rate is what the last call that set it
returned, or what it was; the fractional clocks run at their three rates; the next call leaves
every UART it does not set; and a call with an unknown id or rate 0 returns 0 and writes nothing. -/
theorem cruRun_coherent (r : CruRegs) (cs : List CruCall) :
    let r₀ := rk3576CruInit r
    let s := cruRun r₀ cs
    (∀ id : BitVec 32, id < 12 →
      rk3576CruGetUartClk s id = (lastReturned id r₀ cs).getD (rk3576CruGetUartClk r₀ id)) ∧
    (∀ (id : BitVec 32) (c : CruCall), ¬c.Sets id →
      rk3576CruGetUartClk (cruCall s c) id = rk3576CruGetUartClk s id) ∧
    (∀ id rate : BitVec 32, ¬id < 12 ∨ rate = 0 → rk3576CruSetUartClk s id rate = (0, s)) ∧
    rk3576UartFracGet s 0 = 73728000 ∧ rk3576UartFracGet s 1 = 96000000 ∧
    rk3576UartFracGet s 2 = 128000000 := by
  intro r₀ s
  have hf : FracsReady s := fracsReady_run (fracsReady_init r) cs
  refine ⟨fun id hid => getUartClk_run hid r₀ cs, fun id c hc => getUartClk_frame hc s,
    ?_, hf 0, hf 1, hf 2⟩
  rintro id rate (hid | rfl)
  · exact setUartClk_unknown s hid rate
  · exact setUartClk_zero s id

end Rk3576.Clock
