import Rk3576.Clock.Tree

/-! The rate that `rk3576_cru_set_uart_clk` reaches: which source and divider it ends with, and
when that is the rate asked for. -/
namespace Rk3576.Clock

theorem uartDiv_bounds (parent rate : BitVec 32) :
    1 ≤ (uartDiv parent rate).toNat ∧ (uartDiv parent rate).toNat ≤ 256 := by
  rw [uartDiv]
  generalize (parent + rate - 1) / rate = div
  split
  · decide
  · split
    · decide
    · bv_omega

theorem uartDiv_pred (parent rate : BitVec 32) : (uartDiv parent rate - 1).toNat < 256 ∧
      uartDiv parent rate - 1 + 1 = uartDiv parent rate := by
  have h := uartDiv_bounds parent rate
  exact ⟨by bv_omega, by bv_omega⟩

def uartSources (r : CruRegs) : List (BitVec 32 × BitVec 32) :=
  [(uartSelGpll, rk3576GpllHz), (uartSelCpll, rk3576CpllHz), (uartSelFrac0, rk3576UartFracGet r 0),
   (uartSelFrac1, rk3576UartFracGet r 1), (uartSelFrac2, rk3576UartFracGet r 2),
   (uartSelOsc, rk3576OscHz)]

theorem uartSource_mem (r : CruRegs) (rate : BitVec 32) : uartSource r rate ∈ uartSources r := by
  simp only [uartSource, uartSources]
  split
  · simp
  split
  · simp
  split
  · simp
  split
  · simp
  split
  · simp
  split <;> simp

theorem osc_of_mem {r : CruRegs} {x : BitVec 32 × BitVec 32} (hx : x ∈ uartSources r)
    (h : x.1 = uartSelOsc) :
    x.2 = rk3576OscHz := by
  simp only [uartSources, List.mem_cons, List.not_mem_nil, or_false] at hx
  rcases hx with rfl | rfl | rfl | rfl | rfl | rfl
  · cases h
  · cases h
  · cases h
  · cases h
  · cases h
  · rfl

theorem uartRate_of_mem {r r' : CruRegs} (hf : ∀ i, rk3576UartFracGet r' i = rk3576UartFracGet r i)
    {x : BitVec 32 × BitVec 32} (hx : x ∈ uartSources r) (div : BitVec 32) :
    x.1.toNat < 8 ∧ uartRate r' x.1 div = x.2 / (div + 1) := by
  simp only [uartSources, List.mem_cons, List.not_mem_nil, or_false] at hx
  rcases hx with rfl | rfl | rfl | rfl | rfl | rfl
  · exact ⟨by decide, rfl⟩
  · exact ⟨by decide, rfl⟩
  · exact ⟨(by decide : uartSelFrac0.toNat < 8), congrArg (· / (div + 1)) (hf 0)⟩
  · exact ⟨(by decide : uartSelFrac1.toNat < 8), congrArg (· / (div + 1)) (hf 1)⟩
  · exact ⟨(by decide : uartSelFrac2.toNat < 8), congrArg (· / (div + 1)) (hf 2)⟩
  · exact ⟨by decide, rfl⟩

theorem word_toNat {src div : BitVec 32} (hs : src.toNat < 8) (hd : div.toNat < 256)
    {k : Nat} (hk : k ≤ 5) :
    ((src <<< (k + 8)) ||| (div <<< k)).toNat = (src.toNat * 256 + div.toNat) * 2 ^ k := by
  have hpow : 2 ^ (k + 8) ≤ 2 ^ 13 := Nat.pow_le_pow_right (by decide) (by omega)
  have hlow : div.toNat * 2 ^ k < 2 ^ (k + 8) := by
    rw [Nat.pow_add, Nat.mul_comm (2 ^ k)]
    exact Nat.mul_lt_mul_of_pos_right hd (Nat.two_pow_pos k)
  have hhigh : src.toNat * 2 ^ (k + 8) < 2 ^ 32 :=
    calc src.toNat * 2 ^ (k + 8) ≤ 8 * 2 ^ 13 := Nat.mul_le_mul (by omega) hpow
      _ < 2 ^ 32 := by decide
  have hlow' : div.toNat * 2 ^ k < 2 ^ 32 := by omega
  rw [BitVec.toNat_or, BitVec.toNat_shiftLeft, BitVec.toNat_shiftLeft, Nat.shiftLeft_eq,
    Nat.shiftLeft_eq, Nat.mod_eq_of_lt hhigh, Nat.mod_eq_of_lt hlow', ← Nat.shiftLeft_eq src.toNat,
    ← Nat.shiftLeft_add_eq_or_of_lt hlow, Nat.shiftLeft_eq, Nat.pow_add, Nat.mul_comm (2 ^ k),
    ← Nat.mul_assoc,
    ← Nat.add_mul]

theorem fields_of_word {src div : BitVec 32} (hs : src.toNat < 8) (hd : div.toNat < 256)
    {k : Nat} (hk : k ≤ 5) :
    (((((src <<< (k + 8)) ||| (div <<< k)) >>> (k + 8)).setWidth 3).setWidth 16).setWidth 32 = src ∧
      (((((src <<< (k + 8)) ||| (div <<< k)) >>> k).setWidth 8).setWidth 16).setWidth 32 = div := by
  have hw := word_toNat hs hd hk
  have hmid : (src.toNat * 256 + div.toNat) * 2 ^ k / 2 ^ k = src.toNat * 256 + div.toNat :=
    Nat.mul_div_cancel _ (Nat.two_pow_pos k)
  constructor
  · apply BitVec.eq_of_toNat_eq
    simp only [BitVec.toNat_setWidth, BitVec.toNat_ushiftRight, hw, Nat.shiftRight_eq_div_pow,
      Nat.pow_add, ← Nat.div_div_eq_div_mul, hmid]
    omega
  · apply BitVec.eq_of_toNat_eq
    simp only [BitVec.toNat_setWidth, BitVec.toNat_ushiftRight, hw, Nat.shiftRight_eq_div_pow, hmid]
    omega

theorem getUartClk_written (r : CruRegs) {id : BitVec 32} (h1 : id ≠ 1) {d : UartClkDesc}
    (hd : rk3576UartDesc id = some d) {x : BitVec 32 × BitVec 32} (hx : x ∈ uartSources r)
    {div : BitVec 32} (hdiv : div.toNat < 256) :
    rk3576CruGetUartClk (rk3576CruHiwordUpdate r d.clksel ((0x7#32 <<< 8) ||| (0xff#32 <<< 0))
      ((x.1 <<< 8) ||| (div <<< 0))) id = x.2 / (div + 1) := by
  have hall : ∀ d ∈ uartClks, ¬wholeWord d.clksel ∧ d.clksel ∉ fracRegs := by decide
  obtain ⟨hw, hnf⟩ := hall d (List.mem_of_find?_eq_some hd)
  obtain ⟨hsrc, hrate⟩ := uartRate_of_mem (fracGet_congr (leaves_hiwordUpdate hnf _ _ r)) hx div
  have hword := fields_of_word hsrc hdiv (k := 0) (by decide)
  simp only [Nat.reduceAdd] at hword
  simp only [rk3576CruGetUartClk, h1, if_false, hd]
  rw [read_field d.clksel 8 3 (by decide) hw (by decide) (by decide), hword.1,
    read_field d.clksel 0 8 (by decide) hw (by decide) (by decide), hword.2]
  exact hrate

theorem read_uart1Sel (r : CruRegs) (v : BitVec 32) :
    (rk3576CruRead (rk3576CruHiwordUpdate r (rk3576PmuClkselCon 8) (0x1#32 <<< 0) v)
      (rk3576PmuClkselCon 8) &&&
      (0x1#32 <<< 0)) >>> 0 = (((v >>> 0).setWidth 1).setWidth 16).setWidth 32 :=
  read_field (rk3576PmuClkselCon 8) 0 1 (by decide) (by decide) (by decide) (by decide)

theorem getUartClk_written_one (r : CruRegs) {x : BitVec 32 × BitVec 32} (hx : x ∈ uartSources r)
    {div : BitVec 32} (hdiv : div.toNat < 256) :
    rk3576CruGetUartClk (rk3576CruHiwordUpdate (rk3576CruHiwordUpdate r (rk3576ClkselCon 27)
      ((0x7#32 <<< 13) ||| (0xff#32 <<< 5)) ((x.1 <<< 13) ||| (div <<< 5)))
      (rk3576PmuClkselCon 8) (0x1#32 <<< 0) (0#32 <<< 0)) 1 = x.2 / (div + 1) := by
  have h8 : rk3576PmuClkselCon 8 ∉ rk3576ClkselCon 27 :: fracRegs := by decide
  have h27 : rk3576ClkselCon 27 ∉ fracRegs := by decide
  have hw : ¬wholeWord (rk3576ClkselCon 27) := by decide
  have hleft := leaves_hiwordUpdate h8 (0x1#32 <<< 0) (0#32 <<< 0)
  have hfrac := leaves_comp
    (leaves_hiwordUpdate h27 ((0x7#32 <<< 13) ||| (0xff#32 <<< 5)) ((x.1 <<< 13) ||| (div <<< 5)))
    (fun r a ha => hleft r a (List.mem_cons_of_mem _ ha))
  obtain ⟨hsrc, hrate⟩ := uartRate_of_mem (fracGet_congr (hfrac r)) hx div
  have hword := fields_of_word hsrc hdiv (k := 5) (by decide)
  simp only [Nat.reduceAdd] at hword
  have hsel :
    (((((0#32 <<< 0) >>> 0).setWidth 1).setWidth 16).setWidth 32 : BitVec 32) ≠ 1 := by decide
  rw [rk3576CruGetUartClk, if_pos rfl]
  simp only [read_uart1Sel]
  rw [if_neg hsel, hleft _ _ List.mem_cons_self,
    read_field (rk3576ClkselCon 27) 13 3 (by decide) hw (by decide) (by decide), hword.1,
    read_field (rk3576ClkselCon 27) 5 8 (by decide) hw (by decide) (by decide), hword.2]
  exact hrate

theorem getUartClk_osc_one (r : CruRegs) :
    rk3576CruGetUartClk
      (rk3576CruHiwordUpdate r (rk3576PmuClkselCon 8) (0x1#32 <<< 0) (1#32 <<< 0)) 1 =
      rk3576OscHz := by
  have hsel :
    (((((1#32 <<< 0) >>> 0).setWidth 1).setWidth 16).setWidth 32 : BitVec 32) = 1 := by decide
  rw [rk3576CruGetUartClk, if_pos rfl]
  simp only [read_uart1Sel]
  rw [if_pos hsel]

theorem setUartClk_value (r : CruRegs) {id rate : BitVec 32} (hid : id < 12) (hr : rate ≠ 0) :
    (rk3576CruSetUartClk r id rate).1 =
      (uartSource r rate).2 / uartDiv (uartSource r rate).2 rate := by
  have hx := uartSource_mem r rate
  obtain ⟨hlt, hsucc⟩ := uartDiv_pred (uartSource r rate).2 rate
  simp only [rk3576CruSetUartClk, hr, if_false]
  by_cases h1 : id = 1
  · subst h1
    rw [if_pos rfl]
    split
    · rename_i hosc
      rw [hosc.2, osc_of_mem hx hosc.1]
      exact getUartClk_osc_one r
    · rw [getUartClk_written_one r hx hlt, hsucc]
  · obtain ⟨d, hd⟩ := exists_uartDesc hid h1
    simp only [h1, if_false, hd]
    rw [getUartClk_written r h1 hd hx hlt, hsucc]

/-- GPLL, CPLL, the three fractional clocks and the oscillator, in the order of the code. -/
def uartParents : List Nat := [1188000000, 1000000000, 73728000, 96000000, 128000000, 24000000]

def firstMultiple (rate : Nat) : Option Nat := uartParents.find? fun p => p % rate == 0

theorem umod_eq_zero (x rate : BitVec 32) : x % rate = 0 ↔ x.toNat % rate.toNat = 0 := by
  rw [← BitVec.toNat_inj, BitVec.toNat_umod]
  rfl

theorem uartSource_eq_find {r : CruRegs} (hf : FracsReady r) (rate : BitVec 32) :
    uartSource r rate =
      ((uartSources r).find? fun x => x.2 % rate == 0).getD (uartSelOsc, rk3576OscHz) := by
  have h0 : rk3576UartFracGet r 0 ≠ 0 := by
    rw [show rk3576UartFracGet r 0 = 73728000 from hf 0]; decide
  have h1 : rk3576UartFracGet r 1 ≠ 0 := by
    rw [show rk3576UartFracGet r 1 = 96000000 from hf 1]; decide
  have h2 : rk3576UartFracGet r 2 ≠ 0 := by
    rw [show rk3576UartFracGet r 2 = 128000000 from hf 2]; decide
  have hcons : ∀ (x : BitVec 32 × BitVec 32) (xs : List (BitVec 32 × BitVec 32)),
      ((x :: xs).find? fun x => x.2 % rate == 0).getD (uartSelOsc, rk3576OscHz) =
        if x.2 % rate = 0 then x
        else (xs.find? fun x => x.2 % rate == 0).getD (uartSelOsc, rk3576OscHz) := by
    intro x xs
    by_cases hx : x.2 % rate = 0
    · rw [List.find?_cons, beq_iff_eq.mpr hx, if_pos hx]
      rfl
    · rw [List.find?_cons, beq_eq_false_iff_ne.mpr hx, if_neg hx]
  simp only [uartSource, uartSources, hcons, List.find?_nil, Option.getD_none]
  simp only [h0, h1, h2, ne_eq, not_false_eq_true, true_and]

theorem uartSource_parent {r : CruRegs} (hf : FracsReady r) (rate : BitVec 32) :
    (uartSource r rate).2.toNat = (firstMultiple rate.toNat).getD 24000000 := by
  have h0 : rk3576UartFracGet r 0 = 73728000 := hf 0
  have h1 : rk3576UartFracGet r 1 = 96000000 := hf 1
  have h2 : rk3576UartFracGet r 2 = 128000000 := hf 2
  have hmap : uartParents = (uartSources r).map fun x => x.2.toNat := by
    rw [uartSources, h0, h1, h2]
    decide
  have hpred : (fun x : BitVec 32 × BitVec 32 => x.2 % rate == 0) =
      (fun p => p % rate.toNat == 0) ∘ fun x => x.2.toNat := by
    funext x
    rw [Bool.eq_iff_iff, beq_iff_eq, umod_eq_zero]
    exact beq_iff_eq.symm
  rw [uartSource_eq_find hf, firstMultiple, hmap, List.find?_map, hpred]
  cases (uartSources r).find? ((fun p => p % rate.toNat == 0) ∘ fun x => x.2.toNat) with
  | none => rfl
  | some x => rfl

/-- The divider in natural numbers: a sum that wraps belongs to a rate above its source, and then
both sides are 1. -/
theorem uartDiv_toNat {parent rate : BitVec 32} (hp : 0 < parent.toNat)
    (hlt : parent.toNat < 2 ^ 31) (hr : 0 < rate.toNat) :
    (uartDiv parent rate).toNat = min 256 ((parent.toNat + rate.toNat - 1) / rate.toNat) := by
  have hdiv : ((parent + rate - 1) / rate).toNat =
      (parent.toNat + rate.toNat - 1) % 2 ^ 32 / rate.toNat := by
    rw [BitVec.toNat_udiv]
    congr 1
    bv_omega
  rw [uartDiv]
  generalize (parent + rate - 1) / rate = div at hdiv
  have hz : div = 0 ↔ div.toNat = 0 := BitVec.toNat_inj.symm
  have hg : div > 256 ↔ div.toNat > 256 := Iff.rfl
  simp only [hz, hg]
  by_cases hwrap : parent.toNat + rate.toNat - 1 < 2 ^ 32
  · rw [Nat.mod_eq_of_lt hwrap] at hdiv
    have hpos : 0 < div.toNat := hdiv ▸ Nat.div_pos (by omega) hr
    rw [← hdiv, if_neg (by omega)]
    split
    · rw [min_eq_left (by omega)]
      rfl
    · rw [min_eq_right (by omega)]
  · have hmod :
      (parent.toNat + rate.toNat - 1) % 2 ^ 32 = parent.toNat + rate.toNat - 1 - 2 ^ 32 := by omega
    have hsmall : div.toNat = 0 := by
      rw [hdiv, hmod]
      exact Nat.div_eq_of_lt (by omega)
    have hone : (parent.toNat + rate.toNat - 1) / rate.toNat = 1 :=
      Nat.div_eq_of_lt_le (by omega) (by omega)
    rw [if_pos hsmall, hone]
    rfl

theorem firstMultiple_mem {n p : Nat} (h : firstMultiple n = some p) :
    p ∈ uartParents ∧ p % n = 0 :=
  ⟨List.mem_of_find?_eq_some h, by simpa using List.find?_some h⟩

theorem uartParents_bounds {p : Nat} (h : p ∈ uartParents) : 0 < p ∧ p < 2 ^ 31 ∧ p % 256 = 0 := by
  have hall : ∀ p ∈ uartParents, 0 < p ∧ p < 2 ^ 31 ∧ p % 256 = 0 := by decide
  exact hall p h

theorem firstMultiple_getD_mem (n : Nat) : (firstMultiple n).getD 24000000 ∈ uartParents := by
  cases h : firstMultiple n with
  | none => decide
  | some p => exact (firstMultiple_mem h).1

theorem setUartClk_toNat {r : CruRegs} (hf : FracsReady r) {id rate : BitVec 32} (hid : id < 12)
    (hr : rate ≠ 0) :
    let p := (firstMultiple rate.toNat).getD 24000000
    (rk3576CruSetUartClk r id rate).1.toNat = p / min 256 ((p + rate.toNat - 1) / rate.toNat) := by
  intro p
  have hparent : (uartSource r rate).2.toNat = p := uartSource_parent hf rate
  obtain ⟨hpos, hlt, -⟩ := uartParents_bounds (firstMultiple_getD_mem rate.toNat)
  have hrate : 0 < rate.toNat := by
    rw [Nat.pos_iff_ne_zero]
    exact fun h => hr (BitVec.toNat_inj.mp h)
  rw [setUartClk_value r hid hr, BitVec.toNat_udiv,
    uartDiv_toNat (hparent ▸ hpos) (hparent ▸ hlt) hrate, hparent]

theorem setUartClk_bounds {r : CruRegs} (hf : FracsReady r) {id rate : BitVec 32} (hid : id < 12)
    (hr : rate ≠ 0) :
    0 < (rk3576CruSetUartClk r id rate).1.toNat ∧
    (rk3576CruSetUartClk r id rate).1.toNat ≤ 1188000000 := by
  have hall : ∀ p ∈ uartParents, 256 ≤ p ∧ p ≤ 1188000000 := by decide
  obtain ⟨hlow, hhigh⟩ := hall _ (firstMultiple_getD_mem rate.toNat)
  have hrate : 0 < rate.toNat := by
    rw [Nat.pos_iff_ne_zero]
    exact fun h => hr (BitVec.toNat_inj.mp h)
  rw [setUartClk_toNat hf hid hr]
  generalize (firstMultiple rate.toNat).getD 24000000 = p at hlow hhigh
  have hq : 0 < (p + rate.toNat - 1) / rate.toNat := Nat.div_pos (by omega) hrate
  exact ⟨Nat.div_pos (by omega) (by omega), (Nat.div_le_self _ _).trans hhigh⟩

/-- One of the sources over a divider of 1 to 256 is the rate exactly. -/
def ExactSource (rate : Nat) : Prop := ∃ p ∈ uartParents, ∃ d, 1 ≤ d ∧ d ≤ 256 ∧ p = d * rate

theorem exactSource_firstMultiple {n : Nat} (h : ExactSource n) :
    ∃ p, firstMultiple n = some p := by
  obtain ⟨p, hp, d, -, -, rfl⟩ := h
  cases hf : firstMultiple n with
  | some p => exact ⟨p, rfl⟩
  | none =>
    have := List.find?_eq_none.mp hf (d * n) hp
    simp at this

theorem divided_exactly_iff {p n : Nat} (hn : 0 < n) (hp : 0 < p) (h256 : p % 256 = 0)
    (hm : p % n = 0) :
    p / min 256 ((p + n - 1) / n) = n ↔ p ≤ 256 * n := by
  obtain ⟨k, rfl⟩ := Nat.dvd_of_mod_eq_zero hm
  have hceil : (n * k + n - 1) / n = k := by
    have hsum : n * k + n - 1 = (n - 1) + n * k := by omega
    rw [hsum, Nat.add_mul_div_left _ _ hn, Nat.div_eq_of_lt (by omega), Nat.zero_add]
  have hk : 0 < k := Nat.pos_of_mul_pos_left hp
  rw [hceil, Nat.mul_comm 256 n]
  by_cases hle : k ≤ 256
  · rw [min_eq_right hle, Nat.mul_div_cancel n hk]
    exact iff_of_true rfl (Nat.mul_le_mul_left n hle)
  · have hgt : n * 256 < n * k := Nat.mul_lt_mul_of_pos_left (by omega) hn
    rw [min_eq_left (by omega)]
    refine iff_of_false (fun h => ?_) (by omega)
    have := Nat.div_add_mod (n * k) 256
    rw [h, h256] at this
    omega

/-- After `rk3576_cru_init` and any calls: a rate that some source can give exactly is reached if
and only if the first source it divides, in the order of the code, is within the divider's reach. -/
theorem setUartClk_exact_iff (r : CruRegs) (cs : List CruCall) (id rate : BitVec 32) (hid : id < 12)
    (hr : rate ≠ 0) :
    (ExactSource rate.toNat →
      (rk3576CruSetUartClk (cruRun (rk3576CruInit r) cs) id rate).1 = rate) ↔
      (ExactSource rate.toNat → ∀ p, firstMultiple rate.toNat = some p → p ≤ 256 * rate.toNat) := by
  refine forall_congr' fun hex => ?_
  have hn : 0 < rate.toNat := by
    rw [Nat.pos_iff_ne_zero]
    exact fun h => hr (BitVec.toNat_inj.mp h)
  obtain ⟨p, hp⟩ := exactSource_firstMultiple hex
  obtain ⟨hmem, hmod⟩ := firstMultiple_mem hp
  obtain ⟨hpos, -, h256⟩ := uartParents_bounds hmem
  have hval := setUartClk_toNat (fracsReady_run (fracsReady_init r) cs) hid hr
  simp only [hp, Option.getD_some] at hval
  rw [← BitVec.toNat_inj, hval, divided_exactly_iff hn hpos h256 hmod]
  simp [hp]

/-- 4 MHz is the CPLL over 250, but it divides the GPLL too, which comes first and ends, with
the divider held to 256, at 4640625 Hz. -/
theorem setUartClk_misses_exact :
    let s := cruRun (rk3576CruInit ⟨fun _ => 0, fun _ => 0⟩) []
    ExactSource (4000000 : BitVec 32).toNat ∧ (rk3576CruSetUartClk s 0 4000000).1 = 4640625 ∧
      ¬(ExactSource (4000000 : BitVec 32).toNat →
          (rk3576CruSetUartClk s 0 4000000).1 = 4000000) := by
  intro s
  have hex : ExactSource (4000000 : BitVec 32).toNat := ⟨1000000000, by decide, 250, by decide⟩
  have hval : (rk3576CruSetUartClk s 0 4000000).1 = 4640625 := by decide +kernel
  refine ⟨hex, hval, fun h => ?_⟩
  have := hval.symm.trans (h hex)
  revert this
  decide

/-- 16 times 921600 baud: the fractional clock at 73.728 MHz is the first source it divides. -/
theorem setUartClk_exact_921600 :
    (rk3576CruSetUartClk (cruRun (rk3576CruInit ⟨fun _ => 0, fun _ => 0⟩) []) 7 14745600).1 =
      14745600 := by
  refine (setUartClk_exact_iff ⟨fun _ => 0, fun _ => 0⟩ [] 7 14745600
    (by decide) (by decide)).mpr ?_
    ⟨73728000, by decide, 5, by decide⟩
  intro _ p hp
  have hfirst : firstMultiple (14745600 : BitVec 32).toNat = some 73728000 := by decide
  have heq : p = 73728000 := Option.some.inj (hp.symm.trans hfirst)
  subst heq
  decide

end Rk3576.Clock
