import Rk3576.Clock.Cru
import Rk3576.Pin.Gpio
import Rk3576.Gmac.Bringup
import Rk3576.Gmac.Power

/-! `gmac_hw_init`: clocks, power, pins, resets and the PHY, with every early return. -/
namespace Rk3576.Gmac
open Rk3576.Clock Rk3576.Pin Rk3576.Poll

def gmacMdioAddress : Nat := 0x0200
def gmacMdioData : Nat := 0x0204
def dmaMode : Nat := 0x1000
def gmacMdioBusy : BitVec 32 := gmacBit 0
def dmaModeSwr : BitVec 32 := gmacBit 0
def gmacMdioGocRead : BitVec 32 := 3
def gmacMdioGocWrite : BitVec 32 := 1
def yt8521sPhyAddr : BitVec 32 := 0
def phyBmcr : BitVec 32 := 0x00
def phyId1 : BitVec 32 := 0x02
def phyId2 : BitVec 32 := 0x03
def phyBmcrAnEnable : BitVec 32 := gmacBit 12
def phyBmcrAnRestart : BitVec 32 := gmacBit 9
def vccioIocMiscCon2 : BitVec 32 := 0x6408
def gmac0TxDelay : BitVec 32 := 0x1b
def pinHigh : BitVec 64 := 1

def gmac0PhyResetPin : BitVec 64 := 0 * 32 + rkPc2.setWidth 64

/-- `mmio n offset` is what the `n`-th `gmac_read` finds at `offset`. -/
structure GmacHw extends PmuHw where
  mmio : Nat → Nat → BitVec 32

/-- What `gmac_hw_init` works on: the device, the control registers of PMU and CRU, the pins,
and SDGMAC_GRF_GMAC0_CON. `reads` counts the calls of `gmac_read`. -/
structure GmacBoard where
  dev : GmacDev
  pmu : Nat → BitVec 16
  cru : CruRegs
  pins : GpioState
  con : BitVec 16
  reads : Nat

def GmacBoard.read (hw : GmacHw) (b : GmacBoard) (offset : Nat) : BitVec 32 × GmacBoard :=
  (hw.mmio b.reads offset, { b with reads := b.reads + 1 })

def GmacBoard.write (b : GmacBoard) (offset : Nat) (value : BitVec 32) : GmacBoard :=
  { b with dev := gmacWrite b.dev offset value }

/-- The counted loops of the driver: at most `count` reads until `bit` is clear. -/
def waitClear (hw : GmacHw) (offset : Nat) (bit : BitVec 32) : Nat → GmacBoard → RtErr × GmacBoard
  | 0, b => (.etimeout, b)
  | count + 1, b =>
    let r := b.read hw offset
    if r.1 &&& bit = 0 then (.eok, r.2) else waitClear hw offset bit count r.2

def gmacMdioWaitIdle (hw : GmacHw) (b : GmacBoard) : RtErr × GmacBoard :=
  waitClear hw gmacMdioAddress gmacMdioBusy 1000000 b

def gmacMdioCommand (phy reg goc : BitVec 32) : BitVec 32 :=
  phy <<< 21 ||| reg <<< 16 ||| 1#32 <<< 8 ||| goc <<< 2 ||| gmacMdioBusy

/-- `none` is a negative result. -/
def gmacMdioRead (hw : GmacHw) (phy reg : BitVec 32) (b : GmacBoard) :
    Option (BitVec 32) × GmacBoard :=
  let w := gmacMdioWaitIdle hw b
  if w.1 ≠ .eok then (none, w.2)
  else
    let w := gmacMdioWaitIdle hw
      (w.2.write gmacMdioAddress (gmacMdioCommand phy reg gmacMdioGocRead))
    if w.1 ≠ .eok then (none, w.2)
    else
      let r := w.2.read hw gmacMdioData
      (some (r.1 &&& 0xffff), r.2)

def gmacMdioWrite (hw : GmacHw) (phy reg : BitVec 32) (data : BitVec 16) (b : GmacBoard) :
    RtErr × GmacBoard :=
  let w := gmacMdioWaitIdle hw b
  if w.1 ≠ .eok then (.etimeout, w.2)
  else
    let b := w.2.write gmacMdioData (data.setWidth 32)
    gmacMdioWaitIdle hw (b.write gmacMdioAddress (gmacMdioCommand phy reg gmacMdioGocWrite))

def yt8521sInit (hw : GmacHw) (b : GmacBoard) : RtErr × GmacBoard :=
  let id1 := gmacMdioRead hw yt8521sPhyAddr phyId1 b
  let id2 := gmacMdioRead hw yt8521sPhyAddr phyId2 id1.2
  if id1.1 = none ∨ id2.1 = none ∨ (id1.1 = some 0xffff ∧ id2.1 = some 0xffff) then (.eio, id2.2)
  else
    let bmcr := gmacMdioRead hw yt8521sPhyAddr phyBmcr id2.2
    match bmcr.1 with
    | none => (.eio, bmcr.2)
    | some value =>
      let data :=
        ((value.setWidth 16).setWidth 32 ||| phyBmcrAnEnable ||| phyBmcrAnRestart).setWidth 16
      let w := gmacMdioWrite hw yt8521sPhyAddr phyBmcr data bmcr.2
      if w.1 ≠ .eok then (.eio, w.2) else (.eok, w.2)

def rk3576GmacDmaReset (hw : GmacHw) (b : GmacBoard) : RtErr × GmacBoard :=
  let r := b.read hw dmaMode
  waitClear hw dmaMode dmaModeSwr 100 (r.2.write dmaMode (r.1 ||| dmaModeSwr))

def rk3576GmacClockReset (r : CruRegs) : CruRegs :=
  rk3576CruResetDeassert (rk3576CruResetAssert r (rk3576SoftrstCon 42) 7) (rk3576SoftrstCon 42) 7

def gmacPins : List (BitVec 32) :=
  [rkPb6, rkPb3, rkPb5, rkPb4, rkPc3, rkPc2, rkPd1, rkPa7, rkPb2, rkPb1, rkPd3, rkPd2, rkPa6, rkPa5]

def gmacPinsMux : List (BitVec 32) → IocRegs → RtErr × IocRegs
  | [], r => (.eok, r)
  | pin :: pins, r =>
    let m := rk3576IomuxSet r 3 pin 3
    if m.1 ≠ .eok then m
    else
      let p := rk3576PullSet m.2 3 pin rk3576PullNone
      if p.1 ≠ .eok then p else gmacPinsMux pins p.2

def gmacRgmiiConfigure (b : GmacBoard) : GmacBoard :=
  let grfMask := gmacBit 7 ||| gmacBit 6 ||| gmacBit 5 ||| gmacBit 3
  let delayMask := gmacBit 15 ||| 0x7f#32 <<< 8 ||| gmacBit 7 ||| 0x7f
  let delayValue := gmacBit 7 ||| gmac0TxDelay
  { b with
    con := Hiword.merge b.con (gmacHiwordUpdate grfMask 0)
    pins := { b.pins with
      ioc := rk3576IocWrite b.pins.ioc vccioIocMiscCon2 (gmacHiwordUpdate delayMask delayValue) } }

def rk3576GmacPinsInit (b : GmacBoard) : RtErr × GmacBoard :=
  let m := gmacPinsMux gmacPins b.pins.ioc
  if m.1 ≠ .eok then (m.1, { b with pins := { b.pins with ioc := m.2 } })
  else
    let r := rk3576IomuxSet m.2 0 rkPc2 0
    let b := { b with pins := { b.pins with ioc := r.2 } }
    if r.1 ≠ .eok then (r.1, b) else (.eok, gmacRgmiiConfigure b)

def rk3576GmacPhyReset (s : GpioState) : GpioState :=
  let s := (rk3576PinWrite gmac0PhyResetPin pinLow).run s
  let s := (rk3576PinMode gmac0PhyResetPin pinModeOutput).run s
  (rk3576PinWrite gmac0PhyResetPin pinHigh).run s

def gmacHwSetup (hw : GmacHw) (b : GmacBoard) : RtErr × GmacBoard :=
  let p := rk3576GmacPinsInit b
  if p.1 ≠ .eok then p
  else
    let b := { p.2 with cru := rk3576GmacClockReset p.2.cru, pins := rk3576GmacPhyReset p.2.pins }
    let d := rk3576GmacDmaReset hw b
    if d.1 ≠ .eok then d
    else
      let y := yt8521sInit hw d.2
      if y.1 ≠ .eok then y else (.eok, { y.2 with dev := { y.2.dev with initialized := true } })

def gmacHwInit (hw : GmacHw) (fuel : Nat) (b : GmacBoard) : Option (RtErr × GmacBoard) :=
  if b.dev.initialized then some (.eok, b)
  else
    let c := rk3576GmacClockEnable b.cru
    let b := { b with cru := c.2 }
    if c.1 ≠ .eok then some (c.1, b)
    else
      match rk3576GmacPowerOn hw.toPmuHw fuel (pmuEntry b.pmu) with
      | none => none
      | some (ret, p) =>
        let b := { b with pmu := p.reg }
        if ret ≠ .eok then some (ret, b) else some (gmacHwSetup hw b)

/-- The PMU is as before, and of the device only its registers may have changed. -/
structure Untouched (b t : GmacBoard) : Prop where
  pmu : t.pmu = b.pmu
  dev : t.dev = { b.dev with reg := t.dev.reg }

theorem Untouched.refl (b : GmacBoard) : Untouched b b := ⟨rfl, rfl⟩

theorem Untouched.trans {b t u : GmacBoard} (h : Untouched b t) (h' : Untouched t u) :
    Untouched b u where
  pmu := h'.pmu.trans h.pmu
  dev := by rw [h'.dev, h.dev]

theorem read_untouched (hw : GmacHw) (b : GmacBoard) (offset : Nat) :
    Untouched b (b.read hw offset).2 := ⟨rfl, rfl⟩

theorem write_untouched (b : GmacBoard) (offset : Nat) (value : BitVec 32) :
    Untouched b (b.write offset value) :=
  ⟨rfl, rfl⟩

theorem waitClear_untouched (hw : GmacHw) (offset : Nat) (bit : BitVec 32)
    (count : Nat) (b : GmacBoard) :
    Untouched b (waitClear hw offset bit count b).2 := by
  induction count generalizing b with
  | zero => exact Untouched.refl b
  | succ count ih =>
    rw [waitClear]
    split
    · exact read_untouched hw b offset
    · exact (read_untouched hw b offset).trans (ih _)

theorem mdioRead_untouched (hw : GmacHw) (phy reg : BitVec 32) (b : GmacBoard) :
    Untouched b (gmacMdioRead hw phy reg b).2 := by
  have hidle : ∀ c, Untouched c (gmacMdioWaitIdle hw c).2 := waitClear_untouched hw _ _ _
  rw [gmacMdioRead]
  dsimp only
  split
  · exact hidle b
  · have hwrite := write_untouched (gmacMdioWaitIdle hw b).2 gmacMdioAddress
      (gmacMdioCommand phy reg gmacMdioGocRead)
    have hcmd := ((hidle b).trans hwrite).trans (hidle _)
    split
    · exact hcmd
    · exact hcmd.trans (read_untouched hw _ gmacMdioData)

theorem mdioWrite_untouched (hw : GmacHw) (phy reg : BitVec 32) (data : BitVec 16) (b : GmacBoard) :
    Untouched b (gmacMdioWrite hw phy reg data b).2 := by
  have hidle : ∀ c, Untouched c (gmacMdioWaitIdle hw c).2 := waitClear_untouched hw _ _ _
  rw [gmacMdioWrite]
  dsimp only
  split
  · exact hidle b
  · exact (((hidle b).trans (write_untouched _ _ _)).trans (write_untouched _ _ _)).trans (hidle _)

theorem yt8521sInit_untouched (hw : GmacHw) (b : GmacBoard) : Untouched b (yt8521sInit hw b).2 := by
  have hids := (mdioRead_untouched hw yt8521sPhyAddr phyId1 b).trans
    (mdioRead_untouched hw yt8521sPhyAddr phyId2 _)
  have hbmcr := hids.trans (mdioRead_untouched hw yt8521sPhyAddr phyBmcr _)
  rw [yt8521sInit]
  dsimp only
  split
  · exact hids
  · split
    · exact hbmcr
    · split
      · exact hbmcr.trans (mdioWrite_untouched hw _ _ _ _)
      · exact hbmcr.trans (mdioWrite_untouched hw _ _ _ _)

theorem dmaReset_untouched (hw : GmacHw) (b : GmacBoard) :
    Untouched b (rk3576GmacDmaReset hw b).2 :=
  ((read_untouched hw b dmaMode).trans (write_untouched _ _ _)).trans
    (waitClear_untouched hw _ _ _ _)

theorem pinsInit_untouched (b : GmacBoard) : Untouched b (rk3576GmacPinsInit b).2 := by
  rw [rk3576GmacPinsInit]
  dsimp only
  split
  · exact ⟨rfl, rfl⟩
  · split
    · exact ⟨rfl, rfl⟩
    · exact ⟨rfl, rfl⟩

theorem gmacHwSetup_spec (hw : GmacHw) (b : GmacBoard) :
    (gmacHwSetup hw b).2.pmu = b.pmu ∧
      (gmacHwSetup hw b).2.dev = { b.dev with
        reg := (gmacHwSetup hw b).2.dev.reg
        initialized := b.dev.initialized || decide ((gmacHwSetup hw b).1 = .eok) } := by
  have hfail : ∀ r : RtErr × GmacBoard, r.1 ≠ .eok → Untouched b r.2 → r.2.pmu = b.pmu ∧
    r.2.dev = { b.dev with
      reg := r.2.dev.reg
      initialized := b.dev.initialized || decide (r.1 = .eok) } := by
    intro r hr hu
    rw [decide_eq_false hr, Bool.or_false]
    exact ⟨hu.pmu, hu.dev⟩
  rw [gmacHwSetup]
  dsimp only
  have hpins := pinsInit_untouched b
  split
  · next hr => exact hfail _ hr hpins
  · generalize rk3576GmacPinsInit b = p at hpins
    have hres : Untouched b { p.2 with
        cru := rk3576GmacClockReset p.2.cru
        pins := rk3576GmacPhyReset p.2.pins } := hpins.trans ⟨rfl, rfl⟩
    have hdma := hres.trans (dmaReset_untouched hw _)
    split
    · next hr => exact hfail _ hr hdma
    · have hphy := hdma.trans (yt8521sInit_untouched hw _)
      split
      · next hr => exact hfail _ hr hphy
      · refine ⟨hphy.pmu, ?_⟩
        rw [decide_eq_true rfl, Bool.or_true]
        dsimp only
        rw [hphy.dev]

/-- The three ways through `gmac_hw_init`: nothing to do, a power-up that fails, or the rest of
the setup after one that succeeds. `c` are the CRU registers with the clocks enabled. -/
theorem gmacHwInit_cases {hw : GmacHw} {fuel : Nat} {b t : GmacBoard} {ret : RtErr}
    (h : gmacHwInit hw fuel b = some (ret, t)) :
    b.dev.initialized = true ∧ ret = .eok ∧ t = b ∨
      b.dev.initialized = false ∧
      ∃ r p c, rk3576GmacPowerOn hw.toPmuHw fuel (pmuEntry b.pmu) = some (r, p) ∧
      (r ≠ .eok ∧ ret = r ∧ t = { b with cru := c, pmu := p.reg } ∨
        r = .eok ∧ (ret, t) = gmacHwSetup hw { b with cru := c, pmu := p.reg }) := by
  rw [gmacHwInit] at h
  cases hi : b.dev.initialized with
  | true =>
    rw [hi, if_pos rfl] at h
    cases h
    exact Or.inl ⟨rfl, rfl, rfl⟩
  | false =>
    have hclock : ¬(rk3576GmacClockEnable b.cru).1 ≠ .eok := not_not.mpr rfl
    rw [hi, if_neg Bool.noConfusion] at h
    dsimp only at h
    rw [if_neg hclock] at h
    cases hp : rk3576GmacPowerOn hw.toPmuHw fuel (pmuEntry b.pmu) with
    | none =>
      rw [hp] at h
      cases h
    | some x =>
      obtain ⟨r, p⟩ := x
      rw [hp] at h
      refine Or.inr ⟨rfl, r, p, (rk3576GmacClockEnable b.cru).2, rfl, ?_⟩
      dsimp only at h
      by_cases hr : r = .eok
      · rw [if_neg (not_not.mpr hr)] at h
        exact Or.inr ⟨hr, (Option.some.inj h).symm⟩
      · rw [if_pos hr] at h
        cases h
        exact Or.inl ⟨hr, rfl, rfl⟩

/-- To the device a call is the one step of the bring-up model: registers rewritten, and the flag
set exactly on success. -/
theorem gmacHwInit_bringup {hw : GmacHw} {fuel : Nat} {b t : GmacBoard} {ret : RtErr}
    (h : gmacHwInit hw fuel b = some (ret, t)) (hi : b.dev.initialized = false)
    (pool : Nat) {s : BringupState} (hs : s.init = .hw) (hdev : s.link.dev = b.dev) :
    ∃ s', bringupStep pool s (.hw (decide (ret = .eok)) t.dev.reg) = some s' ∧
    s'.link.dev = t.dev := by
  have ht : t.dev = { b.dev with reg := t.dev.reg, initialized := decide (ret = .eok) } := by
    rcases gmacHwInit_cases h with ⟨hinit, -⟩ | ⟨-, r, p, c, -, ⟨hr, rfl, rfl⟩ | ⟨-, hset⟩⟩
    · rw [hi] at hinit
      cases hinit
    · rw [decide_eq_false hr, ← hi]
    · obtain ⟨-, hspec⟩ := gmacHwSetup_spec hw { b with cru := c, pmu := p.reg }
      rw [← hset] at hspec
      rw [hi, Bool.false_or] at hspec
      exact hspec
  refine ⟨_, by rw [bringupStep, hs], ?_⟩
  dsimp only
  rw [hdev]
  exact ht.symm

/-- The call returns while the tick keeps advancing; a successful one has seen the domain
powered and then the bus awake, with the idle request withdrawn; every return leaves the override
released; and so does a `gmac_hw_init` that fails, with the device not initialised. -/
structure PowerUpOk (hw : PmuHw) (reg : Nat → BitVec 16) : Prop where
  returns : Advancing hw.tick → ∃ r n, ∀ fuel, n < fuel →
    rk3576GmacPowerOn hw fuel (pmuEntry reg) = some r
  seen : ∀ fuel t, rk3576GmacPowerOn hw fuel (pmuEntry reg) = some (.eok, t) →
    SeenUp t.log ∧ pmuBits t.reg pmuBusIdleReq pmuSdgmacIdleReqBit = 0
  released : ∀ fuel ret t, rk3576GmacPowerOn hw fuel (pmuEntry reg) = some (ret, t) →
    OverrideReleased t.reg
  failed : ∀ mmio b fuel ret t, b.pmu = reg → gmacHwInit ⟨hw, mmio⟩ fuel b = some (ret, t) →
    ret ≠ .eok →
    t.dev.initialized = false ∧ OverrideReleased t.pmu

theorem powerOn_in_time {hw : PmuHw} (h : ¬hw.TimesOut) {fuel : Nat} {reg : Nat → BitVec 16}
    {ret : RtErr} {t : PmuState}
    (hrun : rk3576GmacPowerOn hw fuel (pmuEntry reg) = some (ret, t)) :
    ret = .eok ∧ PoweredOn hw t := by
  rcases powerOn_some hrun with hon | ⟨-, hout⟩
  · exact hon
  · exact absurd hout.late h

theorem gmacHwInit_failed {hw : GmacHw} (h : ¬hw.TimesOut) {fuel : Nat} {b t : GmacBoard}
    {ret : RtErr} (hrun : gmacHwInit hw fuel b = some (ret, t)) (hret : ret ≠ .eok) :
    t.dev.initialized = false ∧ OverrideReleased t.pmu := by
  rcases gmacHwInit_cases hrun with ⟨-, hok, -⟩ | ⟨hi, r, p, c, hp, ⟨hr, -⟩ | ⟨-, hset⟩⟩
  · exact absurd hok hret
  · exact absurd (powerOn_in_time h hp).1 hr
  · obtain ⟨hpmu, hdev⟩ := gmacHwSetup_spec hw { b with cru := c, pmu := p.reg }
    rw [← hset] at hpmu hdev
    refine ⟨?_, ?_⟩
    · rw [hdev, decide_eq_false hret, Bool.or_false]
      exact hi
    · rw [hpmu]
      exact (powerOn_in_time h hp).2.released

/-- Power-up leaves no override behind exactly if no deadline is read before the bits it is set
for are seen. -/
theorem powerUp_ok_iff (hw : PmuHw) (reg : Nat → BitVec 16) : PowerUpOk hw reg ↔ ¬hw.TimesOut := by
  constructor
  · intro h hto
    obtain ⟨⟨ret, t⟩, n, hrun⟩ := powerOn_returns (Or.inr hto) reg
    have hret := hrun (n + 1) (Nat.lt_succ_self n)
    rcases powerOn_some hret with ⟨-, hon⟩ | ⟨-, hout⟩
    · exact hon.in_time hto
    · have hclear : pmuBits t.reg pmuClkUngate pmuSdgmacClkMask = 0 := h.released (n + 1) ret t hret
      rw [hout.held] at hclear
      exact absurd hclear (by decide)
  · intro h
    refine ⟨fun hadv => powerOn_returns (Or.inl hadv) reg, fun fuel t hrun => ?_,
      fun fuel ret t hrun => ?_, ?_⟩
    · have hon := (powerOn_in_time h hrun).2
      exact ⟨hon.seen, hon.withdrawn⟩
    · exact (powerOn_in_time h hrun).2.released
    · intro mmio b fuel ret t _ hrun hret
      exact gmacHwInit_failed h hrun hret

/-- A domain that never comes up, with a tick per round: ten rounds, -RT_ETIMEOUT, and both
override bits stay set; `gmac_hw_init` passes the error on. -/
theorem dead_domain_keeps_override :
    let hw : PmuHw := ⟨fun _ => 0, fun _ => 0, fun _ => 0, fun k => BitVec.ofNat 32 k⟩
    let b : GmacBoard :=
      ⟨gmac0, fun _ => 0, ⟨fun _ => 0, fun _ => 0⟩, ⟨fun _ => 0, fun _ => 0, fun _ => 0⟩, 0, 0⟩
    (rk3576GmacPowerOn hw 20 (pmuEntry fun _ => 0)).map
      (fun r => (r.1, pmuBits r.2.reg pmuClkUngate pmuSdgmacClkMask)) =
        some (.etimeout, 0x6) ∧
      (gmacHwInit ⟨hw, fun _ _ => 0⟩ 20 b).map
          (fun r => (r.1, r.2.dev.initialized, pmuBits r.2.pmu pmuClkUngate pmuSdgmacClkMask)) =
        some (.etimeout, false, 0x6) ∧
      ¬PowerUpOk hw fun _ => 0 := by
  have hrun : (rk3576GmacPowerOn ⟨fun _ => 0, fun _ => 0, fun _ => 0, fun k => BitVec.ofNat 32 k⟩ 20
      (pmuEntry fun _ => 0)).map (fun r => (r.1, pmuBits r.2.reg pmuClkUngate pmuSdgmacClkMask)) =
        some (.etimeout, 0x6) := by decide +kernel
  refine ⟨hrun, by decide +kernel, fun h => ?_⟩
  obtain ⟨⟨ret, t⟩, ht, hbits⟩ := Option.map_eq_some_iff.mp hrun
  have hclear : pmuBits t.reg pmuClkUngate pmuSdgmacClkMask = 0 := h.released 20 ret t ht
  rw [hclear] at hbits
  exact absurd (Prod.mk.inj hbits).2 (by decide)

end Rk3576.Gmac
