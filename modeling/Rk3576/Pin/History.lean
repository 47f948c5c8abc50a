import Rk3576.Pin.Gpio

/-! Two runs of the GPIO driver compared: what `rk3576_pin_mode` leaves of the calls before it. -/
namespace Rk3576.Pin
open Rk3576.Atomic

inductive PinCall where
  | gpio (c : GpioCall)
  | pullSet (bank pin pull : BitVec 32)

def PinCall.run (s : GpioState) : PinCall → GpioState
  | .gpio c => c.prog.run s
  | .pullSet bank pin pull => { s with ioc := (rk3576PullSet s.ioc bank pin pull).2 }

def pinCalls (s : GpioState) (cs : List PinCall) : GpioState := cs.foldl PinCall.run s

structure PinConfig where
  mux : BitVec 16
  pull : BitVec 16
  output : Bool
  openDrain : Bool
  deriving DecidableEq

def PinState.config (p : PinState) : PinConfig := ⟨p.mux, p.pull, p.output, p.openDrain⟩

def configAfter (s : GpioState) (q : PinId) (pin mode : BitVec 64) : PinConfig :=
  (((rk3576PinMode pin mode).run s).pin q).config

theorem configAfter_eq {q : PinId} {pin mode : BitVec 64} (hp : pin = q.number)
    (hm : Supported mode) (s : GpioState) :
    configAfter s q pin mode =
      { mux := 0
        pull := if mode = pinModeOutputOd then (s.pin q).pull else modePull mode
        output := decide (mode = pinModeOutput)
        openDrain := decide (mode = pinModeOutputOd) } := by
  subst hp
  rw [configAfter, tracks_run (tracks_pinMode q mode), Function.update_self, pinMode_run hm]
  rfl

/-- After the mode is set the two runs agree on the pin, unless the mode is open-drain: that
branch writes no pull field, so what the histories left there stays. -/
theorem pinMode_config_eq_iff (s s' : GpioState) (hist hist' : List PinCall) (q : PinId)
    (pin mode : BitVec 64)
    (hp : rk3576GpioDecode pin = some (q.bankNo, q.pinNo)) (hm : Supported mode) :
    configAfter (pinCalls s hist) q pin mode = configAfter (pinCalls s' hist') q pin mode ↔
      (mode = pinModeOutputOd →
        ((pinCalls s hist).pin q).pull = ((pinCalls s' hist').pin q).pull) := by
  have hn := number_of_decode hp
  rw [configAfter_eq hn hm, configAfter_eq hn hm, PinConfig.mk.injEq]
  by_cases hod : mode = pinModeOutputOd
  · simp [hod]
  · simp [hod]

/-- Nothing before, and an input with pull-up before: the pull-up survives the open-drain mode. -/
theorem pinMode_od_keeps_pullup :
    let s : GpioState := ⟨fun _ => 0, fun _ => 0, fun _ => 0⟩
    let hist : List PinCall := [.gpio (.pinMode 0 pinModeInputPullup)]
    rk3576GpioDecode 0 = some (PinId.bankNo ⟨0, 0⟩, PinId.pinNo ⟨0, 0⟩) ∧
    Supported pinModeOutputOd ∧
      (configAfter (pinCalls s []) ⟨0, 0⟩ 0 pinModeOutputOd).pull = 0 ∧
      (configAfter (pinCalls s hist) ⟨0, 0⟩ 0 pinModeOutputOd).pull = 3 ∧
      configAfter (pinCalls s []) ⟨0, 0⟩ 0 pinModeOutputOd ≠
          configAfter (pinCalls s hist) ⟨0, 0⟩ 0 pinModeOutputOd := by
  decide +kernel

theorem pinMode_config_eq_input :
    let s : GpioState := ⟨fun _ => 0, fun _ => 0, fun _ => 0⟩
    let hist : List PinCall := [.gpio (.pinMode 0 pinModeInputPullup)]
    configAfter (pinCalls s hist) ⟨0, 0⟩ 0 pinModeInput =
        configAfter (pinCalls s []) ⟨0, 0⟩ 0 pinModeInput := by
  intro s hist
  have hp : rk3576GpioDecode 0 = some (PinId.bankNo ⟨0, 0⟩, PinId.pinNo ⟨0, 0⟩) := by decide
  exact (pinMode_config_eq_iff s s hist [] ⟨0, 0⟩ 0 pinModeInput hp (by decide)).mpr fun h => by
    simp [pinModeInput, pinModeOutputOd] at h

end Rk3576.Pin
