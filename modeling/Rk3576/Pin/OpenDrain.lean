import Rk3576.Pin.Gpio

/-! Open-drain pins over whole histories of calls: at no point of any call is one driven high, and
between calls it is low exactly while the last write asks for it. -/
namespace Rk3576.Pin
open Rk3576.Atomic

def gpioCalls (cs : List GpioCall) : Prog GpioState := .seqs (cs.map GpioCall.prog)

/-- Output direction and a high data bit under a set open-drain bit. -/
def PinState.DrivenHigh (p : PinState) : Prop :=
  p.openDrain = true ∧ p.output = true ∧ p.high = true

def PinState.DrivenLow (p : PinState) : Prop := p.output = true ∧ p.high = false

/-- The data bit of an open-drain pin is low, whatever its direction. -/
def PinState.Safe (p : PinState) : Prop := p.openDrain = true → p.high = false

theorem pinMode_always_safe (mode : BitVec 64) (p : PinState) (h : p.Safe) :
    (pinMode mode).Always PinState.Safe p := by
  have hs : ∀ p : PinState, p.openDrain = false → p.Safe := fun p hp ho => by simp [hp] at ho
  rw [pinMode]
  split
  · exact h
  refine ⟨h, h, ?_⟩
  -- from here on the bit is clear, until the open-drain branch sets it over a low data bit
  rw [pinSwitch]
  split
  · exact ⟨hs _ rfl, hs _ rfl, hs _ rfl⟩
  split
  · exact ⟨hs _ rfl, hs _ rfl, hs _ rfl⟩
  split
  · exact ⟨hs _ rfl, hs _ rfl, hs _ rfl⟩
  split
  · exact ⟨hs _ rfl, hs _ rfl, hs _ rfl⟩
  split
  · exact ⟨hs _ rfl, hs _ rfl, hs _ rfl, fun _ => rfl⟩
  · exact hs _ rfl

theorem pinWrite_always_safe (value : BitVec 64) (p : PinState) (h : p.Safe) :
    (pinWrite value).Always PinState.Safe p := by
  refine ⟨h, ?_⟩
  simp only [id]
  split
  · split
    · exact ⟨h, fun _ => rfl, fun _ => rfl⟩
    · exact ⟨h, h⟩
  · rename_i ho
    exact ⟨h, fun h' => absurd h' ho⟩

theorem onPin_always_safe (c : GpioCall) (p : PinState) (h : p.Safe) :
    c.onPin.Always PinState.Safe p := by
  cases c with
  | pinMode pin mode => exact pinMode_always_safe mode p h
  | pinWrite pin value => exact pinWrite_always_safe value p h

theorem call_always_safe (c : GpioCall) (s : GpioState) (h : ∀ q, (s.pin q).Safe) :
    c.prog.Always (fun t => ∀ q, (t.pin q).Safe) s := by
  cases decode_cases c.pin with
  | inl hn =>
    rw [prog_of_decode_none hn]
    exact h
  | inr hq =>
    obtain ⟨q, hq⟩ := hq
    exact tracks_always (tracks_call hq) s (onPin_always_safe c _ (h q)) fun p _ => h p

/-- The last supported mode of a pin, and the last write since then. -/
structure PinTrace where
  mode : Option (BitVec 64) := none
  write : Option (BitVec 64) := none

def PinTrace.step (q : PinId) (t : PinTrace) : GpioCall → PinTrace
  | .pinMode pin mode => if pin = q.number ∧ Supported mode then ⟨some mode, none⟩ else t
  | .pinWrite pin value => if pin = q.number then { t with write := some value } else t

def PinTrace.of (q : PinId) (cs : List GpioCall) : PinTrace := cs.foldl (PinTrace.step q) {}

/-- The pin is open-drain after the open-drain mode; then it is output exactly after a write of
PIN_LOW, over a low data bit. -/
def Follows (t : PinTrace) (p : PinState) : Prop :=
  (p.openDrain = true ↔ t.mode = some pinModeOutputOd) ∧
    (p.openDrain = true → p.high = false ∧ (p.output = true ↔ t.write = some pinLow))

theorem follows_pinMode {t : PinTrace} {p : PinState} (h : Follows t p) (q : PinId)
    (mode : BitVec 64) :
    Follows (t.step q (.pinMode q.number mode)) ((pinMode mode).run p) := by
  by_cases hm : Supported mode
  · rw [PinTrace.step, if_pos ⟨rfl, hm⟩, pinMode_run hm]
    refine ⟨by simp, fun ho => ?_⟩
    have hod : mode = pinModeOutputOd := by simpa using ho
    have hout : ¬pinModeOutputOd = pinModeOutput := by decide
    simp [hod, hout]
  · rw [PinTrace.step, if_neg fun h' => hm h'.2, pinMode_run_unsupported hm]
    exact h

theorem follows_pinWrite {t : PinTrace} {p : PinState} (h : Follows t p) (q : PinId)
    (value : BitVec 64) :
    Follows (t.step q (.pinWrite q.number value)) ((pinWrite value).run p) := by
  rw [PinTrace.step, if_pos rfl, pinWrite, Prog.run_read]
  by_cases ho : p.openDrain = true
  · by_cases hv : value = pinLow
    · rw [if_pos ho, if_pos hv, hv]
      exact ⟨h.1, fun _ => ⟨rfl, by simp⟩⟩
    · rw [if_pos ho, if_neg hv]
      exact ⟨h.1, fun _ => ⟨(h.2 ho).1, by simp [hv]⟩⟩
  · rw [if_neg ho]
    exact ⟨h.1, fun h' => absurd h' ho⟩

theorem follows_call {q : PinId} {t : PinTrace} {s : GpioState} (h : Follows t (s.pin q))
    (c : GpioCall) :
    Follows (t.step q c) ((c.prog.run s).pin q) := by
  by_cases hq : c.pin = q.number
  · rw [run_call hq, Function.update_self]
    cases c with
    | pinMode pin mode =>
      cases hq
      exact follows_pinMode h q mode
    | pinWrite pin value =>
      cases hq
      exact follows_pinWrite h q value
  · have ht : t.step q c = t := by
      cases c with
      | pinMode pin mode => exact if_neg fun h' => hq h'.1
      | pinWrite pin value => exact if_neg hq
    have hs : (c.prog.run s).pin q = s.pin q := by
      cases decode_cases c.pin with
      | inl hn => rw [prog_of_decode_none hn]; rfl
      | inr hp =>
        obtain ⟨p, hp⟩ := hp
        rw [run_call hp, Function.update_of_ne]
        rintro rfl
        exact hq hp
    rw [ht, hs]
    exact h

theorem follows_calls {q : PinId} (cs : List GpioCall) {t : PinTrace} {s : GpioState}
    (h : Follows t (s.pin q)) :
    Follows (cs.foldl (PinTrace.step q) t) (((gpioCalls cs).run s).pin q) := by
  induction cs generalizing t s with
  | nil => exact h
  | cons c cs ih =>
    have hrun : (gpioCalls (c :: cs)).run s = (gpioCalls cs).run (c.prog.run s) :=
      Prog.run_seq _ _ _
    rw [hrun]
    exact ih (follows_call h c)

/-- From any registers and a clear `gpio_open_drain`, at every point of every sequence of calls,
no open-drain pin is driven high; and after the sequence a pin is open-drain exactly if its last
supported mode was, and then driven low if the last write since was PIN_LOW, else released. -/
theorem openDrain_never_driven_high (s : GpioState) (h0 : ∀ q : PinId, s.openDrain q.bankNo = 0)
    (cs : List GpioCall) :
    (gpioCalls cs).Always (fun t => ∀ q, ¬(t.pin q).DrivenHigh) s ∧
      ∀ q, let p := ((gpioCalls cs).run s).pin q
        (p.openDrain = true ↔ (PinTrace.of q cs).mode = some pinModeOutputOd) ∧
        (p.openDrain = true →
          (p.DrivenLow ↔ (PinTrace.of q cs).write = some pinLow) ∧
          ((PinTrace.of q cs).write ≠ some pinLow → p.output = false)) := by
  have hclear : ∀ q, (s.pin q).openDrain = false := fun q => by simp [GpioState.pin, h0 q]
  have hsafe : ∀ q, (s.pin q).Safe := fun q ho => by simp [hclear q] at ho
  refine ⟨?_, fun q => ?_⟩
  · refine Prog.always_mono ?_ _ _ (Prog.always_seqs GpioCall.prog call_always_safe cs s hsafe)
    intro t ht q hh
    exact absurd (ht q hh.1) (by simp [hh.2.2])
  · have hf : Follows {} (s.pin q) := ⟨by simp [hclear q], fun ho => by simp [hclear q] at ho⟩
    obtain ⟨hm, hw⟩ := follows_calls cs hf
    refine ⟨hm, fun ho => ⟨?_, fun hn => ?_⟩⟩
    · exact (and_iff_left (hw ho).1).trans (hw ho).2
    · exact Bool.eq_false_iff.mpr (mt (hw ho).2.mp hn)

/-- A pin that was an output at high level, put in open-drain mode and written low. -/
theorem openDrain_driven_low_example :
    let s : GpioState := ⟨fun _ => 0, fun _ => 0xffff, fun _ => 0⟩
    let cs : List GpioCall := [.pinMode 5 pinModeOutputOd, .pinWrite 5 pinLow]
    (∀ q : PinId, s.openDrain q.bankNo = 0) ∧ (((gpioCalls cs).run s).pin ⟨0, 5⟩).DrivenLow := by
  intro s cs
  have h0 : ∀ q : PinId, s.openDrain q.bankNo = 0 := fun _ => rfl
  have hod : (((gpioCalls cs).run s).pin ⟨0, 5⟩).openDrain = true := by decide +kernel
  have hw : (PinTrace.of ⟨0, 5⟩ cs).write = some pinLow := by decide +kernel
  exact ⟨h0, (((openDrain_never_driven_high s h0 cs).2 ⟨0, 5⟩).2 hod).1.mpr hw⟩

end Rk3576.Pin
