import Rk3576.Pin.OpenDrain

/-! Two contexts that call the GPIO driver for different pins, with their steps interleaved in any
order: each has the effect it has alone. -/
namespace Rk3576.Pin
open Rk3576.Atomic

def Untouched (cs : List GpioCall) (q : PinId) : Prop := ∀ c ∈ cs, c.pin ≠ q.number

theorem calls_local {cs ds : List GpioCall} (hd : ∀ c ∈ cs, ∀ d ∈ ds, c.pin ≠ d.pin) :
    (gpioCalls cs).Local (viewOn GpioState.pin (Untouched ds)) := by
  refine Prog.local_seqs fun c hc => ?_
  cases decode_cases c.pin with
  | inl hn =>
    rw [prog_of_decode_none hn]
    trivial
  | inr hq =>
    obtain ⟨q, hq⟩ := hq
    exact tracks_local (tracks_call hq) fun d hmem h => hd c hc d hmem (hq.trans h.symm)

theorem calls_silent (ds : List GpioCall) :
    (gpioCalls ds).Silent (viewOn GpioState.pin (Untouched ds)) := by
  refine Prog.silent_seqs fun d hmem => ?_
  cases decode_cases d.pin with
  | inl hn =>
    rw [prog_of_decode_none hn]
    trivial
  | inr hq =>
    obtain ⟨q, hq⟩ := hq
    exact tracks_silent (tracks_call hq) fun h => h d hmem hq

theorem modeSwitch_within (bank offset : BitVec 32) (mode : BitVec 64) :
    (modeSwitch bank offset mode).Within 3 := by
  rw [modeSwitch]
  split
  · exact fun _ _ => trivial
  split
  · exact fun _ _ => trivial
  split
  · exact fun _ _ => trivial
  split
  · exact fun _ _ => trivial
  split
  · exact fun _ _ _ => trivial
  · trivial

theorem call_within (c : GpioCall) : c.prog.Within 5 := by
  cases c with
  | pinMode pin mode =>
    simp only [GpioCall.prog, rk3576PinMode]
    split
    · trivial
    · split
      · trivial
      · intro s
        dsimp only
        split
        · trivial
        · exact fun _ => modeSwitch_within _ _ _
  | pinWrite pin value =>
    simp only [GpioCall.prog, rk3576PinWrite]
    split
    · trivial
    · intro s
      dsimp only
      split
      · split
        · exact fun _ _ => trivial
        · exact fun _ => trivial
      · exact fun _ => trivial

section Interleaved
variable (s : GpioState) {cs ds : List GpioCall} (hd : ∀ c ∈ cs, ∀ d ∈ ds, c.pin ≠ d.pin)
  (bs : List Bool)
include hd

theorem interleaved_left_ends (hb : 5 * cs.length ≤ bs.count true) :
    (Pair.interleave bs ⟨gpioCalls cs, gpioCalls ds, s⟩).left = .done :=
  Pair.interleave_ends (calls_local hd) (calls_silent ds) s (Prog.within_seqs call_within cs) hb

theorem interleaved_left_pin
    (hl : (Pair.interleave bs ⟨gpioCalls cs, gpioCalls ds, s⟩).left = .done)
    {q : PinId} (hq : Untouched ds q) :
    (Pair.interleave bs ⟨gpioCalls cs, gpioCalls ds, s⟩).state.pin q =
      ((gpioCalls cs).run s).pin q :=
  congrFun (Pair.interleave_run (calls_local hd) (calls_silent ds) s hl) ⟨q, hq⟩

end Interleaved

/-- For two sequences of calls on disjoint pins and every schedule of their steps: with the turns
they need both come to an end, and then each pin is as after the sequence that owns it, alone. -/
theorem interleaved_calls_as_alone (s : GpioState) (cs ds : List GpioCall)
    (hd : ∀ c ∈ cs, ∀ d ∈ ds, c.pin ≠ d.pin) (bs : List Bool) :
    let out := Pair.interleave bs ⟨gpioCalls cs, gpioCalls ds, s⟩
    (5 * cs.length ≤ bs.count true → 5 * ds.length ≤ bs.count false → out.left = .done ∧
      out.right = .done) ∧
      (out.left = .done → out.right = .done → ∀ q : PinId,
        (Untouched ds q → out.state.pin q = ((gpioCalls cs).run s).pin q) ∧
        (Untouched cs q → out.state.pin q = ((gpioCalls ds).run s).pin q)) := by
  intro out
  -- the right program is the left one of the mirrored schedule
  have hmirror : Pair.interleave (bs.map not) ⟨gpioCalls ds, gpioCalls cs, s⟩ = out.swap :=
    (Pair.interleave_swap bs ⟨gpioCalls cs, gpioCalls ds, s⟩).symm
  have hd' : ∀ d ∈ ds, ∀ c ∈ cs, d.pin ≠ c.pin := fun d hm c hc => (hd c hc d hm).symm
  have hcount : (bs.map not).count true = bs.count false :=
    List.count_map_of_injective bs not (by decide) false
  refine ⟨fun hl hr => ⟨interleaved_left_ends s hd bs hl, ?_⟩,
    fun hl hr q => ⟨fun hq => ?_, fun hq => ?_⟩⟩
  · have h := interleaved_left_ends s hd' (bs.map not) (hcount ▸ hr)
    rw [hmirror] at h
    exact h
  · exact interleaved_left_pin s hd bs hl hq
  · have h := interleaved_left_pin s hd' (bs.map not) (by rw [hmirror]; exact hr) hq
    rw [hmirror] at h
    exact h

/-- Pins 5 and 6 share every register; one is made an output and driven while the other becomes
open-drain, step by step in turn. -/
theorem interleaved_neighbours :
    let s : GpioState := ⟨fun _ => 0, fun _ => 0, fun _ => 0⟩
    let cs : List GpioCall := [.pinMode 5 pinModeOutput, .pinWrite 5 1]
    let ds : List GpioCall := [.pinMode 6 pinModeOutputOd, .pinWrite 6 0]
    let out :=
      Pair.interleave (List.replicate 10 [true, false]).flatten ⟨gpioCalls cs, gpioCalls ds, s⟩
    out.state.pin ⟨0, 5⟩ = ⟨0, 0, true, true, false⟩ ∧
    out.state.pin ⟨0, 6⟩ = ⟨0, 0, true, false, true⟩ := by
  intro s cs ds out
  have hd : ∀ c ∈ cs, ∀ d ∈ ds, c.pin ≠ d.pin := by
    simp only [cs, ds, List.forall_mem_cons, GpioCall.pin]
    decide
  obtain ⟨hends, hpins⟩ :=
    interleaved_calls_as_alone s cs ds hd (List.replicate 10 [true, false]).flatten
  obtain ⟨hl, hr⟩ := hends (by decide) (by decide)
  have h5 : Untouched ds ⟨0, 5⟩ := by
    simp only [Untouched, ds, List.forall_mem_cons, GpioCall.pin]
    decide
  have h6 : Untouched cs ⟨0, 6⟩ := by
    simp only [Untouched, cs, List.forall_mem_cons, GpioCall.pin]
    decide
  exact ⟨((hpins hl hr ⟨0, 5⟩).1 h5).trans (by decide +kernel),
    ((hpins hl hr ⟨0, 6⟩).2 h6).trans (by decide +kernel)⟩

end Rk3576.Pin
