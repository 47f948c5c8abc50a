import Rk3576.Gmac.Transmit

/-! What `tx_lock` buys: only its holder is past the mutex, and the holder's locals
agree with the driver state. Holds in every run, timeouts included. -/
namespace Rk3576.Gmac
open Rk3576.Run

/-- What the holder of the lock knows at each point. -/
def TxHeld (s : TxState) (t : TxCall) : Prop :=
  match t.pc with
  | .entry | .lock => False
  | .armFree | .unlock _ => True
  | .pollFree | .checkFree => t.desc = s.txIndex
  | .copy | .des0 | .des1 | .des2 | .des3 =>
    t.desc = s.txIndex ∧ t.buffer = txSlot s.txIndex ∧ (s.txDesc t.desc).own = false
  | .tail => t.desc = s.txIndex
  | .armDone | .pollDone | .checkDone | .index => t.desc = s.txIndex ∧ t.next = txNext s.txIndex

def TxOutside : TxThread → Prop
  | .busy t => t.pc = .entry ∨ t.pc = .lock
  | _ => True

structure TxInv (s : TxState) : Prop where
  index_lt : s.txIndex < gmacTxDescCount
  outside : ∀ c, s.txLock ≠ some c → TxOutside (s.calls c)
  holder : ∀ c, s.txLock = some c → ∃ t, s.calls c = .busy t ∧ TxHeld s t

theorem txNext_lt (i : Nat) : txNext i < gmacTxDescCount := Nat.mod_lt _ (by decide)

theorem txInv_init (pool : Nat) (g : GmacDev) (buf : Nat → Byte) (now : BitVec 32) :
    TxInv (txInit pool g buf now) where
  index_lt := (by decide : 0 < gmacTxDescCount)
  outside _ _ := trivial
  holder _ h := by simp [txInit] at h

theorem TxInv.held {s : TxState} {c : Nat} {t : TxCall} (h : TxInv s)
    (hl : s.txLock = some c) (hc : s.calls c = .busy t) : TxHeld s t := by
  obtain ⟨u, hu, hh⟩ := h.holder c hl
  rw [hc] at hu
  cases hu
  exact hh

theorem TxInv.locked {s : TxState} {c : Nat} {t : TxCall} (h : TxInv s)
    (hc : s.calls c = .busy t) (he : t.pc ≠ .entry) (hk : t.pc ≠ .lock) : s.txLock = some c := by
  by_contra hl
  have ho := h.outside c hl
  rw [hc] at ho
  exact ho.elim he hk

theorem TxInv.move {s s' : TxState} {c : Nat} {t : TxCall} (h : TxInv s)
    (hl : s.txLock = some c) (hc' : s'.calls = Function.update s.calls c (.busy t))
    (hl' : s'.txLock = some c) (hi : s'.txIndex < gmacTxDescCount) (ht : TxHeld s' t) :
    TxInv s' where
  index_lt := hi
  outside d hd := by
    have hne : d ≠ c := fun he => hd (he ▸ hl')
    rw [hc', Function.update_of_ne hne]
    exact h.outside d (by rw [hl]; simpa using hne.symm)
  holder d hd := by
    obtain rfl : c = d := by simpa [hl'] using hd
    exact ⟨t, by simp [hc'], ht⟩

theorem TxInv.move_outside {s s' : TxState} {c : Nat} {v : TxThread} (h : TxInv s)
    (hl : s.txLock ≠ some c) (hc' : s'.calls = Function.update s.calls c v) (hv : TxOutside v)
    (hl' : s'.txLock = s.txLock) (hi : s'.txIndex = s.txIndex) (hd' : s'.txDesc = s.txDesc) :
    TxInv s' where
  index_lt := hi ▸ h.index_lt
  outside d hd := by
    rw [hc']
    by_cases he : d = c
    · subst he; simpa using hv
    · rw [Function.update_of_ne he]
      exact h.outside d (hl' ▸ hd)
  holder d hd := by
    have hne : d ≠ c := fun he => hl (by rw [← he, ← hl', hd])
    obtain ⟨t, ht, hh⟩ := h.holder d (hl' ▸ hd)
    refine ⟨t, by rw [hc', Function.update_of_ne hne]; exact ht, ?_⟩
    simpa only [TxHeld, hi, hd'] using hh

/-- The hardware and the other parties: no caller moves and OWN is only ever lowered. -/
theorem TxInv.environment {s s' : TxState} (h : TxInv s) (hc : s'.calls = s.calls)
    (hl : s'.txLock = s.txLock) (hi : s'.txIndex = s.txIndex)
    (ho : ∀ i, (s.txDesc i).own = false → (s'.txDesc i).own = false) : TxInv s' where
  index_lt := hi ▸ h.index_lt
  outside d hd := hc ▸ h.outside d (hl ▸ hd)
  holder d hd := by
    obtain ⟨t, ht, hh⟩ := h.holder d (hl ▸ hd)
    refine ⟨t, hc ▸ ht, ?_⟩
    unfold TxHeld at hh ⊢
    rw [hi]
    split <;> simp only [*] at hh ⊢ <;> first | exact hh | exact ⟨hh.1, hh.2.1, ho _ hh.2.2⟩

theorem TxHeld.step {pool : Nat} {s : TxState} {c : Nat} {t u : TxCall} {a : TxAccess}
    (hh : TxHeld s t) (hi : s.txIndex < gmacTxDescCount)
    (hs : rk3576GmacDmaTransmit pool s t = (a, .next u)) :
    TxHeld (s.perform c a) u ∧ (s.perform c a).txIndex < gmacTxDescCount ∧
      (s.perform c a).txLock = s.txLock ∧ (s.perform c a).acquired = s.acquired := by
  cases hp : t.pc <;> simp only [TxHeld, hp, rk3576GmacDmaTransmit] at hh hs
  case armFree => cases hs; exact ⟨rfl, hi, rfl, rfl⟩
  case pollFree =>
    split at hs <;> cases hs
    · exact ⟨hh, hi, rfl, rfl⟩
    · rename_i ho
      exact ⟨⟨hh, rfl, by simpa [TxState.perform] using ho⟩, hi, rfl, rfl⟩
  case checkFree =>
    split at hs <;> cases hs
    · exact ⟨trivial, hi, rfl, rfl⟩
    · exact ⟨hh, hi, rfl, rfl⟩
  case copy =>
    split at hs
    · cases hs; exact ⟨hh, hi, rfl, rfl⟩
    · split at hs <;> cases hs
      · exact ⟨by simpa [TxHeld, TxState.perform, hp] using hh, hi, rfl, rfl⟩
      · exact ⟨by simpa [TxHeld, TxState.perform, hp] using hh, hi, rfl, rfl⟩
  -- the first three words leave OWN as it was, clear
  case des0 | des1 | des2 =>
    cases hs
    exact ⟨by simpa [TxHeld, TxState.perform, GmacDesc.set, GmacDesc.own] using hh, hi, rfl, rfl⟩
  case des3 => cases hs; exact ⟨hh.1, hi, rfl, rfl⟩
  case tail => cases hs; exact ⟨⟨hh, rfl⟩, hi, rfl, rfl⟩
  case armDone => cases hs; exact ⟨hh, hi, rfl, rfl⟩
  case pollDone => split at hs <;> cases hs <;> exact ⟨hh, hi, rfl, rfl⟩
  case checkDone =>
    split at hs <;> cases hs
    · exact ⟨trivial, hi, rfl, rfl⟩
    · exact ⟨hh, hi, rfl, rfl⟩
  case index =>
    cases hs
    exact ⟨trivial, by simpa [TxState.perform, hh.2] using txNext_lt s.txIndex, rfl, rfl⟩
  case unlock => cases hs

theorem TxHeld.ret {pool : Nat} {s : TxState} {t : TxCall} {a : TxAccess} {e : RtErr}
    (hh : TxHeld s t) (hs : rk3576GmacDmaTransmit pool s t = (a, .ret e)) :
    t.pc = .unlock e ∧ a = .unlock := by
  cases hp : t.pc <;> simp only [TxHeld, hp, rk3576GmacDmaTransmit] at hh hs
  case unlock => cases hs; exact ⟨rfl, rfl⟩
  all_goals (repeat' split at hs) <;> cases hs

/-- A caller outside the lock either stays outside without touching anything, or takes it. -/
theorem TxOutside.step {pool : Nat} {s : TxState} {t : TxCall} {a : TxAccess} {g : TxGoto}
    (ho : t.pc = .entry ∨ t.pc = .lock) (hs : rk3576GmacDmaTransmit pool s t = (a, g)) :
    (a = .none ∧ (g = .ret .error ∨ g = .next { t with pc := .lock } ∨ g = .blocked)) ∨
      (s.txLock = none ∧ a = .lock ∧ g = .next { t with pc := .armFree }) := by
  rcases ho with hp | hp <;> simp only [rk3576GmacDmaTransmit, hp] at hs <;>
    split at hs <;> cases hs
  · exact .inl ⟨rfl, .inl rfl⟩
  · exact .inl ⟨rfl, .inr (.inl rfl)⟩
  · exact .inl ⟨rfl, .inr (.inr rfl)⟩
  · rename_i hk
    exact .inr ⟨hk, rfl, rfl⟩

theorem txInv_cpu {pool : Nat} {s s' : TxState} {c : Nat} (h : TxInv s)
    (hs : txStep pool s (.cpu c) = some s') : TxInv s' := by
  obtain ⟨t, a, hc, hs⟩ := txStep_cpu hs
  by_cases hl : s.txLock = some c
  · have hh := h.held hl hc
    rcases hs with ⟨u, hr, rfl⟩ | ⟨e, hr, rfl⟩
    · obtain ⟨hu, hi, hk, -⟩ := hh.step (c := c) h.index_lt hr
      have hcalls : (s.perform c a).calls = s.calls := by cases a <;> rfl
      exact h.move hl (by simp [TxState.setCall, hcalls]) (hk.trans hl) hi hu
    · obtain ⟨-, rfl⟩ := hh.ret hr
      refine ⟨h.index_lt, fun d _ => ?_, by simp [TxState.setCall, TxState.perform]⟩
      by_cases he : d = c
      · subst he; simp [TxState.setCall, TxOutside]
      · simpa [TxState.setCall, TxState.perform, Function.update_of_ne he] using
          h.outside d (by rw [hl]; simpa using Ne.symm he)
  · have ho : t.pc = .entry ∨ t.pc = .lock := by simpa [hc, TxOutside] using h.outside c hl
    rcases hs with ⟨u, hr, rfl⟩ | ⟨e, hr, rfl⟩
    · rcases TxOutside.step ho hr with ⟨rfl, he | he | he⟩ | ⟨hk, rfl, he⟩ <;> cases he
      · exact h.move_outside hl rfl (.inr rfl) rfl rfl rfl
      · refine ⟨h.index_lt, fun d hd => ?_, fun d hd => ?_⟩
        · have hne : d ≠ c := fun he => hd (by simp [he, TxState.setCall, TxState.perform])
          simpa [TxState.setCall, TxState.perform, Function.update_of_ne hne] using
            h.outside d (by simp [hk])
        · obtain rfl : c = d := by simpa [TxState.setCall, TxState.perform] using hd
          exact ⟨{ t with pc := .armFree }, by simp [TxState.setCall], by simp [TxHeld]⟩
    · rcases TxOutside.step ho hr with ⟨rfl, he | he | he⟩ | ⟨_, _, he⟩ <;> cases he
      exact h.move_outside hl rfl trivial rfl rfl rfl

theorem txInv_step {pool : Nat} {s s' : TxState} {a : TxAct} (h : TxInv s)
    (hs : txStep pool s a = some s') : TxInv s' := by
  cases hc : a.caller with
  | some c =>
    rcases txStep_caller hs hc with ⟨p, hi, rfl⟩ | rfl | ⟨t, ht, hp, rfl⟩
    · have hl : s.txLock ≠ some c := fun hl => by
        obtain ⟨t, ht, -⟩ := h.holder c hl
        simp [hi] at ht
      exact h.move_outside hl rfl (.inl rfl) rfl rfl rfl
    · exact txInv_cpu h hs
    · have hl : s.txLock ≠ some c := fun hl => by simpa [TxHeld, hp] using h.held hl ht
      exact h.move_outside hl rfl trivial rfl rfl rfl
  | none =>
    cases a with
    | engine wb =>
      simp only [txStep, txEngine] at hs
      split at hs <;> cases hs
      refine h.environment rfl rfl rfl fun i hi => ?_
      by_cases he : i = s.engine
      · subst he; simp [TxState.emit]
      · simpa [TxState.emit, Function.update_of_ne he] using hi
    | tick now => cases hs; exact h.environment rfl rfl rfl fun _ hi => hi
    | link up => cases hs; exact h.environment rfl rfl rfl fun _ hi => hi
    | foreign o b =>
      simp only [txStep] at hs
      split at hs <;> cases hs
      exact h.environment rfl rfl rfl fun _ hi => hi
    | _ => simp [TxAct.caller] at hc

theorem txInv_runs {pool : Nat} {g : GmacDev} {buf : Nat → Byte} {now : BitVec 32}
    {as : List TxAct} {s : TxState} (h : runs (txStep pool) (txInit pool g buf now) as = some s) :
    TxInv s :=
  runs_invariant (fun _ _ _ => txInv_step) (txInv_init pool g buf now) h

end Rk3576.Gmac
