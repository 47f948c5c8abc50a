import Rk3576.Gmac.TransmitLock

/-! The chain a transmit call is given: what the argument check lets through, and how the copy
loop walks it. Holds in every run, timeouts included. -/
namespace Rk3576.Gmac
open Rk3576.Run

def TxAct.WellFormed : TxAct → Prop
  | .call _ p => Gmac.WellFormed p
  | _ => True

instance : (a : TxAct) → Decidable a.WellFormed
  | .call _ p => inferInstanceAs (Decidable (Gmac.WellFormed p))
  | .cpu _ | .lockFail _ | .engine _ | .tick _ | .link _ | .foreign _ _ => isTrue trivial

def TxCall.checked (t : TxCall) : Prop :=
  WellFormed t.p ∧ (t.pc = .entry ∨ totLen t.p ≤ gmacDmaBufferSize)

def TxChecked (s : TxState) : Prop := ∀ c t, s.calls c = .busy t → t.checked

theorem TxCall.p_next {pool : Nat} {s : TxState} {t u : TxCall} {a : TxAccess}
    (hr : rk3576GmacDmaTransmit pool s t = (a, .next u)) : u.p = t.p := by
  cases hp : t.pc <;> simp only [hp, rk3576GmacDmaTransmit] at hr <;> (repeat' split at hr) <;>
    cases hr <;> rfl

theorem TxCall.checked.next {pool : Nat} {s : TxState} {t u : TxCall} {a : TxAccess} (h : t.checked)
    (hr : rk3576GmacDmaTransmit pool s t = (a, .next u)) : u.checked := by
  have hp := TxCall.p_next hr
  refine ⟨hp ▸ h.1, .inr (hp ▸ ?_)⟩
  cases h.2 with
  | inr hle => exact hle
  | inl he =>
    simp only [rk3576GmacDmaTransmit, he] at hr
    split at hr <;> cases hr
    rename_i hok
    simp only [not_or, Nat.not_lt] at hok
    exact hok.2.1

theorem TxCall.checked.length {t : TxCall} (h : t.checked) (hp : t.pc ≠ .entry) :
    (chainBytes t.p).length ≤ gmacDmaBufferSize := h.1 ▸ h.2.resolve_left hp

theorem TxChecked.move {s s' : TxState} {c : Nat} {v : TxThread} (h : TxChecked s)
    (hc : s'.calls = Function.update s.calls c v) (hv : ∀ t, v = .busy t → t.checked) :
    TxChecked s' := by
  intro d t hd
  rw [hc] at hd
  by_cases he : d = c
  · subst he
    exact hv t (by simpa using hd)
  · exact h d t (by simpa [Function.update_of_ne he] using hd)

theorem calls_perform (s : TxState) (c : Nat) (a : TxAccess) : (s.perform c a).calls = s.calls := by
  cases a <;> rfl

theorem txChecked_step {pool : Nat} {s s' : TxState} {a : TxAct} (h : TxChecked s)
    (hs : txStep pool s a = some s') (hw : a.WellFormed) : TxChecked s' := by
  cases a with
  | call c p =>
    simp only [txStep] at hs
    split at hs <;> cases hs
    refine h.move rfl ?_
    rintro _ ⟨⟩
    exact ⟨hw, .inl rfl⟩
  | cpu c =>
    obtain ⟨t, a, hc, hs⟩ := txStep_cpu hs
    rcases hs with ⟨u, hr, rfl⟩ | ⟨e, hr, rfl⟩
    · refine h.move (c := c) (v := .busy u) (by simp [TxState.setCall, calls_perform]) ?_
      rintro _ ⟨⟩
      exact (h c t hc).next hr
    · exact h.move (c := c) (v := .done t.p e) (by simp [TxState.setCall, calls_perform]) (by simp)
  | lockFail c =>
    simp only [txStep] at hs
    split at hs
    · split at hs <;> cases hs
      exact h.move rfl (by simp)
    · cases hs
  | engine wb =>
    simp only [txStep, txEngine] at hs
    split at hs <;> cases hs
    exact h
  | tick now => cases hs; exact h
  | link up => cases hs; exact h
  | foreign o b =>
    simp only [txStep] at hs
    split at hs <;> cases hs
    exact h

theorem txChecked_init (pool : Nat) (g : GmacDev) (buf : Nat → Byte) (now : BitVec 32) :
    TxChecked (txInit pool g buf now) := by
  intro c t hc
  simp [txInit] at hc

def headLen : List Pbuf → Nat
  | [] => 0
  | b :: _ => b.payload.length

/-- Where the copy loop is in the chain: `done` is the part already walked. -/
structure CopySpan (t : TxCall) (done : List Pbuf) : Prop where
  split : t.p = done ++ t.q
  offset : t.offset = (chainBytes done).length
  k_le : t.k ≤ headLen t.q

theorem CopySpan.store {t : TxCall} {done rest : List Pbuf} {b : Pbuf} {x : Byte}
    (h : CopySpan t done)
    (hq : t.q = b :: rest) (hx : b.payload[t.k]? = some x) :
    CopySpan { t with k := t.k + 1 } done where
  split := h.split
  offset := h.offset
  k_le := by
    obtain ⟨hk, -⟩ := List.getElem?_eq_some_iff.mp hx
    simp only [hq, headLen]
    exact hk

theorem CopySpan.at {t : TxCall} {done rest : List Pbuf} {b : Pbuf} {x : Byte} (h : CopySpan t done)
    (hq : t.q = b :: rest) (hx : b.payload[t.k]? = some x) :
    (chainBytes t.p)[t.offset + t.k]? = some x := by
  obtain ⟨hk, hx'⟩ := List.getElem?_eq_some_iff.mp hx
  rw [h.split, hq, h.offset]
  simp [chainBytes, List.getElem?_append, hk, hx']

theorem CopySpan.next {t : TxCall} {done rest : List Pbuf} {b : Pbuf} (h : CopySpan t done)
    (hq : t.q = b :: rest) (hx : b.payload[t.k]? = none)
    (hlen : (chainBytes t.p).length ≤ gmacDmaBufferSize) :
    (t.offset + b.payload.length) % 2 ^ 32 = t.offset + t.k ∧
      CopySpan { t with q := rest, k := 0, offset := (t.offset + b.payload.length) % 2 ^ 32 }
        (done ++ [b]) := by
  have hk : t.k = b.payload.length := by
    have h1 : t.k ≤ b.payload.length := by simpa [hq, headLen] using h.k_le
    have h2 := List.getElem?_eq_none_iff.mp hx
    omega
  have hoff : (t.offset + b.payload.length) % 2 ^ 32 = t.offset + b.payload.length := by
    have hle : t.offset + b.payload.length ≤ (chainBytes t.p).length := by
      rw [h.split, hq, h.offset]
      simp [chainBytes, ← Nat.add_assoc]
    simp only [gmacDmaBufferSize] at hlen
    omega
  refine ⟨by rw [hoff, hk], by simp [h.split, hq], ?_, Nat.zero_le _⟩
  rw [hoff, h.offset]
  simp [chainBytes]

theorem CopySpan.finish {t : TxCall} {done : List Pbuf} (h : CopySpan t done) (hq : t.q = []) :
    t.k = 0 ∧ t.offset = (chainBytes t.p).length := by
  have hp : t.p = done := by simpa [hq] using h.split
  refine ⟨by simpa [hq, headLen] using h.k_le, ?_⟩
  rw [hp]
  exact h.offset

end Rk3576.Gmac
