import Rk3576.Uart.Baud

/-! The second half of `dw8250_uart_configure` on a DesignWare UART that ignores writes of its line
control register while it is busy. -/
namespace Rk3576.Uart
open Rk3576.Gmac (RtErr)

def uartDll : Nat := 0
def uartDlm : Nat := 1
def uartIer : Nat := 1
def uartFcr : Nat := 2
def uartLcr : Nat := 3
def uartMcr : Nat := 4
def uartSsr : Nat := 0x22

def uartIerRdi : BitVec 32 := 0x01
def uartLcrDlab : BitVec 32 := 0x80
def uartLcrSpar : BitVec 32 := 0x20
def uartLcrParity : BitVec 32 := 0x8
def uartLcrStop : BitVec 32 := 0x4
def uartLcrWlen8 : BitVec 32 := 0x3
def uartMcrRts : BitVec 32 := 0x02
def uartFcrClear : BitVec 32 := 0x01 ||| 0x02 ||| 0x04

inductive UartReg where
  | thr | ier | dll | dlm | fcr | lcr | mcr | other
  deriving DecidableEq

/-- What the UART holds; `thr` is the last byte given to the transmitter. -/
structure Dw8250 where
  thr : BitVec 32
  ier : BitVec 32
  dll : BitVec 32
  dlm : BitVec 32
  fcr : BitVec 32
  lcr : BitVec 32
  mcr : BitVec 32
  deriving DecidableEq

/-- The register a store reaches: offsets 0 and 1 are the divisor latch while DLAB is set. -/
def Dw8250.reg (u : Dw8250) (offset : Nat) : UartReg :=
  if offset = uartDll then if u.lcr &&& uartLcrDlab ≠ 0 then .dll else .thr
  else if offset = uartDlm then if u.lcr &&& uartLcrDlab ≠ 0 then .dlm else .ier
  else if offset = uartFcr then .fcr
  else if offset = uartLcr then .lcr
  else if offset = uartMcr then .mcr
  else .other

def Dw8250.store (u : Dw8250) (busy : Bool) (offset : Nat) (value : BitVec 32) : Dw8250 :=
  match u.reg offset with
  | .thr => { u with thr := value }
  | .ier => { u with ier := value }
  | .dll => { u with dll := value }
  | .dlm => { u with dlm := value }
  | .fcr => { u with fcr := value }
  | .lcr => if busy then u else { u with lcr := value }
  | .mcr => { u with mcr := value }
  | .other => u

/-- The loop of `dw8250_write32`, with the tries left and the attempt made last. Reading the
receive buffer has no effect on these registers. -/
def lcrRetry (busy : Nat → Bool) (value : BitVec 32) : Nat → Nat → Dw8250 → Dw8250
  | 0, _, u => u
  | tries + 1, attempt, u =>
    if value &&& ~~~uartLcrSpar = u.lcr &&& ~~~uartLcrSpar then u
    else
      let u := u.store false uartFcr uartFcrClear
      lcrRetry busy value tries (attempt + 1) (u.store (busy (attempt + 1)) uartLcr value)

/-- `busy` says for each attempt whether the UART is busy then; only the line control register
is tried again. -/
def dw8250Write32 (busy : Nat → Bool) (u : Dw8250) (offset : Nat) (value : BitVec 32) : Dw8250 :=
  let u := u.store (busy 0) offset value
  if offset = uartLcr then lcrRetry busy value 1000 0 u else u

structure LineOut where
  ret : RtErr
  uart : Dw8250
  dllTo : UartReg
  dlmTo : UartReg

def write (u : Dw8250) (offset : Nat) (value : BitVec 32) : Dw8250 :=
  dw8250Write32 (fun _ => false) u offset value

/-- `dw8250_write32(base, UART_LCR, f(dw8250_read32(base, UART_LCR)))` -/
def lcrModify (busy : Nat → Bool) (f : BitVec 32 → BitVec 32) (u : Dw8250) : Dw8250 :=
  dw8250Write32 busy u uartLcr (f u.lcr)

/-- From the software reset to RTS. The reset leaves an arbitrary LCR, so it is part of the
state that `dw8250_uart_configure` finds. -/
def uartReset (u : Dw8250) : Dw8250 :=
  let u := write u uartSsr 1
  let u := write u uartSsr 0
  let u := write u uartIer 0
  let u := write u uartFcr uartFcrClear
  let u := write u uartMcr 0
  write u uartMcr (u.mcr ||| uartMcrRts)

def storeDivisor (u : Dw8250) (divisor : BitVec 32) : Dw8250 :=
  let u := write u uartDll (divisor &&& 0xff)
  write u uartDlm ((divisor &&& 0xff00) >>> 8)

def lineFormat (busy : Nat → Nat → Bool) (u : Dw8250) : Dw8250 :=
  let u := lcrModify (busy 1) (fun lcr => lcr &&& ~~~uartLcrDlab) u
  let u := lcrModify (busy 2) (fun lcr => (lcr &&& ~~~uartLcrWlen8) ||| uartLcrWlen8) u
  let u := lcrModify (busy 3) (fun lcr => lcr &&& ~~~uartLcrStop) u
  lcrModify (busy 4) (fun lcr => lcr &&& ~~~uartLcrParity) u

/-- From the reset on. `busy k` is the pattern during the k-th of the five updates of LCR. -/
def dw8250UartProgram (busy : Nat → Nat → Bool) (u : Dw8250) (divisor : BitVec 32) : LineOut :=
  let u := uartReset u
  let u := lcrModify (busy 0) (fun lcr => lcr ||| uartLcrDlab) u
  let dllTo := u.reg uartDll
  let dlmTo := (write u uartDll (divisor &&& 0xff)).reg uartDlm
  let u := storeDivisor u divisor
  let u := lineFormat busy u
  { ret := .eok, uart := write u uartIer uartIerRdi, dllTo, dlmTo }

/-- One of the 1001 writes of an update finds the UART not busy. -/
def Lands (busy : Nat → Bool) : Prop := ∃ attempt ≤ 1000, busy attempt = false

def landsIn (busy : Nat → Bool) : Nat → Nat → Bool
  | 0, _ => false
  | tries + 1, attempt => !busy (attempt + 1) || landsIn busy tries (attempt + 1)

theorem landsIn_iff (busy : Nat → Bool) (tries attempt : Nat) :
    landsIn busy tries attempt = true ↔ ∃ b, attempt < b ∧ b ≤ attempt + tries ∧
    busy b = false := by
  induction tries generalizing attempt with
  | zero =>
    simp only [landsIn, Bool.false_eq_true, false_iff, not_exists]
    rintro b ⟨h1, h2, -⟩
    omega
  | succ tries ih =>
    simp only [landsIn, Bool.or_eq_true, Bool.not_eq_true', ih]
    constructor
    · rintro (h | ⟨b, h1, h2, h3⟩)
      · exact ⟨attempt + 1, by omega, by omega, h⟩
      · exact ⟨b, by omega, by omega, h3⟩
    · rintro ⟨b, h1, h2, h3⟩
      by_cases hb : b = attempt + 1
      · exact Or.inl (hb ▸ h3)
      · exact Or.inr ⟨b, by omega, by omega, h3⟩

theorem lands_iff (busy : Nat → Bool) : Lands busy ↔ (!busy 0 || landsIn busy 1000 0) = true := by
  rw [Bool.or_eq_true, landsIn_iff, Bool.not_eq_true']
  constructor
  · rintro ⟨a, ha, hb⟩
    by_cases h0 : a = 0
    · exact Or.inl (h0 ▸ hb)
    · exact Or.inr ⟨a, by omega, by omega, hb⟩
  · rintro (h | ⟨b, -, h2, h3⟩)
    · exact ⟨0, by omega, h⟩
    · exact ⟨b, by omega, h3⟩

instance (busy : Nat → Bool) : Decidable (Lands busy) := decidable_of_iff _ (lands_iff busy).symm

theorem store_lcr (u : Dw8250) (busy : Bool) (value : BitVec 32) :
    u.store busy uartLcr value = if busy then u else { u with lcr := value } := rfl

theorem eq_of_spar {x y : BitVec 32} (hs : x &&& uartLcrSpar = y &&& uartLcrSpar)
    (h : x &&& ~~~uartLcrSpar = y &&& ~~~uartLcrSpar) : x = y := by
  have hx : ∀ x : BitVec 32, (x &&& ~~~uartLcrSpar) ||| (x &&& uartLcrSpar) = x := by
    intro x
    ext i hi
    simp only [BitVec.getElem_or, BitVec.getElem_and, BitVec.getElem_not]
    cases x[i] <;> cases uartLcrSpar[i] <;> rfl
  rw [← hx x, ← hx y, hs, h]

/-- The loop ends with the value in place if a later attempt lands, and changes nothing but the
FIFO control besides. -/
theorem lcrRetry_eq (busy : Nat → Bool) (value : BitVec 32) (tries attempt : Nat) (u : Dw8250)
    (hs : value &&& uartLcrSpar = u.lcr &&& uartLcrSpar) :
    ∃ f, lcrRetry busy value tries attempt u =
      { u with fcr := f, lcr := if landsIn busy tries attempt then value else u.lcr } := by
  induction tries generalizing attempt u with
  | zero => exact ⟨u.fcr, rfl⟩
  | succ tries ih =>
    by_cases heq : value &&& ~~~uartLcrSpar = u.lcr &&& ~~~uartLcrSpar
    · have hv : value = u.lcr := eq_of_spar hs heq
      refine ⟨u.fcr, ?_⟩
      rw [lcrRetry, if_pos heq, hv, ite_self]
    · have hstep :
        lcrRetry busy value (tries + 1) attempt u = lcrRetry busy value tries (attempt + 1)
          (Dw8250.store { u with fcr := uartFcrClear } (busy (attempt + 1)) uartLcr value) :=
            if_neg heq
      rw [hstep, store_lcr]
      cases hb : busy (attempt + 1) with
      | true =>
        obtain ⟨f, hf⟩ := ih (attempt + 1) { u with fcr := uartFcrClear } hs
        refine ⟨f, ?_⟩
        simp only [if_true, hf, landsIn, hb, Bool.not_true, Bool.false_or]
      | false =>
        obtain ⟨f, hf⟩ := ih (attempt + 1) { u with fcr := uartFcrClear, lcr := value } rfl
        refine ⟨f, ?_⟩
        simp only [Bool.false_eq_true, if_false, hf, landsIn, hb, Bool.not_false,
          Bool.true_or, if_true, ite_self]

theorem write32_lcr (busy : Nat → Bool) (u : Dw8250) {value : BitVec 32}
    (hs : value &&& uartLcrSpar = u.lcr &&& uartLcrSpar) :
    ∃ f, dw8250Write32 busy u uartLcr value =
      { u with fcr := f, lcr := if Lands busy then value else u.lcr } := by
  have hw : dw8250Write32 busy u uartLcr value =
      lcrRetry busy value 1000 0 (u.store (busy 0) uartLcr value) := by
    rw [dw8250Write32, if_pos rfl]
  rw [hw, store_lcr]
  cases hb : busy 0 with
  | true =>
    obtain ⟨f, hf⟩ := lcrRetry_eq busy value 1000 0 u hs
    refine ⟨f, ?_⟩
    simp only [if_true, hf, lands_iff, hb, Bool.not_true, Bool.false_or]
  | false =>
    obtain ⟨f, hf⟩ := lcrRetry_eq busy value 1000 0 { u with lcr := value } rfl
    refine ⟨f, ?_⟩
    simp only [Bool.false_eq_true, if_false, hf, lands_iff, hb, Bool.not_false,
      Bool.true_or, if_true, ite_self]

def lcrEdit (lands : Prop) [Decidable lands] (k b x : BitVec 32) : BitVec 32 :=
  if lands then (x &&& k) ||| b else x

theorem lcrEdit_keep {lands : Prop} [Decidable lands] {k b x m : BitVec 32} (hk : k &&& m = m)
    (hb : b &&& m = 0) :
    lcrEdit lands k b x &&& m = x &&& m := by
  rw [lcrEdit]
  split
  · exact Gmac.and_keep hk hb
  · rfl

theorem lcrEdit_set {lands : Prop} [Decidable lands] {k b x m : BitVec 32} (hk : k &&& m = 0) :
    lcrEdit lands k b x &&& m = if lands then b &&& m else x &&& m := by
  rw [lcrEdit]
  split
  · exact Gmac.and_clear hk
  · rfl

theorem lcrModify_eq (busy : Nat → Bool) {g : BitVec 32 → BitVec 32} (k b : BitVec 32)
    (hg : ∀ x, g x = (x &&& k) ||| b) (hk : k &&& uartLcrSpar = uartLcrSpar)
    (hb : b &&& uartLcrSpar = 0)
    (u : Dw8250) :
    ∃ f, lcrModify busy g u = { u with fcr := f, lcr := lcrEdit (Lands busy) k b u.lcr } := by
  rw [lcrModify, hg]
  exact write32_lcr busy u (Gmac.and_keep hk hb)

section Program
variable (busy : Nat → Nat → Bool) (lcr : BitVec 32)

def lcrOpen : BitVec 32 := lcrEdit (Lands (busy 0)) (~~~0) uartLcrDlab lcr

def lcrLast : BitVec 32 :=
  lcrEdit (Lands (busy 4)) (~~~uartLcrParity) 0 <|
  lcrEdit (Lands (busy 3)) (~~~uartLcrStop) 0 <|
  lcrEdit (Lands (busy 2)) (~~~uartLcrWlen8) uartLcrWlen8 <|
  lcrEdit (Lands (busy 1)) (~~~uartLcrDlab) 0 (lcrOpen busy lcr)

theorem lcrOpen_dlab :
    lcrOpen busy lcr &&& uartLcrDlab ≠ 0 ↔ (lcr &&& uartLcrDlab = 0 → Lands (busy 0)) := by
  have hor : ∀ x b : BitVec 32, (x ||| b) &&& b = b := by
    intro x b
    ext i hi
    simp only [BitVec.getElem_and, BitVec.getElem_or]
    cases x[i] <;> cases b[i] <;> rfl
  have hd : uartLcrDlab ≠ 0 := by decide
  rw [lcrOpen, lcrEdit]
  by_cases hl : Lands (busy 0)
  · rw [if_pos hl, hor]
    exact iff_of_true hd fun _ => hl
  · rw [if_neg hl]
    exact ⟨fun h h0 => absurd h0 h, fun h h0 => hl (h h0)⟩

theorem lcrLast_dlab : lcrLast busy lcr &&& uartLcrDlab =
      if Lands (busy 1) then 0 else lcrOpen busy lcr &&& uartLcrDlab := by
  rw [lcrLast, lcrEdit_keep (by decide) (by decide), lcrEdit_keep (by decide) (by decide),
    lcrEdit_keep (by decide) (by decide), lcrEdit_set (by decide)]
  rfl

theorem lcrLast_wlen : lcrLast busy lcr &&& uartLcrWlen8 =
      if Lands (busy 2) then uartLcrWlen8 else lcr &&& uartLcrWlen8 := by
  rw [lcrLast, lcrEdit_keep (by decide) (by decide), lcrEdit_keep (by decide) (by decide),
    lcrEdit_set (by decide),
    lcrEdit_keep (by decide) (by decide), lcrOpen, lcrEdit_keep (by decide) (by decide)]
  rfl

theorem lcrLast_stop :
    lcrLast busy lcr &&& uartLcrStop = if Lands (busy 3) then 0 else lcr &&& uartLcrStop := by
  rw [lcrLast, lcrEdit_keep (by decide) (by decide), lcrEdit_set (by decide),
    lcrEdit_keep (by decide) (by decide),
    lcrEdit_keep (by decide) (by decide), lcrOpen, lcrEdit_keep (by decide) (by decide)]
  rfl

theorem lcrLast_parity : lcrLast busy lcr &&& uartLcrParity =
      if Lands (busy 4) then 0 else lcr &&& uartLcrParity := by
  rw [lcrLast, lcrEdit_set (by decide), lcrEdit_keep (by decide) (by decide),
    lcrEdit_keep (by decide) (by decide),
    lcrEdit_keep (by decide) (by decide), lcrOpen, lcrEdit_keep (by decide) (by decide)]
  rfl

end Program

theorem write_eq (u : Dw8250) {offset : Nat} (h : offset ≠ uartLcr) (value : BitVec 32) :
    write u offset value = u.store false offset value := by
  rw [write, dw8250Write32, if_neg h]

theorem reg_lcr {u : Dw8250} {offset : Nat} (h : u.reg offset = .lcr) : offset = uartLcr := by
  rw [Dw8250.reg] at h
  split at h
  · split at h <;> cases h
  split at h
  · split at h <;> cases h
  split at h
  · cases h
  split at h
  · assumption
  split at h <;> cases h

theorem write_lcr (u : Dw8250) {offset : Nat} (h : offset ≠ uartLcr) (value : BitVec 32) :
    (write u offset value).lcr = u.lcr := by
  rw [write_eq u h, Dw8250.store]
  cases hr : u.reg offset with
  | lcr => exact absurd (reg_lcr hr) h
  | _ => rfl

theorem write_dll {u : Dw8250} (h : u.lcr &&& uartLcrDlab ≠ 0) (value : BitVec 32) :
    write u uartDll value = { u with dll := value } := by
  have hr : u.reg uartDll = .dll := by rw [Dw8250.reg, if_pos rfl, if_pos h]
  rw [write_eq u (by decide), Dw8250.store, hr]

theorem write_dlm {u : Dw8250} (h : u.lcr &&& uartLcrDlab ≠ 0) (value : BitVec 32) :
    write u uartDlm value = { u with dlm := value } := by
  have hr : u.reg uartDlm = .dlm := by rw [Dw8250.reg, if_neg (by decide), if_pos rfl, if_pos h]
  rw [write_eq u (by decide), Dw8250.store, hr]

theorem write_ier {u : Dw8250} (h : u.lcr &&& uartLcrDlab = 0) (value : BitVec 32) :
    write u uartIer value = { u with ier := value } := by
  have hr : u.reg uartIer = .ier := by
    rw [Dw8250.reg, if_neg (by decide), if_pos (by decide : uartIer = uartDlm),
      if_neg (not_not.mpr h)]
  rw [write_eq u (by decide), Dw8250.store, hr]

theorem uartReset_lcr (u : Dw8250) : (uartReset u).lcr = u.lcr := by
  simp only [uartReset]
  rw [write_lcr _ (by decide), write_lcr _ (by decide), write_lcr _ (by decide),
    write_lcr _ (by decide), write_lcr _ (by decide), write_lcr _ (by decide)]

theorem storeDivisor_lcr (u : Dw8250) (divisor : BitVec 32) :
    (storeDivisor u divisor).lcr = u.lcr := by
  rw [storeDivisor, write_lcr _ (by decide), write_lcr _ (by decide)]

theorem storeDivisor_open {u : Dw8250} (h : u.lcr &&& uartLcrDlab ≠ 0) (divisor : BitVec 32) :
    storeDivisor u divisor =
      { u with dll := divisor &&& 0xff, dlm := (divisor &&& 0xff00) >>> 8 } := by
  have h' : (write u uartDll (divisor &&& 0xff)).lcr &&& uartLcrDlab ≠ 0 := by
    rw [write_lcr _ (by decide)]; exact h
  rw [storeDivisor, write_dlm h', write_dll h]

theorem lineFormat_eq (busy : Nat → Nat → Bool) (u : Dw8250) :
    ∃ f, lineFormat busy u =
      { u with
        fcr := f
        lcr :=
          lcrEdit (Lands (busy 4)) (~~~uartLcrParity) 0 <|
          lcrEdit (Lands (busy 3)) (~~~uartLcrStop) 0 <|
          lcrEdit (Lands (busy 2)) (~~~uartLcrWlen8) uartLcrWlen8 <|
          lcrEdit (Lands (busy 1)) (~~~uartLcrDlab) 0 u.lcr } := by
  obtain ⟨f1, h1⟩ :=
    lcrModify_eq (busy 1) (g := fun lcr => lcr &&& ~~~uartLcrDlab) (~~~uartLcrDlab) 0 (by simp)
    (by decide) (by decide) u
  obtain ⟨f2, h2⟩ :=
    lcrModify_eq (busy 2) (g := fun lcr => (lcr &&& ~~~uartLcrWlen8) ||| uartLcrWlen8)
    (~~~uartLcrWlen8) uartLcrWlen8 (fun _ => rfl) (by decide) (by decide) (lcrModify (busy 1) _ u)
  obtain ⟨f3, h3⟩ :=
    lcrModify_eq (busy 3) (g := fun lcr => lcr &&& ~~~uartLcrStop) (~~~uartLcrStop) 0 (by simp)
    (by decide) (by decide) (lcrModify (busy 2) _ (lcrModify (busy 1) _ u))
  obtain ⟨f4, h4⟩ :=
    lcrModify_eq (busy 4) (g := fun lcr => lcr &&& ~~~uartLcrParity) (~~~uartLcrParity) 0 (by simp)
    (by decide) (by decide) (lcrModify (busy 3) _ (lcrModify (busy 2) _ (lcrModify (busy 1) _ u)))
  refine ⟨f4, ?_⟩
  rw [lineFormat, h4, h3, h2, h1]

/-- What a successful configuration is to leave. -/
def LineOut.Configured (o : LineOut) (divisor : BitVec 32) : Prop :=
  o.uart.dlm.toNat * 256 + o.uart.dll.toNat = divisor.toNat ∧
    o.uart.lcr &&& uartLcrDlab = 0 ∧ o.uart.lcr &&& uartLcrWlen8 = uartLcrWlen8 ∧
    o.uart.lcr &&& uartLcrStop = 0 ∧ o.uart.lcr &&& uartLcrParity = 0 ∧
    o.uart.ier = uartIerRdi ∧
    o.dllTo ≠ .thr ∧ o.dllTo ≠ .ier ∧ o.dlmTo ≠ .thr ∧ o.dlmTo ≠ .ier

section Outcome
variable (busy : Nat → Nat → Bool) (u : Dw8250) (divisor : BitVec 32)

theorem opened_lcr :
    (lcrModify (busy 0) (fun lcr => lcr ||| uartLcrDlab) (uartReset u)).lcr =
      lcrOpen busy u.lcr := by
  have hones : ~~~(0 : BitVec 32) = BitVec.allOnes 32 := by decide
  obtain ⟨f, hf⟩ := lcrModify_eq (busy 0) (g := fun lcr => lcr ||| uartLcrDlab) (~~~0) uartLcrDlab
    (fun x => by rw [hones, BitVec.and_allOnes]) (by decide) (by decide) (uartReset u)
  rw [hf, uartReset_lcr]
  rfl

theorem program_lcr : (dw8250UartProgram busy u divisor).uart.lcr = lcrLast busy u.lcr := by
  obtain ⟨f, hf⟩ := lineFormat_eq busy
    (storeDivisor (lcrModify (busy 0) (fun lcr => lcr ||| uartLcrDlab) (uartReset u)) divisor)
  simp only [dw8250UartProgram]
  rw [write_lcr _ (by decide), hf]
  simp only [storeDivisor_lcr, opened_lcr]
  rfl

/-- With DLAB clear the two bytes go to the transmitter and to IER. -/
theorem program_targets :
    (dw8250UartProgram busy u divisor).dllTo =
      (if lcrOpen busy u.lcr &&& uartLcrDlab ≠ 0 then .dll else .thr) ∧
      (dw8250UartProgram busy u divisor).dlmTo =
        (if lcrOpen busy u.lcr &&& uartLcrDlab ≠ 0 then .dlm else .ier) := by
  simp only [dw8250UartProgram]
  constructor
  · rw [Dw8250.reg, if_pos rfl, opened_lcr]
  · rw [Dw8250.reg, if_neg (by decide), if_pos rfl, write_lcr _ (by decide), opened_lcr]

theorem program_latch (ho : lcrOpen busy u.lcr &&& uartLcrDlab ≠ 0)
    (hl : lcrLast busy u.lcr &&& uartLcrDlab = 0) :
    (dw8250UartProgram busy u divisor).uart.dll = divisor &&& 0xff ∧
      (dw8250UartProgram busy u divisor).uart.dlm = (divisor &&& 0xff00) >>> 8 ∧
      (dw8250UartProgram busy u divisor).uart.ier = uartIerRdi := by
  have hopen := opened_lcr busy u
  have hlast := program_lcr busy u divisor
  simp only [dw8250UartProgram] at hlast ⊢
  generalize lcrModify (busy 0) (fun lcr => lcr ||| uartLcrDlab) (uartReset u) = v at hopen hlast ⊢
  obtain ⟨f, hf⟩ := lineFormat_eq busy (storeDivisor v divisor)
  have hclear : (lineFormat busy (storeDivisor v divisor)).lcr &&& uartLcrDlab = 0 := by
    rw [write_lcr _ (by decide)] at hlast
    rw [hlast, hl]
  rw [write_ier hclear, hf, storeDivisor_open (hopen ▸ ho)]
  exact ⟨rfl, rfl, rfl⟩

end Outcome

theorem landed_iff {p : Prop} [Decidable p] {a b : BitVec 32} :
    (if p then b else a) = b ↔ (a ≠ b → p) := by
  by_cases hp : p
  · rw [if_pos hp]
    exact iff_of_true rfl fun _ => hp
  · rw [if_neg hp]
    exact ⟨fun h hne => absurd h hne, fun h => not_not.mp fun hne => hp (h hne)⟩

/-- For every state of the UART, every busy pattern and every divisor: RT_EOK means a configured
UART exactly if the divisor fits its latch and each update of LCR that has a bit to change finds
the UART not busy at one of its 1001 attempts. -/
theorem dw8250UartProgram_configured_iff (busy : Nat → Nat → Bool) (u : Dw8250)
    (divisor : BitVec 32) :
    ((dw8250UartProgram busy u divisor).ret = .eok →
      (dw8250UartProgram busy u divisor).Configured divisor) ↔
      divisor.toNat < 2 ^ 16 ∧
        (u.lcr &&& uartLcrDlab = 0 → Lands (busy 0)) ∧ Lands (busy 1) ∧
        (u.lcr &&& uartLcrWlen8 ≠ uartLcrWlen8 → Lands (busy 2)) ∧
        (u.lcr &&& uartLcrStop ≠ 0 → Lands (busy 3)) ∧
        (u.lcr &&& uartLcrParity ≠ 0 → Lands (busy 4)) := by
  have hret : (dw8250UartProgram busy u divisor).ret = .eok := rfl
  obtain ⟨hdll, hdlm⟩ := program_targets busy u divisor
  rw [LineOut.Configured, program_lcr, lcrLast_wlen, lcrLast_stop, lcrLast_parity, hdll,
    hdlm, ← lcrOpen_dlab, landed_iff, landed_iff, landed_iff]
  have hbytes := divisor_bytes divisor
  have hdlab := lcrLast_dlab busy u.lcr
  have hlatch := program_latch busy u divisor
  constructor
  · intro h
    obtain ⟨hb, hd, hw, hs, hp, -, hthr, -, -, -⟩ := h hret
    have ho : lcrOpen busy u.lcr &&& uartLcrDlab ≠ 0 := by
      intro hn
      rw [if_neg (not_not.mpr hn)] at hthr
      exact hthr rfl
    obtain ⟨hlo, hhi, -⟩ := hlatch ho hd
    rw [hlo, hhi, hbytes] at hb
    have h1 : Lands (busy 1) := by
      rw [hdlab, landed_iff] at hd
      exact hd ho
    exact ⟨by omega, ho, h1, hw, hs, hp⟩
  · rintro ⟨hlt, ho, h1, h2, h3, h4⟩ -
    have hd : lcrLast busy u.lcr &&& uartLcrDlab = 0 := by rw [hdlab, if_pos h1]
    obtain ⟨hlo, hhi, hier⟩ := hlatch ho hd
    rw [hlo, hhi, hbytes, Nat.mod_eq_of_lt hlt, if_pos ho, if_pos ho]
    exact ⟨rfl, hd, h2, h3, h4, hier, by decide, by decide, by decide, by decide⟩

/-- A UART that stays busy through the first update: the low byte of the divisor is sent down
the line, the high byte lands in IER, and the latch keeps its old value; still RT_EOK. -/
theorem busy_uart_misconfigured :
    let u : Dw8250 := ⟨0, 0, 1, 0, 0, 3, 0⟩
    let o := dw8250UartProgram (fun k _ => k == 0) u 13
    o.ret = .eok ∧ o.dllTo = .thr ∧ o.uart.thr = 13 ∧ o.dlmTo = .ier ∧ o.uart.dll = 1 ∧
    ¬o.Configured 13 := by
  intro u o
  have h : o.ret = .eok ∧ o.dllTo = .thr ∧ o.uart.thr = 13 ∧ o.dlmTo = .ier ∧ o.uart.dll = 1 := by
    decide +kernel
  exact ⟨h.1, h.2.1, h.2.2.1, h.2.2.2.1, h.2.2.2.2, fun hc => hc.2.2.2.2.2.2.1 h.2.1⟩

end Rk3576.Uart
