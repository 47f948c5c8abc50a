import Rk3576.Pin.Gpio

/-! `rk3576_pin_get`: pin names such as P3.17, and the strings on which its 32-bit accumulator
takes them for other pins. -/
namespace Rk3576.Pin

structure CString where
  chars : List (BitVec 8)
  noNul : (0 : BitVec 8) ∉ chars

def CString.bytes (s : CString) : List (BitVec 8) := s.chars ++ [0]

def pinEinval : BitVec 64 := -10

def isDigit (c : BitVec 8) : Bool := 0x30 ≤ c && c ≤ 0x39

/-- The loop of `rk3576_pin_get` at `name + index`: the accumulated pin, and the byte that ends
it. `none` is a read past the NUL, here and below. -/
def pinDigits : List (BitVec 8) → BitVec 32 → Option (BitVec 32 × BitVec 8)
  | [], _ => none
  | c :: cs, pin =>
    if isDigit c then pinDigits cs (pin * 10 + (c.setWidth 32 - 0x30)) else some (pin, c)

def rk3576GpioPin (bank pin : BitVec 32) : BitVec 32 := bank * 32 + pin

def pinGetDigits (bank : BitVec 32) (bytes : List (BitVec 8)) : Option (BitVec 64) :=
  bytes[0]?.bind fun c =>
    if isDigit c then
      (pinDigits bytes 0).map fun (pin, stop) =>
        if stop ≠ 0 ∨ pin ≥ 32 then pinEinval else (rk3576GpioPin bank pin).setWidth 64
    else some pinEinval

/-- The bytes are read one after the other, each only after the checks on those before. -/
def pinGetBytes (name : List (BitVec 8)) : Option (BitVec 64) :=
  name[0]?.bind fun c0 =>
    if c0 ≠ 0x50 ∧ c0 ≠ 0x70 then some pinEinval
    else
      name[1]?.bind fun c1 =>
        if c1 < 0x30 ∨ c1 > 0x34 then some pinEinval
        else
          name[2]?.bind fun c2 =>
            pinGetDigits (c1.setWidth 32 - 0x30) (name.drop (if c2 = 0x2e then 3 else 2))

def rk3576PinGet (name : Option CString) : Option (BitVec 64) :=
  match name with
  | none => some pinEinval
  | some s => pinGetBytes s.bytes

def digit (c : BitVec 8) : Nat := c.toNat - 0x30

def decimal (n : Nat) (digits : List (BitVec 8)) : Nat :=
  digits.foldl (fun n c => n * 10 + digit c) n

/-- P or p, a bank from 0 to 4, and the digits of the pin, with or without a dot before them. -/
inductive PinName : List (BitVec 8) → Nat → Nat → Prop where
  | plain {p b : BitVec 8} {digits : List (BitVec 8)} (hp : p = 0x50 ∨ p = 0x70)
      (hb : 0x30 ≤ b ∧ b ≤ 0x34)
      (hne : digits ≠ []) (hd : ∀ d ∈ digits, isDigit d = true) :
      PinName (p :: b :: digits) (digit b) (decimal 0 digits)
  | dotted {p b : BitVec 8} {digits : List (BitVec 8)} (hp : p = 0x50 ∨ p = 0x70)
      (hb : 0x30 ≤ b ∧ b ≤ 0x34)
      (hne : digits ≠ []) (hd : ∀ d ∈ digits, isDigit d = true) :
      PinName (p :: b :: 0x2e :: digits) (digit b) (decimal 0 digits)

/-- The parser accepts the string exactly if it names a pin below 32, with that pin's number, and
the number decodes to that pin. -/
structure PinGetExact (s : CString) : Prop where
  accepts : ∀ bank n, PinName s.chars bank n → n ≤ 31 →
    rk3576PinGet (some s) = some (BitVec.ofNat 64 (bank * 32 + n))
  refuses : (∀ bank n, PinName s.chars bank n → ¬n ≤ 31) → rk3576PinGet (some s) = some pinEinval
  decodes : ∀ pin, rk3576PinGet (some s) = some pin → pin ≠ pinEinval →
    ∃ bank n, PinName s.chars bank n ∧
    ∃ b i, rk3576GpioDecode pin = some (b, i) ∧ b.toNat = bank ∧ i.toNat = n

/-- A name of a pin from 2^32 on that wraps to one below 32. -/
def WrapsToPin (s : CString) : Prop :=
  ∃ bank n, PinName s.chars bank n ∧ 2 ^ 32 ≤ n ∧ n % 2 ^ 32 ≤ 31

theorem isDigit_iff {c : BitVec 8} : isDigit c = true ↔ 0x30 ≤ c.toNat ∧ c.toNat ≤ 0x39 := by
  simp only [isDigit, Bool.and_eq_true, decide_eq_true_eq, BitVec.le_def]
  exact Iff.rfl

theorem digit_value {c : BitVec 8} (h : isDigit c = true) :
    (c.setWidth 32 - 0x30).toNat = digit c := by
  obtain ⟨hl, hu⟩ := isDigit_iff.mp h
  rw [digit]
  bv_omega

/-- The accumulator is the value modulo 2^32, however long the digits get. -/
theorem pinDigits_eq (cs rest : List (BitVec 8)) (stop : BitVec 8) (hd : ∀ d ∈ cs, isDigit d = true)
    (hs : isDigit stop = false) (pin : BitVec 32) {n : Nat} (hn : pin.toNat = n % 2 ^ 32) :
    ∃ q, pinDigits (cs ++ stop :: rest) pin = some (q, stop) ∧ q.toNat = decimal n cs % 2 ^ 32 := by
  induction cs generalizing pin n with
  | nil => exact ⟨pin, by rw [List.nil_append, pinDigits, hs]; rfl, hn⟩
  | cons c cs ih =>
    have hc : isDigit c = true := hd c List.mem_cons_self
    have hstep : (pin * 10 + (c.setWidth 32 - 0x30)).toNat = (n * 10 + digit c) % 2 ^ 32 := by
      rw [BitVec.toNat_add, BitVec.toNat_mul, digit_value hc, hn]
      have h10 : (10 : BitVec 32).toNat = 10 := rfl
      rw [h10]
      omega
    obtain ⟨q, hq, hv⟩ := ih (fun d hd' => hd d (List.mem_cons_of_mem c hd')) _ hstep
    refine ⟨q, ?_, hv⟩
    rw [List.cons_append, pinDigits, if_pos hc]
    exact hq

theorem digits_split {t : List (BitVec 8)} (h0 : (0 : BitVec 8) ∉ t) :
    ∃ ds stop rest, t ++ [0] = ds ++ stop :: rest ∧ (∀ d ∈ ds, isDigit d = true) ∧
    isDigit stop = false ∧
      (stop = 0 → t = ds) := by
  induction t with
  | nil => exact ⟨[], 0, [], rfl, fun _ hd => absurd hd List.not_mem_nil, rfl, fun _ => rfl⟩
  | cons c t ih =>
    rw [List.mem_cons, not_or] at h0
    cases hc : isDigit c with
    | false =>
      refine ⟨[], c, t ++ [0], rfl, fun _ hd => absurd hd List.not_mem_nil, hc, ?_⟩
      exact fun he => absurd he.symm h0.1
    | true =>
      obtain ⟨ds, stop, rest, ht, hd, hs, he⟩ := ih h0.2
      refine ⟨c :: ds, stop, rest, by rw [List.cons_append, ht, List.cons_append], ?_, hs, ?_⟩
      · rintro d (_ | ⟨_, hd'⟩)
        · exact hc
        · exact hd d hd'
      · exact fun h => congrArg (c :: ·) (he h)

def pinAnswer (bank n : Nat) : BitVec 64 :=
  if n % 2 ^ 32 ≤ 31 then BitVec.ofNat 64 (bank * 32 + n % 2 ^ 32) else pinEinval

theorem gpioPin_toNat {bank pin : BitVec 32} (hb : bank.toNat ≤ 4) (hp : pin.toNat ≤ 31) :
    (rk3576GpioPin bank pin).setWidth 64 = BitVec.ofNat 64 (bank.toNat * 32 + pin.toNat) := by
  rw [rk3576GpioPin]
  bv_omega

theorem getDigits_eq {bank : BitVec 32} (hb : bank.toNat ≤ 4) {ds : List (BitVec 8)}
    (hd : ∀ d ∈ ds, isDigit d = true)
    {stop : BitVec 8} (hs : isDigit stop = false) (rest : List (BitVec 8)) :
    pinGetDigits bank (ds ++ stop :: rest) =
      some (if ds ≠ [] ∧ stop = 0 then pinAnswer bank.toNat (decimal 0 ds) else pinEinval) := by
  obtain ⟨q, hq, hv⟩ := pinDigits_eq ds rest stop hd hs 0 (n := 0) rfl
  cases ds with
  | nil =>
    rw [if_neg fun hn => hn.1 rfl]
    simp [pinGetDigits, hs]
  | cons d ds =>
    have hfirst : isDigit d = true := hd d List.mem_cons_self
    have hget : pinGetDigits bank (d :: ds ++ stop :: rest) =
        some (if stop ≠ 0 ∨ q ≥ 32 then pinEinval else (rk3576GpioPin bank q).setWidth 64) := by
      rw [pinGetDigits, hq]
      simp [hfirst]
    rw [hget]
    by_cases h0 : stop = 0
    · rw [if_pos (⟨List.cons_ne_nil d ds, h0⟩ : d :: ds ≠ [] ∧ stop = 0), pinAnswer, ← hv]
      by_cases hp : q.toNat ≤ 31
      · have hlt : ¬(stop ≠ 0 ∨ q ≥ 32) := by
          rintro (hn | hge)
          · exact hn h0
          · bv_omega
        rw [if_neg hlt, if_pos hp, gpioPin_toNat hb hp]
      · have hge : stop ≠ 0 ∨ q ≥ 32 := by
          right
          bv_omega
        rw [if_pos hge, if_neg hp]
    · rw [if_pos (Or.inl h0), if_neg fun hn => h0 hn.2]

theorem getDigits_digits {bank : BitVec 32} (hb : bank.toNat ≤ 4) {ds : List (BitVec 8)}
    (hne : ds ≠ []) (hd : ∀ d ∈ ds, isDigit d = true) :
    pinGetDigits bank (ds ++ [0]) = some (pinAnswer bank.toNat (decimal 0 ds)) := by
  rw [getDigits_eq hb hd rfl, if_pos ⟨hne, rfl⟩]

theorem getDigits_other {bank : BitVec 32} (hb : bank.toNat ≤ 4) {t : List (BitVec 8)}
    (h0 : (0 : BitVec 8) ∉ t)
    (hn : ¬(t ≠ [] ∧ ∀ d ∈ t, isDigit d = true)) :
    pinGetDigits bank (t ++ [0]) = some pinEinval := by
  obtain ⟨ds, stop, rest, ht, hd, hs, he⟩ := digits_split h0
  rw [ht, getDigits_eq hb hd hs, if_neg]
  rintro ⟨hne, hz⟩
  obtain rfl := he hz
  exact hn ⟨hne, hd⟩

theorem bank_toNat {c : BitVec 8} (h : 0x30 ≤ c ∧ c ≤ 0x34) :
    (c.setWidth 32 - 0x30).toNat = digit c ∧ digit c ≤ 4 := by
  rw [digit]
  bv_omega

theorem letter_iff {p : BitVec 8} : ¬(p ≠ 0x50 ∧ p ≠ 0x70) ↔ p = 0x50 ∨ p = 0x70 := by
  rw [not_and_or, not_not, not_not]

theorem bank_iff {b : BitVec 8} : ¬(b < 0x30 ∨ b > 0x34) ↔ 0x30 ≤ b ∧ b ≤ 0x34 := by
  rw [not_or, BitVec.not_lt, gt_iff_lt, BitVec.not_lt]

theorem getBytes_head {p b : BitVec 8} (hp : p = 0x50 ∨ p = 0x70) (hb : 0x30 ≤ b ∧ b ≤ 0x34)
    (c : BitVec 8) (tail : List (BitVec 8)) :
    pinGetBytes (p :: b :: c :: tail) =
      pinGetDigits (b.setWidth 32 - 0x30) (if c = 0x2e then tail else c :: tail) := by
  simp only [pinGetBytes, List.getElem?_cons_zero, List.getElem?_cons_succ, Option.bind_some]
  rw [if_neg (letter_iff.mpr hp), if_neg (bank_iff.mpr hb)]
  split <;> rfl

theorem getBytes_letter {p : BitVec 8} (hp : ¬(p = 0x50 ∨ p = 0x70)) (tail : List (BitVec 8)) :
    pinGetBytes (p :: tail) = some pinEinval := by
  simp only [pinGetBytes, List.getElem?_cons_zero, Option.bind_some]
  rw [if_pos (not_not.mp (mt letter_iff.mp hp))]

theorem getBytes_bank {p b : BitVec 8} (hp : p = 0x50 ∨ p = 0x70) (hb : ¬(0x30 ≤ b ∧ b ≤ 0x34))
    (tail : List (BitVec 8)) : pinGetBytes (p :: b :: tail) = some pinEinval := by
  simp only [pinGetBytes, List.getElem?_cons_zero, List.getElem?_cons_succ, Option.bind_some]
  rw [if_neg (letter_iff.mpr hp), if_pos (not_not.mp (mt bank_iff.mp hb))]

theorem getBytes_name {chars : List (BitVec 8)} {bank n : Nat} (h : PinName chars bank n) :
    pinGetBytes (chars ++ [0]) = some (pinAnswer bank n) := by
  cases h with
  | @plain p b digits hp hb hne hd =>
    obtain ⟨hbank, hle⟩ := bank_toNat hb
    cases digits with
    | nil => exact absurd rfl hne
    | cons d ds =>
      have hdot : d ≠ 0x2e := by
        rintro rfl
        exact absurd (hd _ List.mem_cons_self) (by decide)
      have hget := getBytes_head hp hb d (ds ++ [0])
      rw [if_neg hdot, ← List.cons_append, getDigits_digits (hbank ▸ hle) hne hd, hbank] at hget
      exact hget
  | @dotted p b digits hp hb hne hd =>
    obtain ⟨hbank, hle⟩ := bank_toNat hb
    have hget := getBytes_head hp hb 0x2e (digits ++ [0])
    rw [if_pos rfl, getDigits_digits (hbank ▸ hle) hne hd, hbank] at hget
    exact hget

theorem getBytes_tail {p b : BitVec 8} (hp : p = 0x50 ∨ p = 0x70) (hb : 0x30 ≤ b ∧ b ≤ 0x34)
    {tail : List (BitVec 8)}
    (h0 : (0 : BitVec 8) ∉ tail) (hn : ∀ bank n, ¬PinName (p :: b :: tail) bank n) :
    pinGetBytes (p :: b :: (tail ++ [0])) = some pinEinval := by
  have hle : (b.setWidth 32 - 0x30).toNat ≤ 4 := (bank_toNat hb).1 ▸ (bank_toNat hb).2
  cases tail with
  | nil =>
    refine (getBytes_head hp hb 0 []).trans ?_
    rw [if_neg (by decide)]
    exact getDigits_other hle h0 fun hd => hd.1 rfl
  | cons c rest =>
    refine (getBytes_head hp hb c (rest ++ [0])).trans ?_
    split
    · next hc =>
      subst hc
      refine getDigits_other hle (fun h => h0 (List.mem_cons_of_mem _ h)) ?_
      exact fun hd => hn _ _ (.dotted hp hb hd.1 hd.2)
    · exact getDigits_other hle h0 fun hd => hn _ _ (.plain hp hb hd.1 hd.2)

theorem getBytes_other {chars : List (BitVec 8)} (h0 : (0 : BitVec 8) ∉ chars)
    (hn : ∀ bank n, ¬PinName chars bank n) :
    pinGetBytes (chars ++ [0]) = some pinEinval := by
  cases chars with
  | nil => rfl
  | cons p cs =>
    by_cases hp : p = 0x50 ∨ p = 0x70
    · cases cs with
      | nil => exact getBytes_bank hp (by decide) []
      | cons b tail =>
        by_cases hb : 0x30 ≤ b ∧ b ≤ 0x34
        · exact getBytes_tail hp hb
            (fun h => h0 (List.mem_cons_of_mem p (List.mem_cons_of_mem b h))) hn
        · exact getBytes_bank hp hb _
    · exact getBytes_letter hp _

theorem pinGet_cases (s : CString) :
    (∃ bank n, PinName s.chars bank n ∧ rk3576PinGet (some s) = some (pinAnswer bank n)) ∨
      (∀ bank n, ¬PinName s.chars bank n) ∧ rk3576PinGet (some s) = some pinEinval := by
  by_cases h : ∃ bank n, PinName s.chars bank n
  · obtain ⟨bank, n, hs⟩ := h
    exact Or.inl ⟨bank, n, hs, getBytes_name hs⟩
  · have hn : ∀ bank n, ¬PinName s.chars bank n := fun bank n hs => h ⟨bank, n, hs⟩
    exact Or.inr ⟨hn, getBytes_other s.noNul hn⟩

theorem PinName.unique {chars : List (BitVec 8)} {bank bank' n n' : Nat} (h : PinName chars bank n)
    (h' : PinName chars bank' n') : bank = bank' ∧ n = n' := by
  have hdot : isDigit 0x2e = false := rfl
  cases h with
  | plain hp hb hne hd =>
    cases h' with
    | plain => exact ⟨rfl, rfl⟩
    | dotted => exact absurd (hd _ List.mem_cons_self) (by rw [hdot]; decide)
  | dotted hp hb hne hd =>
    cases h' with
    | plain hp' hb' hne' hd' => exact absurd (hd' _ List.mem_cons_self) (by rw [hdot]; decide)
    | dotted => exact ⟨rfl, rfl⟩

theorem PinName.bank_le {chars : List (BitVec 8)} {bank n : Nat} (h : PinName chars bank n) :
    bank ≤ 4 := by
  cases h with
  | plain hp hb => exact (bank_toNat hb).2
  | dotted hp hb => exact (bank_toNat hb).2

theorem number_ne_einval {bank k : Nat} (hb : bank ≤ 4) (hk : k ≤ 31) :
    BitVec.ofNat 64 (bank * 32 + k) ≠ pinEinval := by
  intro h
  have hn := congrArg BitVec.toNat h
  rw [BitVec.toNat_ofNat, Nat.mod_eq_of_lt (by omega)] at hn
  have hv : pinEinval.toNat = 2 ^ 64 - 10 := rfl
  omega

theorem decode_named {bank n : Nat} (hb : bank ≤ 4) (hn : n ≤ 31) :
    ∃ b i, rk3576GpioDecode (BitVec.ofNat 64 (bank * 32 + n)) = some (b, i) ∧ b.toNat = bank ∧
    i.toNat = n := by
  refine ⟨_, _, decode_number ⟨⟨bank, by omega⟩, ⟨n, by omega⟩⟩, ?_, ?_⟩
  · exact Nat.mod_eq_of_lt (by change bank < 2 ^ 32; omega)
  · exact Nat.mod_eq_of_lt (by change n < 2 ^ 32; omega)

theorem pinAnswer_small {bank n : Nat} (h : n ≤ 31) :
    pinAnswer bank n = BitVec.ofNat 64 (bank * 32 + n) := by
  rw [pinAnswer, Nat.mod_eq_of_lt (by omega), if_pos h]

theorem pinAnswer_large {bank n : Nat} (h : ¬n ≤ 31) (hw : ¬(2 ^ 32 ≤ n ∧ n % 2 ^ 32 ≤ 31)) :
    pinAnswer bank n = pinEinval := by
  rw [pinAnswer, if_neg]
  intro hle
  by_cases hn : 2 ^ 32 ≤ n
  · exact hw ⟨hn, hle⟩
  · rw [Nat.mod_eq_of_lt (by omega)] at hle
    exact h hle

theorem exact_of_not_wraps {s : CString} (hw : ¬WrapsToPin s) : PinGetExact s where
  accepts bank n hs hn := by
    rw [← pinAnswer_small hn]
    exact getBytes_name hs
  refuses hno := by
    obtain ⟨bank, n, hs, hget⟩ | ⟨-, hget⟩ := pinGet_cases s
    · rw [hget, pinAnswer_large (hno bank n hs) fun hn => hw ⟨bank, n, hs, hn⟩]
    · exact hget
  decodes pin hpin hne := by
    obtain ⟨bank, n, hs, hget⟩ | ⟨-, hget⟩ := pinGet_cases s
    · have hans : pin = pinAnswer bank n := Option.some.inj (hpin.symm.trans hget)
      have hn : n ≤ 31 := by
        by_contra hn
        rw [pinAnswer_large hn fun hn' => hw ⟨bank, n, hs, hn'⟩] at hans
        exact hne hans
      rw [pinAnswer_small hn] at hans
      exact ⟨bank, n, hs, hans ▸ decode_named hs.bank_le hn⟩
    · exact absurd (Option.some.inj (hpin.symm.trans hget)) hne

theorem not_exact_of_wraps {s : CString} (hw : WrapsToPin s) : ¬PinGetExact s := by
  obtain ⟨bank, n, hs, hbig, hle⟩ := hw
  intro h
  have href := h.refuses fun bank' n' hs' hn' => by
    have hn := (hs.unique hs').2
    omega
  have hans := Option.some.inj (href.symm.trans (getBytes_name hs))
  rw [pinAnswer, if_pos hle] at hans
  exact number_ne_einval hs.bank_le hle hans.symm

def PinId.name (q : PinId) : CString where
  chars := [0x50, BitVec.ofNat 8 (0x30 + q.bank), BitVec.ofNat 8 (0x30 + q.pin / 10),
    BitVec.ofNat 8 (0x30 + q.pin % 10)]
  noNul := by
    have h : ∀ (b : Fin 5) (i : Fin 32), (0 : BitVec 8) ∉ ([0x50, BitVec.ofNat 8 (0x30 + b),
      BitVec.ofNat 8 (0x30 + i / 10), BitVec.ofNat 8 (0x30 + i % 10)] : List (BitVec 8)) := by
        decide +kernel
    exact h q.bank q.pin

theorem PinId.name_names (q : PinId) : PinName q.name.chars q.bank q.pin := by
  have h : ∀ (b : Fin 5) (i : Fin 32),
      let c := BitVec.ofNat 8 (0x30 + b)
      let ds := [BitVec.ofNat 8 (0x30 + i / 10), BitVec.ofNat 8 (0x30 + i % 10)]
      (0x30 ≤ c ∧ c ≤ 0x34) ∧ digit c = b ∧ ds.all isDigit = true ∧ decimal 0 ds = i := by
        decide +kernel
  obtain ⟨hb, hbank, hd, hpin⟩ := h q.bank q.pin
  have hname := PinName.plain (Or.inl rfl) hb (List.cons_ne_nil _ _) (List.all_eq_true.mp hd)
  rw [hbank, hpin] at hname
  exact hname

/-- A string is parsed exactly if and only if it does not name a pin from 2^32 on that wraps to one
below 32. No string makes the parser read past its NUL, and every pin has a name. -/
theorem rk3576PinGet_exact_iff (s : CString) (q : PinId) :
    (PinGetExact s ↔ ¬WrapsToPin s) ∧ rk3576PinGet (some s) ≠ none ∧
      ∃ t : CString, PinName t.chars q.bank q.pin ∧ rk3576PinGet (some t) = some q.number := by
  refine ⟨⟨fun h hw => not_exact_of_wraps hw h, exact_of_not_wraps⟩, fun hnone => ?_, ?_⟩
  · obtain ⟨_, _, _, hget⟩ | ⟨-, hget⟩ := pinGet_cases s
    · cases hnone.symm.trans hget
    · cases hnone.symm.trans hget
  · have hget := getBytes_name q.name_names
    rw [pinAnswer_small (Nat.le_of_lt_succ q.pin.isLt)] at hget
    exact ⟨q.name, q.name_names, hget⟩

/-- P04294967296 is taken for pin 0 of bank 0. -/
theorem wrapped_name_accepted :
    let s : CString :=
      ⟨[0x50, 0x30, 0x34, 0x32, 0x39, 0x34, 0x39, 0x36, 0x37, 0x32, 0x39, 0x36], by decide⟩
    PinName s.chars 0 4294967296 ∧ rk3576PinGet (some s) = some 0 ∧
    rk3576GpioDecode 0 = some (0, 0) ∧ ¬PinGetExact s := by
  intro s
  have hs : PinName s.chars 0 4294967296 :=
    PinName.plain (Or.inl rfl) (by decide) (by decide) (by decide)
  refine ⟨hs, by decide, by decide, not_exact_of_wraps ⟨0, 4294967296, hs, by decide, by decide⟩⟩

end Rk3576.Pin
