import Rk3576.Uart.Serial

/-! Sessions of a UART, from the first open to the last close, and when the receive interrupt is
covered by a buffer throughout. -/
namespace Rk3576.Uart
open Rk3576.Atomic Rk3576.Atomic.Prog Rk3576.Run Rk3576.Kernel
open Rk3576.Gmac (RtErr)

/-- What a history of calls comes to, seen from its users: how many there are, whether one of
them since the session began asked for receive interrupts, and whether the latest did. The
system stops at the 256th user. -/
structure Session where
  users : Nat
  rx : Bool
  lastRx : Bool
  stopped : Bool

def Session.fresh : Session := ⟨0, false, false, false⟩

def wantsRx (oflag : BitVec 16) : Bool := oflag &&& rtDeviceFlagIntRx != 0

/-- A UART has neither DMA nor transmit interrupts. -/
def accepted (oflag : BitVec 16) : Bool :=
  oflag &&& rtDeviceFlagDmaRx == 0 && oflag &&& rtDeviceFlagDmaTx == 0 &&
    oflag &&& rtDeviceFlagIntTx == 0

def Session.open (x : Session) (oflag : BitVec 16) : Session :=
  if accepted oflag then
    if x.users + 1 = 256 then { x with stopped := true }
    else { x with users := x.users + 1, rx := x.rx || wantsRx oflag, lastRx := wantsRx oflag }
  else x

def Session.close (x : Session) : Session :=
  if x.users = 1 then fresh else { x with users := x.users - 1 }

def sessionStep (x : Session) (c : SerialCall) : Option Session :=
  some <|
    if x.stopped then x
    else
      match c with
      | .open _ oflag => x.open oflag
      | .close => x.close
      | .config _ _ => x

/-- A close that ends a session with receive interrupts finds that the latest open asked for
them. -/
def EndsClean (x : Session) (c : SerialCall) (_ : Session) : Prop :=
  match c with
  | .close => x.stopped = false → x.users = 1 → x.rx = true → x.lastRx = true
  | _ => True

/-- With the interrupt unmasked there is a buffer, whatever IER says. -/
def Covered (s : SerialState) : Prop := s.irqMasked = false → RxLive s

theorem Covered.guarded {s : SerialState} (h : Covered s) : RxGuarded s := fun hm _ => h hm

theorem covered_of_masked {s : SerialState} (h : s.irqMasked = true) : Covered s := by
  intro hm
  rw [h] at hm
  cases hm

/-- Buffer, interrupt and open flags agree with what the users asked for. -/
structure Wired (s : SerialState) (rx last : Bool) : Prop where
  buffer : s.serialRx.isSome = rx
  masked : s.irqMasked = !rx
  latest : (s.openFlag &&& rtDeviceFlagIntRx != 0) = last
  noTx : s.openFlag &&& rtDeviceFlagIntTx = 0
  latestLe : last = true → rx = true
  dev : s.dev ∈ uartDevs
  live : ∀ block ∈ s.serialRx, block < s.nextBlock ∧ block ∉ s.freed
  freed : ∀ block ∈ s.freed, block < s.nextBlock

theorem Wired.covered {s : SerialState} {rx last : Bool} (h : Wired s rx last) : Covered s := by
  intro hm
  have hrx : s.serialRx.isSome = true := by
    rw [h.buffer, ← Bool.not_eq_false', ← h.masked, hm]
  obtain ⟨block, hb⟩ := Option.isSome_iff_exists.mp hrx
  exact ⟨block, hb, (h.live block hb).2⟩

def Frame (s t : SerialState) : Prop :=
  t.flag = s.flag ∧ t.refCount = s.refCount ∧ t.halted = s.halted

def rest (s : SerialState) : UartHw → RtErr → SerialState :=
  fun hw r => { s with hw := hw, ret := r }

theorem eq_of_rest {s t : SerialState} (h : rest s = rest t) :
    t = { s with hw := t.hw, ret := t.ret } :=
  (congrFun (congrFun h t.hw) t.ret).symm

theorem finish_silent (r : RtErr) : (finish r).Silent rest := fun _ => ⟨rfl, trivial⟩

theorem uartStores_silent (fs : List (Dw8250 → Dw8250)) {p : Prog SerialState}
    (hp : p.Silent rest) :
    (uartStores fs p).Silent rest := by
  induction fs with
  | nil => exact hp
  | cons f fs ih => exact fun _ => ⟨rfl, ih⟩

theorem configure_silent (busy : Nat → Nat → Bool) : (dw8250UartConfigure busy).Silent rest := by
  intro s
  refine ⟨rfl, fun t => ⟨rfl, ?_⟩⟩
  split
  · exact finish_silent _
  · exact uartStores_silent _ (finish_silent _)

theorem covered_rest {s t : SerialState} (h : rest s = rest t) (hs : Covered s) : Covered t := by
  rw [eq_of_rest h]
  exact hs

theorem wired_rest {s t : SerialState} (h : rest s = rest t) {rx last : Bool}
    (hs : Wired s rx last) :
    Wired t rx last := by
  rw [eq_of_rest h]
  exact ⟨hs.buffer, hs.masked, hs.latest, hs.noTx, hs.latestLe, hs.dev, hs.live, hs.freed⟩

theorem frame_rest {s t : SerialState} (h : rest s = rest t) : Frame s t := by
  rw [eq_of_rest h]
  exact ⟨rfl, rfl, rfl⟩

theorem configure_keeps (busy : Nat → Nat → Bool) {s : SerialState} {rx last : Bool}
    (h : Wired s rx last) :
    (dw8250UartConfigure busy).Keeps Covered (fun t => Wired t rx last ∧ Frame s t ∧
      t.ret = .eok) s := by
  have hsil :=
    keeps_iff.mp (silent_keeps (fun s t => covered_rest) (configure_silent busy) h.covered)
  refine keeps_iff.mpr ⟨hsil.1, wired_rest hsil.2.symm h, frame_rest hsil.2.symm, ?_⟩
  rw [configure_run busy h.dev]

theorem finish_keeps {Q : SerialState → Prop} {r : RtErr} {s : SerialState} (h : Covered s)
    (hq : Q { s with ret := r }) : (finish r).Keeps Covered Q s :=
  ⟨h, h, hq⟩

theorem or_and_of_disjoint {o b m : BitVec 16} (h : b &&& m = 0) : (o ||| b) &&& m = o &&& m := by
  rw [BitVec.and_or_distrib_right, h]
  exact BitVec.or_zero

theorem or_and_self_ne {o m : BitVec 16} (h : m ≠ 0) : ((o ||| m) &&& m != 0) = true := by
  rw [BitVec.and_or_distrib_right, BitVec.and_self, bne_iff_ne]
  intro h0
  exact h (BitVec.or_eq_zero_iff.mp h0).2

theorem Wired.orFlag {s : SerialState} {rx last : Bool} (h : Wired s rx last) {b : BitVec 16}
    (hr : b &&& rtDeviceFlagIntRx = 0) (ht : b &&& rtDeviceFlagIntTx = 0) :
    Wired { s with openFlag := s.openFlag ||| b } rx last :=
  { h with
    latest := by rw [← h.latest, or_and_of_disjoint hr]
    noTx := by rw [or_and_of_disjoint ht, h.noTx] }

theorem Wired.orRx {s : SerialState} {last : Bool} (h : Wired s true last) :
    Wired { s with openFlag := s.openFlag ||| rtDeviceFlagIntRx } true true :=
  { h with
    latest := or_and_self_ne (by decide)
    noTx := by rw [or_and_of_disjoint (by decide), h.noTx]
    latestLe := fun _ => rfl }

theorem Wired.newBuffer {s : SerialState} {last : Bool} (h : Wired s false last)
    (hw : UartHw) (r : RtErr) :
    Wired { s with
      nextBlock := s.nextBlock + 1
      serialRx := some s.nextBlock
      openFlag := s.openFlag ||| rtDeviceFlagIntRx
      hw := hw
      irqMasked := false
      ret := r } true true where
  buffer := rfl
  masked := rfl
  latest := or_and_self_ne (by decide)
  noTx := (or_and_of_disjoint (by decide)).trans h.noTx
  latestLe := fun _ => rfl
  dev := h.dev
  live := by
    intro block hb
    cases hb
    exact ⟨Nat.lt_succ_self _, fun hb => absurd (h.freed _ hb) (lt_irrefl _)⟩
  freed := fun block hb => Nat.lt_succ_of_lt (h.freed block hb)

theorem wantsRx_true {oflag : BitVec 16} (h : oflag &&& rtDeviceFlagIntRx ≠ 0) :
    wantsRx oflag = true := bne_iff_ne.mpr h

theorem wantsRx_false {oflag : BitVec 16} (h : oflag &&& rtDeviceFlagIntRx = 0) :
    wantsRx oflag = false := by
  rw [wantsRx, h]
  rfl

theorem openRx_keeps (oflag : BitVec 16) {s : SerialState} {rx : Bool} (h : Wired s rx false) :
    (rtSerialOpenRx oflag).Keeps Covered
      (fun t => Wired t (rx || wantsRx oflag) (wantsRx oflag) ∧ Frame s t) s := by
  have hc := h.covered
  rw [rtSerialOpenRx, keeps_read]
  refine ⟨hc, ?_⟩
  cases hrx : s.serialRx with
  | none =>
    obtain rfl : rx = false := by rw [← h.buffer, hrx]; rfl
    have hm : Covered s := covered_of_masked h.masked
    rw [if_pos rfl]
    by_cases hf : oflag &&& rtDeviceFlagIntRx ≠ 0
    · -- the new buffer is in place before the interrupt is unmasked
      have hnew : RxLive { s with serialRx := some s.nextBlock } :=
        ⟨s.nextBlock, rfl, fun hb => absurd (h.freed _ hb) (lt_irrefl _)⟩
      rw [if_pos hf, wantsRx_true hf]
      refine ⟨hm, hc, fun _ => hnew, fun _ => hnew, fun _ => hnew, fun _ => hnew, fun _ => hnew, ?_,
        rfl, rfl, rfl⟩
      exact h.newBuffer _ _
    · rw [if_neg hf, wantsRx_false (not_not.mp hf)]
      refine ⟨hm, covered_of_masked h.masked, ?_, rfl, rfl, rfl⟩
      exact { h with buffer := rfl, live := fun b hb => by cases hb }
  | some block =>
    obtain rfl : rx = true := by rw [← h.buffer, hrx]; rfl
    rw [if_neg (by rintro ⟨⟩)]
    by_cases hf : oflag &&& rtDeviceFlagIntRx ≠ 0
    · rw [if_pos hf, wantsRx_true hf]
      exact ⟨hc, h.orRx.covered, h.orRx, rfl, rfl, rfl⟩
    · rw [if_neg hf, wantsRx_false (not_not.mp hf)]
      exact ⟨hc, h, rfl, rfl, rfl⟩

theorem openTx_keeps {oflag : BitVec 16} (ho : oflag &&& rtDeviceFlagIntTx = 0) {s : SerialState}
    {rx last : Bool} (h : Wired s rx last) :
    (rtSerialOpenTx oflag).Keeps Covered (fun t => Wired t rx last ∧ Frame s t) s := by
  have hc := h.covered
  rw [rtSerialOpenTx, keeps_read, if_neg (not_not.mpr ho), if_neg (not_not.mpr ho)]
  refine ⟨hc, ?_⟩
  split
  · exact ⟨hc, hc, { h with }, rfl, rfl, rfl⟩
  · exact ⟨hc, h, rfl, rfl, rfl⟩

def UartFlag (f : BitVec 16) : Prop :=
  f = rtDeviceFlagRdwr ||| rtDeviceFlagIntRx ∨
  f = rtDeviceFlagRdwr ||| rtDeviceFlagIntRx ||| rtDeviceFlagActivated

theorem UartFlag.modes {f : BitVec 16} (h : UartFlag f) :
    f &&& rtDeviceFlagDmaRx = 0 ∧ f &&& rtDeviceFlagDmaTx = 0 ∧ f &&& rtDeviceFlagIntRx ≠ 0 ∧
      f &&& rtDeviceFlagIntTx = 0 ∧ f &&& rtDeviceFlagStandalone = 0 := by
  obtain rfl | rfl := h <;> decide

theorem lowByte_and (o : BitVec 16) {m : BitVec 16} (h : 0xff &&& m = 0) :
    o &&& 0xff &&& m = 0 := by
  rw [BitVec.and_assoc, h]
  exact BitVec.and_zero

theorem Wired.takeFlag {s : SerialState} {rx last : Bool} (h : Wired s rx last)
    (oflag : BitVec 16) :
    Wired { s with openFlag := oflag &&& 0xff } rx false :=
  { h with
    latest := by
      rw [lowByte_and oflag (by decide)]
      rfl
    noTx := lowByte_and oflag (by decide)
    latestLe := fun hf => by cases hf }

theorem serialOpen_refused {oflag : BitVec 16} (ho : accepted oflag = false) {s : SerialState}
    (hf : UartFlag s.flag) {rx last : Bool} (h : Wired s rx last) :
    (rtSerialOpen oflag).Keeps Covered (fun t => Wired t rx last ∧ Frame s t ∧ t.ret = .eio) s := by
  have hc := h.covered
  have hend : (finish .eio).Keeps Covered (fun t => Wired t rx last ∧ Frame s t ∧ t.ret = .eio) s :=
    finish_keeps hc ⟨{ h with }, ⟨rfl, rfl, rfl⟩, rfl⟩
  obtain ⟨hdr, hdt, -, hit, -⟩ := hf.modes
  rw [rtSerialOpen, keeps_read]
  refine ⟨hc, ?_⟩
  split
  · exact hend
  next h1 =>
  split
  · exact hend
  next h2 =>
  split
  · exact hend
  split
  · exact hend
  next h3 =>
  have hno : ∀ {m : BitVec 16}, s.flag &&& m = 0 → ¬lacks s oflag m → oflag &&& m = 0 :=
    fun hm hl => not_not.mp fun hn => hl ⟨hn, hm⟩
  rw [accepted, hno hdr h1, hno hdt h2, hno hit h3] at ho
  cases ho

theorem serialOpen_accepted {oflag : BitVec 16} (ho : accepted oflag = true) {s : SerialState}
    (hf : UartFlag s.flag) {rx last : Bool} (h : Wired s rx last) :
    (rtSerialOpen oflag).Keeps Covered
      (fun t => Wired t (rx || wantsRx oflag) (wantsRx oflag) ∧ Frame s t ∧ t.ret = .eok) s := by
  have hc := h.covered
  simp only [accepted, Bool.and_eq_true, beq_iff_eq] at ho
  obtain ⟨⟨hdr, hdt⟩, hit⟩ := ho
  have hno : ∀ {m : BitVec 16}, oflag &&& m = 0 → ¬lacks s oflag m := fun hm hl => hl.1 hm
  rw [rtSerialOpen, keeps_read, if_neg (hno hdr), if_neg (hno hdt),
    if_neg fun hl => hf.modes.2.2.1 hl.2, if_neg (hno hit)]
  refine ⟨hc, hc, keeps_seq (keeps_mono ?_ (openRx_keeps oflag (h.takeFlag oflag)))⟩
  rintro t ⟨ht, hfr⟩
  refine keeps_seq (keeps_mono ?_ (openTx_keeps hit ht))
  rintro u ⟨hu, hfr'⟩
  -- the stream flag is neither of the two modes
  have hs : ∀ b : BitVec 16, (b = rtDeviceFlagStream ∨ b = 0) →
      b &&& rtDeviceFlagIntRx = 0 ∧ b &&& rtDeviceFlagIntTx = 0 := by
    rintro b (rfl | rfl) <;> decide
  obtain ⟨hr, ht'⟩ :=
      hs (if oflag &&& rtDeviceFlagStream ≠ 0 ∨ s.openFlag &&& rtDeviceFlagStream ≠ 0 then
    rtDeviceFlagStream else 0) (ite_eq_or_eq _ _ _)
  have hw := hu.orFlag hr ht'
  exact ⟨hu.covered, finish_keeps hw.covered
    ⟨{ hw with }, ⟨hfr'.1.trans hfr.1, hfr'.2.1.trans hfr.2.1, hfr'.2.2.trans hfr.2.2⟩, rfl⟩⟩

structure Running (s : SerialState) (x : Session) : Prop where
  wired : Wired s x.rx x.lastRx
  count : s.refCount.toNat = x.users
  flag : UartFlag s.flag
  active : x.users ≠ 0 → s.flag &&& rtDeviceFlagActivated ≠ 0
  idle : x.users = 0 → x.rx = false
  halted : s.halted = false

theorem Running.frame {s t : SerialState} {x : Session} (h : Running s x)
    (hw : Wired t x.rx x.lastRx) (hf : Frame s t) : Running t x where
  wired := hw
  count := by rw [hf.2.1, h.count]
  flag := hf.1 ▸ h.flag
  active := hf.1 ▸ h.active
  idle := h.idle
  halted := hf.2.2.trans h.halted

/-- Either it agrees with the session, or both have stopped. -/
def Follows (s : SerialState) (x : Session) : Prop :=
  x.stopped = false ∧ Running s x ∨ x.stopped = true ∧ s.halted = true ∧ Covered s

theorem Follows.masked {s : SerialState} {x : Session} (h : Follows s x) :
    s.halted = false → s.refCount = 0 → s.irqMasked = true := by
  intro hh h0
  obtain ⟨-, hr⟩ | ⟨-, hs, -⟩ := h
  · have hu : x.users = 0 := by rw [← hr.count, h0]; rfl
    rw [hr.wired.masked, hr.idle hu]
    rfl
  · rw [hs] at hh
    cases hh

/-- The init operation meets a masked interrupt: it runs for the first user only. -/
theorem activate_keeps (busy : Nat → Nat → Bool) {s : SerialState} {x : Session} (h : Running s x) :
    (rtDeviceActivate serialOps busy).Keeps Covered
      (fun t => Running t x ∧ t.flag &&& rtDeviceFlagActivated ≠ 0 ∧ t.ret = .eok) s := by
  have hc := h.wired.covered
  refine rtDeviceActivate_keeps hc hc (fun ha => ?_) fun ha => ?_
  · exact ⟨⟨{ h.wired with }, h.count, h.flag, h.active, h.idle, h.halted⟩, ha, rfl⟩
  · have hu : x.users = 0 := not_not.mp fun hn => h.active hn ha
    have hrx : x.rx = false := h.idle hu
    have hm : s.irqMasked = true := by rw [h.wired.masked, hrx]; rfl
    have hflag : s.flag = rtDeviceFlagRdwr ||| rtDeviceFlagIntRx := by
      obtain hb | hb := h.flag
      · exact hb
      · change s.flag &&& _ = 0 at ha
        rw [hb] at ha
        exact absurd ha (by decide)
    have hw : Wired { s with ret := .eok, serialRx := none, serialTx := none } x.rx x.lastRx :=
      { h.wired with buffer := hrx.symm, live := fun b hb => by cases hb }
    refine ⟨hc, covered_of_masked hm, keeps_mono ?_ (configure_keeps busy hw)⟩
    rintro t ⟨ht, hfr, hret⟩
    have hact : t.flag ||| rtDeviceFlagActivated =
        rtDeviceFlagRdwr ||| rtDeviceFlagIntRx ||| rtDeviceFlagActivated := by
      rw [show t.flag = s.flag from hfr.1, hflag]
    refine ⟨ht.covered, hret, ht.covered, ⟨{ ht with }, ?_, Or.inr hact, ?_, h.idle, ?_⟩, ?_, hret⟩
    · exact (congrArg BitVec.toNat hfr.2.1).trans h.count
    · exact fun hn => absurd hu hn
    · exact hfr.2.2.trans h.halted
    · change (t.flag ||| rtDeviceFlagActivated) &&& rtDeviceFlagActivated ≠ 0
      rw [hact]
      decide

theorem count_keeps {s : SerialState} {x : Session} {rx last : Bool} (h : Running s x)
    (hx : x.stopped = false)
    (ha : s.flag &&& rtDeviceFlagActivated ≠ 0) {t : SerialState} (hw : Wired t rx last)
    (hf : Frame s t) (hret : t.ret = .eok) :
    rtDeviceCount.Keeps Covered (fun u => Follows u
      (if x.users + 1 = 256 then { x with stopped := true }
        else { x with users := x.users + 1, rx := rx, lastRx := last })) t := by
  have hw' := hw.orFlag (b := rtDeviceOflagOpen) (by decide) (by decide)
  have hc : Covered t := hw.covered
  have hcount : t.refCount.toNat = x.users := by rw [hf.2.1, h.count]
  have hadd : (t.refCount + 1).toNat = (x.users + 1) % 256 := by
    rw [BitVec.toNat_add, hcount]
    rfl
  have hlt : x.users < 256 := hcount ▸ t.refCount.isLt
  refine rtDeviceCount_keeps hc hret hc rfl hc (fun h0 => ?_) fun h0 => ?_
  · have hfull : x.users + 1 = 256 := by
      rw [show t.refCount + 1 = 0 from h0] at hadd
      change 0 = _ at hadd
      omega
    rw [if_pos hfull]
    exact ⟨hc, hc, Or.inr ⟨rfl, rfl, hc⟩⟩
  · have hnot : ¬x.users + 1 = 256 := fun hfull =>
      h0 (BitVec.eq_of_toNat_eq (hadd.trans (by rw [hfull]; rfl)))
    rw [if_neg hnot]
    refine Or.inl ⟨hx, { hw' with }, ?_, hf.1 ▸ h.flag, fun _ => hf.1 ▸ ha, ?_,
      hf.2.2.trans h.halted⟩
    · exact hadd.trans (Nat.mod_eq_of_lt (by omega))
    · exact fun hn => absurd hn (Nat.succ_ne_zero _)

theorem open_keeps (busy : Nat → Nat → Bool) (oflag : BitVec 16) {s : SerialState}
    {x : Session} (h : Running s x) (hx : x.stopped = false) :
    (rtDeviceOpen serialOps busy oflag).Keeps Covered (fun t => Follows t (x.open oflag)) s := by
  refine rtDeviceOpen_keeps (keeps_mono ?_ (activate_keeps busy h))
  rintro t ⟨ht, ha, hret⟩
  refine ⟨ht.wired.covered, hret, ht.flag.modes.2.2.2.2, ?_⟩
  rw [Session.open]
  cases ho : accepted oflag with
  | true =>
    refine keeps_mono ?_ (serialOpen_accepted ho ht.flag ht.wired)
    rintro u ⟨hu, hf, hr⟩
    exact count_keeps ht hx ha hu hf hr
  | false =>
    refine keeps_mono ?_ (serialOpen_refused ho ht.flag ht.wired)
    rintro u ⟨hu, hf, hr⟩
    refine rtDeviceCount_refused hu.covered ?_ (Or.inl ⟨hx, ht.frame hu hf⟩)
    change u.ret ≠ .eok ∧ u.ret ≠ .enosys
    rw [hr]
    decide

theorem closeEnd_keeps {I : SerialState → Prop} {s : SerialState}
    (ht : s.openFlag &&& rtDeviceFlagIntTx = 0)
    (hI : ∀ f o r, I { s with flag := f, openFlag := o, ret := r }) :
    (rtSerialCloseEnd rtDeviceClosed).Keeps I
      (fun t => t = { s with
        flag := s.flag &&& ~~~rtDeviceFlagActivated, openFlag := rtDeviceOflagClose, ret := .eok })
      s := by
  have hs : ∀ r, I { s with ret := r } := hI s.flag s.openFlag
  rw [rtSerialCloseEnd, rtSerialCloseTx, keeps_read, if_neg (not_not.mpr ht)]
  refine ⟨hs s.ret, hs s.ret, hs .eok, hI _ _ _, hI _ _ _, ?_⟩
  exact ⟨hI _ _ _, hI _ _ _, rfl⟩

theorem close_flag {f : BitVec 16} (h : UartFlag f) :
    UartFlag (f &&& ~~~rtDeviceFlagActivated) := by
  obtain rfl | rfl := h <;> exact Or.inl (by decide)

theorem running_fresh {s : SerialState} (hb : s.serialRx = none) (hm : s.irqMasked = true)
    (ho : s.openFlag = rtDeviceOflagClose) (hc : s.refCount = 0) (hf : UartFlag s.flag)
    (hd : s.dev ∈ uartDevs)
    (hfr : ∀ block ∈ s.freed, block < s.nextBlock) (hh : s.halted = false) :
    Running s Session.fresh where
  wired :=
    { buffer := by rw [hb]; rfl
      masked := hm
      latest := by rw [ho]; decide
      noTx := by rw [ho]; decide
      latestLe := fun hl => by cases hl
      dev := hd
      live := by
        intro b hb'
        rw [hb] at hb'
        cases hb'
      freed := hfr }
  count := by rw [hc]; rfl
  flag := hf
  active := fun hn => absurd rfl hn
  idle := fun _ => rfl
  halted := hh

theorem closeRx_none {s : SerialState} (hw : Wired s false false) (hc : s.refCount = 0)
    (hf : UartFlag s.flag) (hh : s.halted = false) :
    (rtSerialCloseRx (rtSerialCloseEnd rtDeviceClosed)).Keeps Covered
      (fun t => Running t Session.fresh) s := by
  have hb : s.serialRx = none := Option.not_isSome_iff_eq_none.mp (Bool.eq_false_iff.mp hw.buffer)
  have hi : s.openFlag &&& rtDeviceFlagIntRx = 0 := by simpa using hw.latest
  rw [rtSerialCloseRx, keeps_read, if_neg (not_not.mpr hi)]
  refine ⟨hw.covered,
    keeps_mono ?_ (closeEnd_keeps hw.noTx fun _ _ _ => covered_of_masked hw.masked)⟩
  intro t ht
  rw [ht]
  exact running_fresh hb hw.masked rfl hc (close_flag hf) hw.dev hw.freed hh

/-- With receive interrupts open: they are masked before the buffer is freed. -/
theorem closeRx_some {s : SerialState} (hw : Wired s true true) (hc : s.refCount = 0)
    (hf : UartFlag s.flag) (hh : s.halted = false) :
    (rtSerialCloseRx (rtSerialCloseEnd rtDeviceClosed)).Keeps Covered
      (fun t => Running t Session.fresh) s := by
  have hcov := hw.covered
  have hi : s.openFlag &&& rtDeviceFlagIntRx ≠ 0 := bne_iff_ne.mp hw.latest
  have ht : s.openFlag &&& ~~~rtDeviceFlagIntRx &&& rtDeviceFlagIntTx = 0 := by
    rw [BitVec.and_assoc,
      show ~~~rtDeviceFlagIntRx &&& rtDeviceFlagIntTx = rtDeviceFlagIntTx by decide]
    exact hw.noTx
  obtain ⟨block, hb⟩ := Option.isSome_iff_exists.mp hw.buffer
  have hfreed : ∀ b ∈ block :: s.freed, b < s.nextBlock := by
    intro b hb'
    obtain rfl | hb' := List.mem_cons.mp hb'
    · exact (hw.live b hb).1
    · exact hw.freed b hb'
  rw [rtSerialCloseRx, keeps_read, if_pos hi]
  refine ⟨hcov, hcov, hcov, covered_of_masked rfl, covered_of_masked rfl, covered_of_masked rfl, ?_⟩
  dsimp only [onUart]
  rw [hb]
  refine ⟨covered_of_masked rfl, covered_of_masked rfl,
    keeps_mono ?_ (closeEnd_keeps ht fun _ _ _ => covered_of_masked rfl)⟩
  intro t ht
  rw [ht]
  exact running_fresh rfl rfl rfl hc (close_flag hf) hw.dev hfreed hh

theorem serialClose_keeps {s : SerialState} {rx last : Bool} (hw : Wired s rx last)
    (hc : s.refCount = 0)
    (hf : UartFlag s.flag) (hh : s.halted = false) (hclean : rx = true → last = true) :
    (rtSerialClose rtDeviceClosed).Keeps Covered (fun t => Running t Session.fresh) s := by
  rw [rtSerialClose, keeps_read, if_neg (by rw [hc]; decide)]
  refine ⟨hw.covered, ?_⟩
  cases last with
  | false =>
    obtain rfl : rx = false := Bool.eq_false_iff.mpr fun hr => by cases hclean hr
    exact closeRx_none hw hc hf hh
  | true =>
    obtain rfl : rx = true := hw.latestLe rfl
    exact closeRx_some hw hc hf hh

theorem Running.count_down {s : SerialState} {x : Session} (h : Running s x) (h0 : s.refCount ≠ 0) :
    x.users ≠ 0 ∧ (s.refCount - 1).toNat = x.users - 1 := by
  have hn : s.refCount.toNat ≠ 0 := fun he => h0 (BitVec.eq_of_toNat_eq he)
  refine ⟨h.count ▸ hn, ?_⟩
  rw [BitVec.toNat_sub_of_le (by rw [BitVec.le_def]; exact Nat.pos_of_ne_zero hn), h.count]
  rfl

theorem Session.close_idle {x : Session} (hu : x.users = 0) : x.close = x := by
  cases x
  cases hu
  rfl

theorem close_keeps {s : SerialState} {x : Session} (h : Running s x)
    (hclean : x.users = 1 → x.rx = true → x.lastRx = true) :
    (rtDeviceClose serialOps).Keeps Covered (fun t => Running t x.close) s := by
  have hc := h.wired.covered
  refine rtDeviceClose_keeps hc rfl (fun h0 => ?_) (fun h0 h1 => ?_) fun h0 h1 => ?_
  · have hu : x.users = 0 := by rw [← h.count, show s.refCount = 0 from h0]; rfl
    rw [Session.close_idle hu]
    exact finish_keeps hc (h.frame { h.wired with } ⟨rfl, rfl, rfl⟩)
  · obtain ⟨hu, hsub⟩ := h.count_down h0
    have hleft : x.users - 1 ≠ 0 := fun he => h1 (BitVec.eq_of_toNat_eq (hsub.trans he))
    have hmore : ¬x.users = 1 := by omega
    rw [Session.close, if_neg hmore]
    exact ⟨hc, finish_keeps hc
      ⟨{ h.wired with }, hsub, h.flag, fun _ => h.active hu, fun he => absurd he hleft, h.halted⟩⟩
  · obtain ⟨hu, hsub⟩ := h.count_down h0
    rw [show s.refCount - 1 = 0 from h1] at hsub
    change 0 = _ at hsub
    have hlast : x.users = 1 := by omega
    rw [Session.close, if_pos hlast]
    exact ⟨hc, serialClose_keeps { h.wired with } h1 h.flag h.halted (hclean hlast)⟩

/-- The last user's close without INT_RX in the open flags takes neither the buffer nor the
interrupt back. -/
theorem close_leaks {s : SerialState} {x : Session} (h : Running s x) (h1 : x.users = 1)
    (hrx : x.rx = true) (hlast : x.lastRx = false) :
    ((rtDeviceClose serialOps).run s).halted = false ∧
    ((rtDeviceClose serialOps).run s).refCount = 0 ∧
      ((rtDeviceClose serialOps).run s).irqMasked = false := by
  have hone : s.refCount = 1 := BitVec.eq_of_toNat_eq (h.count.trans h1)
  have hi : s.openFlag &&& rtDeviceFlagIntRx = 0 := by simpa [hlast] using h.wired.latest
  have hm : s.irqMasked = false := by rw [h.wired.masked, hrx]; rfl
  have hkeeps : (rtDeviceClose serialOps).Keeps (fun _ => True)
      (fun t => t.halted = false ∧ t.refCount = 0 ∧ t.irqMasked = false) s := by
    refine rtDeviceClose_keeps trivial rfl (fun h0 => ?_) (fun _ h1 => ?_) fun _ h0 => ⟨trivial, ?_⟩
    · exact absurd (hone.symm.trans h0) (by decide)
    · exact absurd (show s.refCount - 1 = 0 by rw [hone]; rfl) h1
    · have hcount : ¬s.refCount - 1 > 1 := by rw [hone]; decide
      change (rtSerialClose rtDeviceClosed).Keeps _ _ { s with refCount := s.refCount - 1 }
      rw [rtSerialClose, keeps_read, if_neg hcount, rtSerialCloseRx, keeps_read,
        if_neg (not_not.mpr hi)]
      refine ⟨trivial, trivial, keeps_mono ?_ (closeEnd_keeps h.wired.noTx fun _ _ _ => trivial)⟩
      rintro t rfl
      exact ⟨h.halted, h0, hm⟩
  exact (keeps_iff.mp hkeeps).2

theorem config_keeps (busy : Nat → Nat → Bool) (args : Option SerialConfigure) {s : SerialState}
    {x : Session}
    (h : Running s x) : (rtSerialConfig busy args).Keeps Covered (fun t => Running t x) s := by
  have hc := h.wired.covered
  have hret : ∀ {t : SerialState}, Running t x →
      ∀ r, (finish r).Keeps Covered (fun t => Running t x) t :=
    fun ht r => finish_keeps ht.wired.covered (ht.frame { ht.wired with } ⟨rfl, rfl, rfl⟩)
  cases args with
  | none => exact hret h _
  | some pconfig =>
    rw [rtSerialConfig, keeps_read]
    refine ⟨hc, ?_⟩
    split
    · exact hret h _
    · have hset : Running { s with config := pconfig } x := h.frame { h.wired with } ⟨rfl, rfl, rfl⟩
      refine ⟨hc, ?_⟩
      split
      · refine keeps_seq (keeps_mono ?_ (configure_keeps busy hset.wired))
        rintro t ⟨ht, hf, -⟩
        exact hret (hset.frame ht hf) _
      · exact hret hset _

theorem safe_of_keeps {c : SerialCall} {s : SerialState} {x : Session}
    (h : (serialCall c).Keeps Covered (fun t => Follows t x) s) :
    SerialSafe s c ((serialCall c).run s) ∧ Follows ((serialCall c).run s) x := by
  obtain ⟨hal, hf⟩ := keeps_iff.mp h
  exact ⟨⟨always_mono (fun _ => Covered.guarded) _ s hal, hf.masked⟩, hf⟩

theorem call_keeps {c : SerialCall} {s : SerialState} {x : Session} (h : Follows s x) {y : Session}
    (hy : sessionStep x c = some y) (hc : EndsClean x c y) :
    (serialCall c).Keeps Covered (fun t => Follows t y) s := by
  obtain rfl := Option.some.inj hy
  rw [serialCall, keeps_read]
  obtain ⟨hx, hr⟩ | ⟨hx, hh, hcov⟩ := h
  · have hnh : ¬s.halted = true := by rw [hr.halted]; decide
    have hns : ¬x.stopped = true := by rw [hx]; decide
    rw [if_neg hnh, if_neg hns]
    refine ⟨hr.wired.covered, ?_⟩
    cases c with
    | «open» busy oflag => exact open_keeps busy oflag hr hx
    | close =>
      have hsx : x.close.stopped = false := by
        rw [Session.close]
        split
        · rfl
        · exact hx
      exact keeps_mono (fun t ht => Or.inl ⟨hsx, ht⟩) (close_keeps hr (hc hx))
    | config busy args => exact keeps_mono (fun t ht => Or.inl ⟨hx, ht⟩) (config_keeps busy args hr)
  · rw [if_pos hh, if_pos hx]
    exact ⟨hcov, hcov, Or.inr ⟨hx, hh, hcov⟩⟩

/-- A close that does not end its session clean leaves an unmasked interrupt with no user. -/
theorem call_unsafe {c : SerialCall} {s : SerialState} {x y : Session} (h : Follows s x)
    (hc : ¬EndsClean x c y) :
    ¬SerialSafe s c ((serialCall c).run s) := by
  cases c with
  | «open» busy oflag => exact absurd trivial hc
  | config busy args => exact absurd trivial hc
  | close =>
    simp only [EndsClean, Classical.not_imp, Bool.not_eq_true] at hc
    obtain ⟨hx, h1, hrx, hlast⟩ := hc
    obtain ⟨-, hr⟩ | ⟨hs, -⟩ := h
    · obtain ⟨hh, h0, hm⟩ := close_leaks hr h1 hrx hlast
      have hrun : (serialCall .close).run s = (rtDeviceClose serialOps).run s := by
        rw [serialCall, run_read, if_neg (by rw [hr.halted]; decide), serialOp]
      rintro ⟨-, hmask⟩
      rw [hrun] at hmask
      rw [hmask hh h0] at hm
      cases hm
    · rw [hx] at hs
      cases hs

theorem registeredUart_follows {dev : HwUartDevice} (h : dev ∈ uartDevs) (hw : UartHw) :
    Follows (registeredUart dev hw) Session.fresh :=
  Or.inl ⟨rfl,
    running_fresh rfl rfl rfl rfl (Or.inl rfl) h (fun _ hb => absurd hb List.not_mem_nil) rfl⟩

/-- For every UART of the table, on hardware in any state, and every history of opens, closes and
configurations: a receive interrupt always finds its buffer, and is masked when nobody has the
UART open, exactly if each session with receive interrupts ends with an open that asked for
them as its latest. -/
theorem serial_guarded_iff (i : Fin uartDevs.length) (hw : UartHw) (calls : List SerialCall) :
    Along serialStep SerialSafe (registeredUart (uartDevs.get i) hw) calls ↔
      Along sessionStep EndsClean Session.fresh calls := by
  refine along_iff_of_lockstep (R := Follows) ?_
    (registeredUart_follows (List.get_mem _ i) hw) calls
  intro s x c h
  refine ⟨_, _, rfl, rfl, ?_, fun hc => (safe_of_keeps (call_keeps h rfl hc)).2⟩
  constructor
  · intro hsafe
    by_contra hc
    exact call_unsafe h hc hsafe
  · exact fun hc => (safe_of_keeps (call_keeps h rfl hc)).1

/-- Two users, the second without receive interrupts: after both have closed, the interrupt is
unmasked and enabled with nobody there, and the next open drops the buffer under it. -/
theorem mixed_users_unguarded :
    let quiet : Nat → Nat → Bool := fun _ _ => false
    let s := registeredUart ⟨0, 0⟩ ⟨fun _ => 0, ⟨fun _ => 0, fun _ => 0⟩, ⟨0, 0, 0, 0, 0, 0, 0⟩⟩
    let calls : List SerialCall := [.open quiet 0x103, .open quiet 0x003, .close, .close]
    ¬Along serialStep SerialSafe s calls ∧
      ∃ t, runs serialStep s calls = some t ∧ t.refCount = 0 ∧ t.irqMasked = false ∧
        ¬(serialCall (.open quiet 0x003)).Always RxGuarded t := by
  intro quiet s calls
  have h : ¬Along serialStep SerialSafe s calls := by decide +kernel
  exact ⟨h, _, rfl, by decide +kernel, by decide +kernel, by decide +kernel⟩

end Rk3576.Uart
