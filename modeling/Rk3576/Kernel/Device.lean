import Rk3576.Lib.Atomic
import Rk3576.Gmac.Layout

/-! Opening and closing a device in `device.c`, over the operations of its driver. -/
namespace Rk3576.Kernel
open Rk3576.Atomic Rk3576.Atomic.Prog
open Rk3576.Gmac (RtErr)

def rtDeviceFlagRdwr : BitVec 16 := 0x003
def rtDeviceFlagStandalone : BitVec 16 := 0x008
def rtDeviceFlagActivated : BitVec 16 := 0x010
def rtDeviceOflagClose : BitVec 16 := 0x000
def rtDeviceOflagOpen : BitVec 16 := 0x008

/-- `struct rt_device`. `ret` is the value returned last, and `halted` says that an RT_ASSERT has
stopped the system. -/
structure RtDevice where
  flag : BitVec 16
  openFlag : BitVec 16
  refCount : BitVec 8
  ret : RtErr
  halted : Bool

/-- A driver's state with its `struct rt_device` in it. -/
class HasRtDevice (S : Type) where
  device : S → RtDevice
  update : (RtDevice → RtDevice) → S → S
  device_update : ∀ f s, device (update f s) = f (device s)

open HasRtDevice

/-- `struct rt_device_ops`. `E` is what the hardware does during an init. A close is given what
comes after it: a failing RT_ASSERT leaves nothing to come after. -/
structure RtDeviceOps (S E : Type) where
  init : E → Prog S
  «open» : BitVec 16 → Prog S
  close : Prog S → Prog S

section
variable {S E : Type} [HasRtDevice S]

def finish (r : RtErr) : Prog S := .upd (update fun d => { d with ret := r }) .done

def halt : Prog S := .upd (update fun d => { d with halted := true }) .done

/-- The first part of `rt_device_open`. -/
def rtDeviceActivate (ops : RtDeviceOps S E) (e : E) : Prog S :=
  .upd (update fun d => { d with ret := .eok }) <| .read fun s =>
    if (device s).flag &&& rtDeviceFlagActivated = 0 then
      (ops.init e).seq <| .read fun s =>
        if (device s).ret ≠ .eok then .done
        else .upd (update fun d => { d with flag := d.flag ||| rtDeviceFlagActivated }) .done
    else .done

/-- The last part of `rt_device_open`: flag and count. -/
def rtDeviceCount : Prog S :=
  .read fun s =>
    if (device s).ret = .eok ∨ (device s).ret = .enosys then
      .upd (update fun d => { d with openFlag := d.openFlag ||| rtDeviceOflagOpen }) <|
      .upd (update fun d => { d with refCount := d.refCount + 1 }) <|
      .read fun s => if (device s).refCount = 0 then halt else .done
    else .done

def rtDeviceOpen (ops : RtDeviceOps S E) (e : E) (oflag : BitVec 16) : Prog S :=
  (rtDeviceActivate ops e).seq <| .read fun s =>
    if (device s).ret ≠ .eok then .done
    else if (device s).flag &&& rtDeviceFlagStandalone ≠ 0 ∧
        (device s).openFlag &&& rtDeviceOflagOpen ≠ 0 then
      finish .ebusy
    else (ops.open oflag).seq rtDeviceCount

/-- The last part of `rt_device_close`. -/
def rtDeviceClosed : Prog S :=
  .read fun s =>
    if (device s).ret = .eok ∨ (device s).ret = .enosys then
      .upd (update fun d => { d with openFlag := rtDeviceOflagClose }) .done
    else .done

def rtDeviceClose (ops : RtDeviceOps S E) : Prog S :=
  .read fun s =>
    if (device s).refCount = 0 then finish .error
    else
      .upd (update fun d => { d with refCount := d.refCount - 1 }) <| .read fun s =>
        if (device s).refCount ≠ 0 then finish .eok else ops.close rtDeviceClosed

variable {ops : RtDeviceOps S E} {I Q : S → Prop} {s : S}

theorem rtDeviceActivate_keeps {e : E} (hI : I s)
    (hok : I (update (fun d => { d with ret := .eok }) s))
    (hactive : (device s).flag &&& rtDeviceFlagActivated ≠ 0 →
      Q (update (fun d => { d with ret := .eok }) s))
    (hinit : (device s).flag &&& rtDeviceFlagActivated = 0 →
      (ops.init e).Keeps I
        (fun t => I t ∧ (device t).ret = .eok ∧
          I (update (fun d => { d with flag := d.flag ||| rtDeviceFlagActivated }) t) ∧
          Q (update (fun d => { d with flag := d.flag ||| rtDeviceFlagActivated }) t))
        (update (fun d => { d with ret := .eok }) s)) :
    (rtDeviceActivate ops e).Keeps I Q s := by
  rw [rtDeviceActivate, keeps_upd, keeps_read, device_update]
  refine ⟨hI, hok, ?_⟩
  dsimp only
  split
  · next ha =>
    refine keeps_seq (keeps_mono ?_ (hinit ha))
    rintro t ⟨ht, hret, hflag, hq⟩
    rw [keeps_read, if_neg (not_not.mpr hret)]
    exact ⟨ht, ht, hflag, hq⟩
  · next ha => exact ⟨hok, hactive ha⟩

/-- The count goes up after an open that succeeded, and the system stops where it would overflow. -/
theorem rtDeviceCount_keeps (hI : I s) (hret : (device s).ret = .eok)
    (hflag : I (update (fun d => { d with openFlag := d.openFlag ||| rtDeviceOflagOpen }) s))
    {t : S} (ht : update (fun d => { d with refCount := d.refCount + 1 })
      (update (fun d => { d with openFlag := d.openFlag ||| rtDeviceOflagOpen }) s) = t)
    (hcount : I t) (hfull : (device s).refCount + 1 = 0 → (halt : Prog S).Keeps I Q t)
    (hmore : (device s).refCount + 1 ≠ 0 → Q t) : (rtDeviceCount : Prog S).Keeps I Q s := by
  have hdev : (device t).refCount = (device s).refCount + 1 := by
    rw [← ht, device_update, device_update]
  rw [rtDeviceCount, keeps_read, if_pos (Or.inl hret), keeps_upd, keeps_upd, keeps_read, ht, hdev]
  refine ⟨hI, hI, hflag, hcount, ?_⟩
  split
  · next h0 => exact hfull h0
  · next h0 => exact ⟨hcount, hmore h0⟩

theorem rtDeviceCount_refused (hI : I s) (hret : (device s).ret ≠ .eok ∧ (device s).ret ≠ .enosys)
    (hq : Q s) :
    (rtDeviceCount : Prog S).Keeps I Q s := by
  rw [rtDeviceCount, keeps_read, if_neg (not_or.mpr hret)]
  exact ⟨hI, hI, hq⟩

/-- A device that is no stand-alone device, activated: the open operation runs, and the count after
it. -/
theorem rtDeviceOpen_keeps {e : E} {oflag : BitVec 16}
    (h : (rtDeviceActivate ops e).Keeps I
      (fun t => I t ∧ (device t).ret = .eok ∧ (device t).flag &&& rtDeviceFlagStandalone = 0 ∧
        (ops.open oflag).Keeps I (rtDeviceCount.Keeps I Q) t) s) :
    (rtDeviceOpen ops e oflag).Keeps I Q s := by
  refine keeps_seq (keeps_mono ?_ h)
  rintro t ⟨ht, hret, hflag, hopen⟩
  rw [keeps_read, if_neg (not_not.mpr hret), if_neg fun hn => hn.1 hflag]
  exact ⟨ht, keeps_seq hopen⟩

/-- The close operation runs for the last user only. -/
theorem rtDeviceClose_keeps (hI : I s) {t : S}
    (ht : update (fun d => { d with refCount := d.refCount - 1 }) s = t)
    (hnone : (device s).refCount = 0 → (finish .error : Prog S).Keeps I Q s)
    (hmore : (device s).refCount ≠ 0 → (device s).refCount - 1 ≠ 0 →
      I t ∧ (finish .eok : Prog S).Keeps I Q t)
    (hlast : (device s).refCount ≠ 0 → (device s).refCount - 1 = 0 →
      I t ∧ (ops.close rtDeviceClosed).Keeps I Q t) :
    (rtDeviceClose ops).Keeps I Q s := by
  have hdev : (device t).refCount = (device s).refCount - 1 := by
    rw [← ht, device_update]
  rw [rtDeviceClose, keeps_read]
  refine ⟨hI, ?_⟩
  split
  · next h0 => exact hnone h0
  · next h0 =>
    rw [keeps_upd, keeps_read, ht, hdev]
    split
    · next h1 => exact ⟨hI, hmore h0 h1⟩
    · next h1 => exact ⟨hI, hlast h0 (not_not.mp h1)⟩

end

end Rk3576.Kernel
