import Mathlib.Data.Fintype.Basic
import Rk3576.Lib.Hiword
import Rk3576.Gmac.Layout

/-! `drv_iomux.c`: the mux, pull, drive and schmitt fields of the 160 pins, and the pin groups of
the UARTs. -/
namespace Rk3576.Pin
open Rk3576.Hiword
open Rk3576.Gmac (RtErr)

def rkPa5 : BitVec 32 := 5
def rkPa6 : BitVec 32 := 6
def rkPa7 : BitVec 32 := 7
def rkPb1 : BitVec 32 := 9
def rkPb2 : BitVec 32 := 10
def rkPb3 : BitVec 32 := 11
def rkPb4 : BitVec 32 := 12
def rkPb5 : BitVec 32 := 13
def rkPb6 : BitVec 32 := 14
def rkPb7 : BitVec 32 := 15
def rkPc0 : BitVec 32 := 16
def rkPc2 : BitVec 32 := 18
def rkPc3 : BitVec 32 := 19
def rkPd0 : BitVec 32 := 24
def rkPd1 : BitVec 32 := 25
def rkPd2 : BitVec 32 := 26
def rkPd3 : BitVec 32 := 27

def rk3576PullNone : BitVec 32 := 0
def rk3576PullUp : BitVec 32 := 1
def rk3576PullDown : BitVec 32 := 2

abbrev IocRegs := BitVec 32 → BitVec 16

def rk3576IocWrite (r : IocRegs) (offset value : BitVec 32) : IocRegs := write r offset value

def rk3576CheckPin (bank pin : BitVec 32) : RtErr :=
  if bank ≥ 5 ∨ pin ≥ 32 then .einval else .eok

/-- The start of each run of consecutive registers, as the three `reg_bit` functions choose it. -/
structure IocOffsets where
  gpio0Al : BitVec 32
  gpio0Bh : BitVec 32
  gpio1 : BitVec 32
  gpio2 : BitVec 32
  gpio3 : BitVec 32
  gpio4Al : BitVec 32
  gpio4Cl : BitVec 32
  gpio4Dl : BitVec 32

def IocOffsets.base (o : IocOffsets) (bank pin : BitVec 32) : BitVec 32 :=
  if bank = 0 ∧ pin < rkPb4 then o.gpio0Al
  else if bank = 0 then o.gpio0Bh
  else if bank = 1 then o.gpio1
  else if bank = 2 then o.gpio2
  else if bank = 3 then o.gpio3
  else if bank = 4 ∧ pin < rkPc0 then o.gpio4Al
  else if bank = 4 ∧ pin < rkPd0 then o.gpio4Cl
  else o.gpio4Dl

/-- Register and bit number of a pin: `none` is the answer -RT_EINVAL. -/
def regBit (o : IocOffsets) (pinsPerReg bitsPerPin bank pin : BitVec 32) :
    Option (BitVec 32 × BitVec 32) :=
  if rk3576CheckPin bank pin ≠ .eok then none
  else some (o.base bank pin + pin / pinsPerReg * 4, pin % pinsPerReg * bitsPerPin)

def drvOffsets : IocOffsets where
  gpio0Al := 0x10
  gpio0Bh := 0x2014 - 0xc
  gpio1 := 0x6020
  gpio2 := 0x6040
  gpio3 := 0x6060
  gpio4Al := 0x6080
  gpio4Cl := 0xa090 - 0x10
  gpio4Dl := 0xb098 - 0x18

def rk3576DriveRegBit (bank pin : BitVec 32) : Option (BitVec 32 × BitVec 32) :=
  regBit drvOffsets 4 4 bank pin

def pullOffsets : IocOffsets where
  gpio0Al := 0x20
  gpio0Bh := 0x2028 - 0x4
  gpio1 := 0x6110
  gpio2 := 0x6120
  gpio3 := 0x6130
  gpio4Al := 0x6140
  gpio4Cl := 0xa148 - 0x8
  gpio4Dl := 0xb14c - 0xc

def rk3576PullRegBit (bank pin : BitVec 32) : Option (BitVec 32 × BitVec 32) :=
  regBit pullOffsets 8 2 bank pin

def smtOffsets : IocOffsets where
  gpio0Al := 0x30
  gpio0Bh := 0x2040 - 0x4
  gpio1 := 0x6210
  gpio2 := 0x6220
  gpio3 := 0x6230
  gpio4Al := 0x6240
  gpio4Cl := 0xa248 - 0x8
  gpio4Dl := 0xb24c - 0xc

def rk3576SchmittRegBit (bank pin : BitVec 32) : Option (BitVec 32 × BitVec 32) :=
  regBit smtOffsets 8 1 bank pin

def rk3576IomuxOffsets : List (List (BitVec 32)) :=
  [[0x0000, 0x0008, 0x2004, 0x200c],
   [0x4020, 0x4028, 0x4030, 0x4038],
   [0x4040, 0x4048, 0x4050, 0x4058],
   [0x4060, 0x4068, 0x4070, 0x4078],
   [0x4080, 0x4088, 0xa390, 0xb398]]

/-- The register `rk3576_iomux_set` picks: the table's, one up for the second half of a group,
and moved for PB4 to PB7 of bank 0. -/
def iomuxReg (bank pin : BitVec 32) : BitVec 32 :=
  let group := pin / 8
  let reg := (rk3576IomuxOffsets.getD bank.toNat []).getD group.toNat 0
  let reg := if pin % 8 ≥ 4 then reg + 4 else reg
  if bank = 0 ∧ pin ≥ rkPb4 ∧ pin ≤ rkPb7 then reg + 0x1ff4 else reg

def rk3576IomuxSet (r : IocRegs) (bank pin mux : BitVec 32) : RtErr × IocRegs :=
  if rk3576CheckPin bank pin ≠ .eok ∨ mux > 0xf then (.einval, r)
  else
    let reg := iomuxReg bank pin
    let bit := pin % 4 * 4
    let mask := 0xf#32 <<< bit
    let value := (mux &&& 0xf) <<< bit
    (.eok, rk3576IocWrite r reg (word mask value))

def pullHw (pull : BitVec 32) : Option (BitVec 32) :=
  if pull = rk3576PullNone then some 0
  else if pull = rk3576PullUp then some 3
  else if pull = rk3576PullDown then some 1
  else none

def rk3576PullSet (r : IocRegs) (bank pin pull : BitVec 32) : RtErr × IocRegs :=
  match rk3576PullRegBit bank pin with
  | none => (.einval, r)
  | some (reg, bit) =>
    match pullHw pull with
    | none => (.einval, r)
    | some value =>
      let mask := ((1#32 <<< 2) - 1) <<< bit
      (.eok, rk3576IocWrite r reg (word mask (value <<< bit)))

def rk3576DriveSet (r : IocRegs) (bank pin level : BitVec 32) : RtErr × IocRegs :=
  if level > 7 then (.einval, r)
  else
    match rk3576DriveRegBit bank pin with
    | none => (.einval, r)
    | some (reg, bit) =>
      let value := ((level &&& (1#32 <<< 2)) >>> 2) ||| ((level &&& (1#32 <<< 0)) <<< 2) |||
        (level &&& (1#32 <<< 1))
      let mask := ((1#32 <<< 4) - 1) <<< bit
      (.eok, rk3576IocWrite r reg (word mask (value <<< bit)))

def rk3576SchmittSet (r : IocRegs) (bank pin enable : BitVec 32) : RtErr × IocRegs :=
  match rk3576SchmittRegBit bank pin with
  | none => (.einval, r)
  | some (reg, bit) =>
    let mask := ((1#32 <<< 1) - 1) <<< bit
    let value := if enable ≠ 0 then mask else 0
    (.eok, rk3576IocWrite r reg (word mask value))

structure UartPin where
  bank : BitVec 8
  pin : BitVec 8
  mux : BitVec 8

/-- `struct rk3576_uart_iomux_group`; an entry the table leaves out is all zero. -/
structure UartIomuxGroup where
  valid : BitVec 8 := 0
  rx : UartPin := ⟨0, 0, 0⟩
  tx : UartPin := ⟨0, 0, 0⟩

/-- Pin numbers as in RK_PA0 to RK_PD7: eight to a letter. -/
def rk3576UartIomux : Nat → Nat → UartIomuxGroup
  | 0, 0 => ⟨1, ⟨0, 29, 9⟩, ⟨0, 28, 9⟩⟩
  | 0, 1 => ⟨1, ⟨2, 0, 9⟩, ⟨2, 1, 9⟩⟩
  | 1, 0 => ⟨1, ⟨0, 16, 10⟩, ⟨0, 15, 10⟩⟩
  | 1, 1 => ⟨1, ⟨2, 9, 9⟩, ⟨2, 8, 9⟩⟩
  | 1, 2 => ⟨1, ⟨3, 6, 9⟩, ⟨3, 7, 9⟩⟩
  | 2, 0 => ⟨1, ⟨1, 23, 9⟩, ⟨1, 22, 9⟩⟩
  | 2, 1 => ⟨1, ⟨4, 12, 10⟩, ⟨4, 13, 10⟩⟩
  | 2, 2 => ⟨1, ⟨3, 15, 9⟩, ⟨3, 16, 9⟩⟩
  | 3, 0 => ⟨1, ⟨3, 1, 9⟩, ⟨3, 0, 9⟩⟩
  | 3, 1 => ⟨1, ⟨4, 1, 9⟩, ⟨4, 0, 9⟩⟩
  | 3, 2 => ⟨1, ⟨1, 17, 9⟩, ⟨1, 16, 9⟩⟩
  | 4, 0 => ⟨1, ⟨2, 25, 9⟩, ⟨2, 24, 9⟩⟩
  | 4, 1 => ⟨1, ⟨1, 21, 9⟩, ⟨1, 20, 9⟩⟩
  | 4, 2 => ⟨1, ⟨0, 13, 10⟩, ⟨0, 12, 10⟩⟩
  | 5, 0 => ⟨1, ⟨3, 28, 9⟩, ⟨3, 29, 9⟩⟩
  | 5, 1 => ⟨1, ⟨4, 9, 10⟩, ⟨4, 8, 10⟩⟩
  | 5, 2 => ⟨1, ⟨2, 4, 9⟩, ⟨2, 5, 9⟩⟩
  | 6, 0 => ⟨1, ⟨4, 6, 10⟩, ⟨4, 4, 10⟩⟩
  | 6, 1 => ⟨1, ⟨2, 27, 9⟩, ⟨2, 26, 9⟩⟩
  | 6, 2 => ⟨1, ⟨1, 11, 9⟩, ⟨1, 8, 9⟩⟩
  | 6, 3 => ⟨1, ⟨4, 21, 13⟩, ⟨4, 20, 13⟩⟩
  | 7, 0 => ⟨1, ⟨2, 15, 9⟩, ⟨2, 14, 9⟩⟩
  | 7, 1 => ⟨1, ⟨1, 3, 9⟩, ⟨1, 2, 9⟩⟩
  | 7, 2 => ⟨1, ⟨2, 0, 10⟩, ⟨2, 1, 10⟩⟩
  | 8, 0 => ⟨1, ⟨3, 21, 9⟩, ⟨3, 22, 9⟩⟩
  | 8, 1 => ⟨1, ⟨2, 7, 9⟩, ⟨2, 6, 9⟩⟩
  | 8, 2 => ⟨1, ⟨0, 18, 10⟩, ⟨0, 17, 10⟩⟩
  | 9, 0 => ⟨1, ⟨2, 16, 9⟩, ⟨2, 17, 9⟩⟩
  | 9, 1 => ⟨1, ⟨3, 10, 9⟩, ⟨3, 11, 9⟩⟩
  | 9, 2 => ⟨1, ⟨4, 19, 13⟩, ⟨4, 18, 13⟩⟩
  | 10, 0 => ⟨1, ⟨3, 8, 9⟩, ⟨3, 9, 9⟩⟩
  | 10, 1 => ⟨1, ⟨1, 25, 9⟩, ⟨1, 24, 9⟩⟩
  | 10, 2 => ⟨1, ⟨0, 21, 10⟩, ⟨0, 20, 10⟩⟩
  | 11, 0 => ⟨1, ⟨3, 17, 9⟩, ⟨3, 20, 9⟩⟩
  | 11, 1 => ⟨1, ⟨2, 21, 9⟩, ⟨2, 20, 9⟩⟩
  | 11, 2 => ⟨1, ⟨4, 17, 13⟩, ⟨4, 16, 13⟩⟩
  | _, _ => {}

/-- Goes on only after RT_EOK, like the `if (ret != RT_EOK) return ret` between the calls. -/
def andThen (x : RtErr × IocRegs) (f : IocRegs → RtErr × IocRegs) : RtErr × IocRegs :=
  if x.1 ≠ .eok then x else f x.2

def UartPin.iomuxSet (p : UartPin) (r : IocRegs) : RtErr × IocRegs :=
  rk3576IomuxSet r (p.bank.setWidth 32) (p.pin.setWidth 32) (p.mux.setWidth 32)

def UartPin.pullUp (p : UartPin) (r : IocRegs) : RtErr × IocRegs :=
  rk3576PullSet r (p.bank.setWidth 32) (p.pin.setWidth 32) rk3576PullUp

def rk3576UartIomuxInit (r : IocRegs) (id muxGroup : BitVec 32) : RtErr × IocRegs :=
  if id ≥ 12 ∨ muxGroup ≥ 4 then (.einval, r)
  else
    let group := rk3576UartIomux id.toNat muxGroup.toNat
    if group.valid = 0 then (.einval, r)
    else
      andThen (group.rx.iomuxSet r) fun r =>
      andThen (group.tx.iomuxSet r) fun r =>
      andThen (group.rx.pullUp r) fun r =>
      group.tx.pullUp r

end Rk3576.Pin
