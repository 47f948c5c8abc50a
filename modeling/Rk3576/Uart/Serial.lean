import Rk3576.Lib.Run
import Rk3576.Lib.Atomic
import Rk3576.Kernel.Device
import Rk3576.Uart.Line

/-! A UART under the serial framework: `rt_device_open`, `rt_device_close` and
RT_DEVICE_CTRL_CONFIG down to the single stores, with the receive buffer and the interrupt. -/
namespace Rk3576.Uart
open Rk3576.Atomic Rk3576.Run Rk3576.Pin Rk3576.Clock Rk3576.Kernel
open Rk3576.Gmac (RtErr)

def rtDeviceFlagStream : BitVec 16 := 0x040
def rtDeviceFlagIntRx : BitVec 16 := 0x100
def rtDeviceFlagDmaRx : BitVec 16 := 0x200
def rtDeviceFlagIntTx : BitVec 16 := 0x400
def rtDeviceFlagDmaTx : BitVec 16 := 0x800

/-- `struct serial_configure`; the driver reads no other field of it. -/
structure SerialConfigure where
  baudRate : BitVec 32
  bufsz : BitVec 16

structure UartHw where
  ioc : IocRegs
  cru : CruRegs
  uart : Dw8250

/-- `struct rt_serial_device` with the hardware below it. Blocks of the heap are numbered in the
order of their allocation, so that a block handed out again has a new number. -/
structure SerialState extends RtDevice where
  config : SerialConfigure
  serialRx : Option Nat
  serialTx : Option Nat
  dev : HwUartDevice
  hw : UartHw
  irqMasked : Bool
  nextBlock : Nat
  freed : List Nat

instance : HasRtDevice SerialState where
  device := SerialState.toRtDevice
  update f s := { s with toRtDevice := f s.toRtDevice }
  device_update _ _ := rfl

/-- As `rt_hw_uart_init` leaves a UART of the table, on hardware in any state. -/
def registeredUart (dev : HwUartDevice) (hw : UartHw) : SerialState where
  flag := rtDeviceFlagRdwr ||| rtDeviceFlagIntRx
  openFlag := rtDeviceOflagClose
  refCount := 0
  config := { baudRate := 1500000, bufsz := 64 }
  serialRx := none
  serialTx := none
  dev := dev
  hw := hw
  irqMasked := true
  nextBlock := 0
  freed := []
  ret := .eok
  halted := false

def onUart (f : Dw8250 → Dw8250) (s : SerialState) : SerialState :=
  { s with hw.uart := f s.hw.uart }

def uartStores (fs : List (Dw8250 → Dw8250)) (p : Prog SerialState) : Prog SerialState :=
  fs.foldr (fun f q => .upd (onUart f) q) p

def dw8250UartStores (busy : Nat → Nat → Bool) (divisor : BitVec 32) : List (Dw8250 → Dw8250) :=
  [(write · uartSsr 1), (write · uartSsr 0), (write · uartIer 0), (write · uartFcr uartFcrClear),
    (write · uartMcr 0), (fun u => write u uartMcr (u.mcr ||| uartMcrRts)),
    lcrModify (busy 0) (fun lcr => lcr ||| uartLcrDlab),
    (write · uartDll (divisor &&& 0xff)), (write · uartDlm ((divisor &&& 0xff00) >>> 8)),
    lcrModify (busy 1) (fun lcr => lcr &&& ~~~uartLcrDlab),
    lcrModify (busy 2) (fun lcr => (lcr &&& ~~~uartLcrWlen8) ||| uartLcrWlen8),
    lcrModify (busy 3) (fun lcr => lcr &&& ~~~uartLcrStop),
    lcrModify (busy 4) (fun lcr => lcr &&& ~~~uartLcrParity),
    (write · uartIer uartIerRdi)]

theorem dw8250UartStores_eq (busy : Nat → Nat → Bool) (u : Dw8250) (divisor : BitVec 32) :
    (dw8250UartStores busy divisor).foldl (fun u f => f u) u =
      (dw8250UartProgram busy u divisor).uart := rfl

/-- Pins and clocks are one step here: nothing of theirs is looked at in between. -/
def dw8250UartConfigure (busy : Nat → Nat → Bool) : Prog SerialState :=
  .read fun s =>
    let x := dw8250UartSetup s.hw.ioc s.hw.cru s.dev s.config.baudRate
    .upd (fun t => { t with hw.ioc := x.ioc, hw.cru := x.cru }) <|
      if x.ret ≠ .eok then finish x.ret
      else uartStores (dw8250UartStores busy x.divisor) (finish .eok)

theorem uartStores_run (fs : List (Dw8250 → Dw8250)) (r : RtErr) (s : SerialState) :
    (uartStores fs (finish r)).run s =
      { s with hw.uart := fs.foldl (fun u f => f u) s.hw.uart, ret := r } := by
  induction fs generalizing s with
  | nil => rfl
  | cons f fs ih => exact ih (onUart f s)

theorem configure_run (busy : Nat → Nat → Bool) {s : SerialState} (h : s.dev ∈ uartDevs) :
    let x := dw8250UartSetup s.hw.ioc s.hw.cru s.dev s.config.baudRate
    (dw8250UartConfigure busy).run s =
      { s with
          hw := ⟨x.ioc, x.cru, (dw8250UartProgram busy s.hw.uart x.divisor).uart⟩,
          ret := .eok } := by
  intro x
  have hx : x.ret = .eok := (dw8250UartSetup_eq h s.hw.ioc s.hw.cru s.config.baudRate).1
  rw [dw8250UartConfigure, Prog.run_read, Prog.run_upd, if_neg (not_not.mpr hx), uartStores_run,
    dw8250UartStores_eq]

inductive UartCmd where
  | clrInt | setInt | close

def dw8250UartControl : UartCmd → Prog SerialState
  | .clrInt =>
    .upd (onUart (write · uartIer 0)) <| .upd (fun s => { s with irqMasked := true }) <| finish .eok
  | .setInt =>
    .upd (onUart (write · uartIer uartIerRdi)) <|
      .upd (fun s => { s with irqMasked := false }) <| finish .eok
  | .close => finish .eok

def rtSerialInit (busy : Nat → Nat → Bool) : Prog SerialState :=
  .upd (fun s => { s with serialRx := none }) <|
  .upd (fun s => { s with serialTx := none }) <|
  dw8250UartConfigure busy

/-- The receive part of `rt_serial_open`, without RT_SERIAL_USING_DMA. -/
def rtSerialOpenRx (oflag : BitVec 16) : Prog SerialState :=
  .read fun s =>
    if s.serialRx = none then
      if oflag &&& rtDeviceFlagIntRx ≠ 0 then
        .act (fun t => { t with nextBlock := t.nextBlock + 1 }) fun t =>
        .upd (fun s => { s with serialRx := some t.nextBlock }) <|
        .upd (fun s => { s with openFlag := s.openFlag ||| rtDeviceFlagIntRx }) <|
        dw8250UartControl .setInt
      else .upd (fun s => { s with serialRx := none }) .done
    else if oflag &&& rtDeviceFlagIntRx ≠ 0 then
      .upd (fun s => { s with openFlag := s.openFlag ||| rtDeviceFlagIntRx }) .done
    else .done

def rtSerialOpenTx (oflag : BitVec 16) : Prog SerialState :=
  .read fun s =>
    if s.serialTx = none then
      if oflag &&& rtDeviceFlagIntTx ≠ 0 then
        .act (fun t => { t with nextBlock := t.nextBlock + 1 }) fun t =>
        .upd (fun s => { s with serialTx := some t.nextBlock }) <|
        .upd (fun s => { s with openFlag := s.openFlag ||| rtDeviceFlagIntTx }) <|
        dw8250UartControl .setInt
      else .upd (fun s => { s with serialTx := none }) .done
    else if oflag &&& rtDeviceFlagIntTx ≠ 0 then
      .upd (fun s => { s with openFlag := s.openFlag ||| rtDeviceFlagIntTx }) .done
    else .done

def lacks (s : SerialState) (oflag mode : BitVec 16) : Prop :=
  oflag &&& mode ≠ 0 ∧ s.flag &&& mode = 0

instance (s : SerialState) (oflag mode : BitVec 16) : Decidable (lacks s oflag mode) :=
  inferInstanceAs (Decidable (_ ∧ _))

def rtSerialOpen (oflag : BitVec 16) : Prog SerialState :=
  .read fun s =>
    if lacks s oflag rtDeviceFlagDmaRx then finish .eio
    else if lacks s oflag rtDeviceFlagDmaTx then finish .eio
    else if lacks s oflag rtDeviceFlagIntRx then finish .eio
    else if lacks s oflag rtDeviceFlagIntTx then finish .eio
    else
      let streamFlag : BitVec 16 :=
        if oflag &&& rtDeviceFlagStream ≠ 0 ∨ s.openFlag &&& rtDeviceFlagStream ≠ 0 then
          rtDeviceFlagStream else 0
      .upd (fun s => { s with openFlag := oflag &&& 0xff }) <|
      (rtSerialOpenRx oflag).seq <|
      (rtSerialOpenTx oflag).seq <|
      .upd (fun s => { s with openFlag := s.openFlag ||| streamFlag }) <| finish .eok

/-- Gives a receive buffer back. A failing RT_ASSERT leaves nothing to come after. -/
def rtSerialCloseRx (next : Prog SerialState) : Prog SerialState :=
  .read fun s =>
    if s.openFlag &&& rtDeviceFlagIntRx ≠ 0 then
      (dw8250UartControl .clrInt).seq <|
      .upd (fun s => { s with openFlag := s.openFlag &&& ~~~rtDeviceFlagIntRx }) <|
      .read fun s =>
        match s.serialRx with
        | none => halt
        | some block =>
          .upd (fun s => { s with freed := block :: s.freed }) <|
          .upd (fun s => { s with serialRx := none }) next
    else next

def rtSerialCloseTx (next : Prog SerialState) : Prog SerialState :=
  .read fun s =>
    if s.openFlag &&& rtDeviceFlagIntTx ≠ 0 then
      (dw8250UartControl .clrInt).seq <|
      .upd (fun s => { s with openFlag := s.openFlag &&& ~~~rtDeviceFlagIntTx }) <|
      .read fun s =>
        match s.serialTx with
        | none => halt
        | some block =>
          .upd (fun s => { s with freed := block :: s.freed }) <|
          .upd (fun s => { s with serialTx := none }) next
    else next

def rtSerialCloseEnd (next : Prog SerialState) : Prog SerialState :=
  rtSerialCloseTx <|
  (dw8250UartControl .close).seq <|
  .upd (fun s => { s with flag := s.flag &&& ~~~rtDeviceFlagActivated }) <|
  (finish .eok).seq next

def rtSerialClose (next : Prog SerialState) : Prog SerialState :=
  .read fun s =>
    if s.refCount > 1 then (finish .eok).seq next
    else rtSerialCloseRx (rtSerialCloseEnd next)

/-- `serial_ops`, with the busy pattern that an init meets. -/
def serialOps : RtDeviceOps SerialState (Nat → Nat → Bool) where
  init := rtSerialInit
  «open» := rtSerialOpen
  close := rtSerialClose

/-- RT_DEVICE_CTRL_CONFIG of `rt_serial_control`. The refusal is RT_EBUSY without the minus sign,
and what the driver returns is dropped. -/
def rtSerialConfig (busy : Nat → Nat → Bool) (args : Option SerialConfigure) : Prog SerialState :=
  match args with
  | none => finish .eok
  | some pconfig =>
    .read fun s =>
      if pconfig.bufsz ≠ s.config.bufsz ∧ s.refCount ≠ 0 then finish .ebusy
      else
        .upd (fun s => { s with config := pconfig }) <|
        if s.refCount ≠ 0 then (dw8250UartConfigure busy).seq (finish .eok) else finish .eok

/-- The calls on one UART, with the busy pattern that a configuration in them meets. -/
inductive SerialCall where
  | open (busy : Nat → Nat → Bool) (oflag : BitVec 16)
  | close
  | config (busy : Nat → Nat → Bool) (args : Option SerialConfigure)

def serialOp : SerialCall → Prog SerialState
  | .open busy oflag => rtDeviceOpen serialOps busy oflag
  | .close => rtDeviceClose serialOps
  | .config busy args => rtSerialConfig busy args

def serialCall (c : SerialCall) : Prog SerialState :=
  .read fun s => if s.halted then .done else serialOp c

def serialStep (s : SerialState) (c : SerialCall) : Option SerialState :=
  some ((serialCall c).run s)

def RxLive (s : SerialState) : Prop := ∃ block ∈ s.serialRx, block ∉ s.freed

/-- Where a receive interrupt can be taken, its handler finds a buffer. -/
def RxGuarded (s : SerialState) : Prop :=
  s.irqMasked = false → s.hw.uart.ier &&& uartIerRdi ≠ 0 → RxLive s

/-- Guarded at every point of the call; masked at its end if nobody has the UART open. -/
def SerialSafe (s : SerialState) (c : SerialCall) (t : SerialState) : Prop :=
  (serialCall c).Always RxGuarded s ∧ (t.halted = false → t.refCount = 0 → t.irqMasked = true)

instance (s : SerialState) : Decidable (RxLive s) :=
  inferInstanceAs (Decidable (∃ block ∈ s.serialRx, block ∉ s.freed))
instance : DecidablePred RxGuarded := fun s =>
  inferInstanceAs (Decidable (s.irqMasked = false → s.hw.uart.ier &&& uartIerRdi ≠ 0 → RxLive s))
instance (s : SerialState) (c : SerialCall) (t : SerialState) : Decidable (SerialSafe s c t) :=
  inferInstanceAs (Decidable (_ ∧ _))

end Rk3576.Uart
