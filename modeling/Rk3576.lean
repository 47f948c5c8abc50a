import Rk3576.Lib.Run
import Rk3576.Lib.Bytes
import Rk3576.Lib.Handoff
import Rk3576.Lib.Window
import Rk3576.Lib.Edges
import Rk3576.Lib.Tables
import Rk3576.Lib.Hiword
import Rk3576.Lib.Atomic
import Rk3576.Lib.Poll
import Rk3576.Lib.Words
import Rk3576.Lib.Blocks
import Rk3576.Lib.Contract
import Rk3576.Lib.Ring
import Rk3576.Gmac.Layout
import Rk3576.Gmac.Start
import Rk3576.Gmac.Transmit
import Rk3576.Gmac.TransmitLock
import Rk3576.Gmac.TransmitChain
import Rk3576.Gmac.TransmitRing
import Rk3576.Gmac.TransmitFailure
import Rk3576.Gmac.TransmitStream
import Rk3576.Gmac.Receive
import Rk3576.Gmac.ReceiveStream
import Rk3576.Gmac.ReceiveWakeup
import Rk3576.Gmac.Ownership
import Rk3576.Gmac.Link
import Rk3576.Gmac.Bringup
import Rk3576.Kernel.Device
import Rk3576.Gmac.Lifecycle
import Rk3576.Gmac.Power
import Rk3576.Mmu.Table
import Rk3576.Mmu.Map
import Rk3576.Mmu.Walk
import Rk3576.Mmu.Board
import Rk3576.Pin.Iomux
import Rk3576.Pin.PinMap
import Rk3576.Pin.Gpio
import Rk3576.Pin.OpenDrain
import Rk3576.Pin.History
import Rk3576.Pin.Interleave
import Rk3576.Pin.Name
import Rk3576.Clock.Cru
import Rk3576.Clock.Tree
import Rk3576.Clock.Exact
import Rk3576.Gmac.HwInit
import Rk3576.Uart.Baud
import Rk3576.Uart.Line
import Rk3576.Uart.Serial
import Rk3576.Uart.Session
import Rk3576.Uart.Receive
import Rk3576.Uart.Fifo
import Rk3576.Uart.Transmit
import Rk3576.Heap.SmallMem
import Rk3576.Heap.Items
import Rk3576.Heap.Ops
import Rk3576.Heap.Client
import Rk3576.Heap.Safety
import Rk3576.Ipc.Object
import Rk3576.Ipc.Mailbox
import Rk3576.Ipc.Mutex
import Rk3576.Net.EthTx
import Rk3576.Net.LinkChange
import Rk3576.Kernel.Timer
import Rk3576.Kernel.Scheduler
