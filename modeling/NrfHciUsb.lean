import NrfHciUsb.Support.Program
import NrfHciUsb.Support.Thread
import NrfHciUsb.Support.Machine
import NrfHciUsb.Support.Window
import NrfHciUsb.Support.Circular
import NrfHciUsb.Support.Fifo
import NrfHciUsb.Support.Segments
import NrfHciUsb.Support.Bytes
import NrfHciUsb.Support.Noninterference
import NrfHciUsb.Support.Linearizable
import NrfHciUsb.Support.Simulation
import NrfHciUsb.Support.Compose
import NrfHciUsb.Support.Progress
import NrfHciUsb.Support.Handler
import NrfHciUsb.Support.Checked
import NrfHciUsb.Ipc.Ring
import NrfHciUsb.Ipc.Calls
import NrfHciUsb.Ipc.Queue
import NrfHciUsb.Ipc.Shmem
import NrfHciUsb.Ipc.Isolation
import NrfHciUsb.Ipc.Accounting
import NrfHciUsb.Ipc.Drain
import NrfHciUsb.Ipc.Wrap
import NrfHciUsb.Ipc.Interleave
import NrfHciUsb.Ipc.LinkInv
import NrfHciUsb.Ipc.Linearizable
import NrfHciUsb.Ipc.Duplex
import NrfHciUsb.Ipc.Boot
import NrfHciUsb.Ipc.Wakeup
import NrfHciUsb.Ipc.Doorbell
import NrfHciUsb.Ipc.Work
import NrfHciUsb.Net.Commands
import NrfHciUsb.Net.Effects
import NrfHciUsb.Net.Dispatch
import NrfHciUsb.Net.RxLoop
import NrfHciUsb.Net.Replies
import NrfHciUsb.Net.EventLoop
import NrfHciUsb.Net.Forwarding
import NrfHciUsb.Net.Encoding
import NrfHciUsb.Net.Framing
import NrfHciUsb.App.Usb
import NrfHciUsb.App.WriteEp
import NrfHciUsb.App.Led
import NrfHciUsb.App.Tasks
import NrfHciUsb.App.Rounds
import NrfHciUsb.App.Host
import NrfHciUsb.Bridge.HostOut
import NrfHciUsb.Bridge.Commands
import NrfHciUsb.Bridge.Transport
import NrfHciUsb.Bridge.Events
import NrfHciUsb.Bridge.Outcome
import NrfHciUsb.Bridge.Firmware
import NrfHciUsb.Bridge.Answers
import NrfHciUsb.Bridge.Boundaries
import NrfHciUsb.Bridge.Settle
import NrfHciUsb.Bridge.Session
import NrfHciUsb.Bridge.Cores
import NrfHciUsb.Bridge.Bells
import NrfHciUsb.Bridge.Shared
import NrfHciUsb.Bridge.Rest
