import Rzh.ZrqPackets
import Rzh.ZrqRoom
import Rzh.PipeFlow
import Rzh.WriteInterest
import Rzh.Suspend
import Rzh.EndOfFile
import Rzh.Silent
import Rzh.Zfin
import Rzh.ZfinPackets
import Rzh.ZfinThrough
import Rzh.Routing
import Rzh.FifoQueue
import Rzh.Restore
import Rzh.SaveBuffer
import Rzh.Owners
import Rzh.Registry
import Rzh.Splice
import Rzh.Closings
import Rzh.Sigchild
import Rzh.ChildExit
import Rzh.Drain
import Rzh.DrainRoom
import Rzh.IoCalls
import Rzh.Dispatch
import Rzh.Tokens
import Rzh.Figures
import Rzh.CString
import Rzh.Cmd
import Rzh.Socket
import Rzh.Args
import Rzh.SocketRead
import Rzh.Printf
import Rzh.HumanTime
import Rzh.IdleNumbers
import Rzh.Idle
import Rzh.Counters
import Rzh.Descriptors
import Rzh.Session
import Rzh.Outcome
import Rzh.Wiring
import Rzh.Faults
import Rzh.ForkChild
import Rzh.TableRun
import Rzh.Ledger
import Rzh.Levels
import Rzh.Inheritance
import Rzh.LineStream
import Rzh.Relay
import Rzh.Signals
import Rzh.Cadence
import Rzh.Preflight
import Rzh.Opening
import Rzh.SocketCalls
import Rzh.LogFile
import Rzh.ByteCounts
import Rzh.StatusOut
