import Papper.Lib.Transition
import Papper.Lib.Inevitable
import Papper.Lib.WaitFree
import Papper.Lib.Refinement
import Papper.Lib.Loop
import Papper.Lib.Atomic
import Papper.Lib.Memory
import Papper.Lib.Ring
import Papper.Lib.Linked
import Papper.Lib.Mailbox
import Papper.Lib.BoundedFifo
import Papper.Lib.Channel
import Papper.Lib.Lifetime
import Papper.Lib.FormatString
import Papper.Lib.Calendar
import Papper.Lib.Binary64
import Papper.Lib.Footprint
import Papper.Lib.CString
import Papper.Lib.Stdio
import Papper.Pattern.Data
import Papper.Codec
import Papper.Event
import Papper.Arguments
import Papper.Queue
import Papper.Queue.Spsc
import Papper.Queue.Frame
import Papper.Queue.Bounds
import Papper.Queue.Room
import Papper.Queue.Linear
import Papper.Queue.Sequential
import Papper.Pattern.Parse
import Papper.Pattern.Grammar
import Papper.Pattern.Compiler
import Papper.Pattern.Bounds
import Papper.Pattern.Outcome
import Papper.Pattern.Format
import Papper.Pattern.Time
import Papper.Pattern.Handler
import Papper.Clock
import Papper.Clock.Convert
import Papper.Clock.Tick
import Papper.Sink
import Papper.Sink.Contents
import Papper.Sink.Named
import Papper.ThreadList
import Papper.ThreadList.Sound
import Papper.ThreadList.Frame
import Papper.ThreadList.Register
import Papper.ThreadList.Progress
import Papper.System
import Papper.System.Life
import Papper.System.Steps
import Papper.System.Flow
import Papper.System.Loss
import Papper.System.Settings
import Papper.System.Levels
import Papper.System.Polling
import Papper.System.Pass
import Papper.System.Drain
import Papper.System.Failure
import Papper.System.Backend
import Papper.Logger
import Papper.System.Refinement
import Papper.System.Service
import Papper.System.Logging
import Papper.System.Output
import Papper.System.Names
import Papper.System.Enabled
import Papper.System.Backoff
import Papper.Process
