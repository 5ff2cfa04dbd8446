import Slemu.Money
import Slemu.LinksetData
import Slemu.LoaderFormat
import Slemu.StateChange
import Slemu.Death
import Slemu.QueueRuns
import Slemu.Quiescence
import Slemu.VirtualTime
import Slemu.Timers
import Slemu.TimerHandlers
import Slemu.Listens
import Slemu.EconomyFile
import Slemu.Owner
import Slemu.Reset
import Slemu.ExitCommand
import Slemu.StateRequests
import Slemu.DebuggerNames
import Slemu.JsonList
import Slemu.JsonSet
import Slemu.EventJson
import Slemu.HandlersEnd
import Slemu.Unwinding
import Slemu.Comparisons
import Slemu.IntegerOps
import Slemu.StepLimit
import Slemu.Scopes
import Slemu.LvalueUpdates
import Slemu.StateStops
import Slemu.IntegerRuns
import Slemu.HttpCommand
import Slemu.Slices
import Slemu.Separators
import Slemu.ListSort
import Slemu.Refusals
import Slemu.Fixtures
import Slemu.Standing
import Slemu.InboundUrls
import Slemu.ListenHandles
import Slemu.Touchers
import Slemu.Csv
import Slemu.UrlEscape
import Slemu.Base64
import Slemu.DecimalStrings
import Slemu.Uuids
import Slemu.JsonProgress
import Slemu.JsonRefinement
import Slemu.NumberedList
import Slemu.Debugger
import Slemu.DebuggerPlan
import Slemu.DebuggerCommands
import Slemu.DebuggerLines
import Slemu.Digests
