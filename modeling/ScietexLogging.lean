import ScietexLogging.Asyncio.Machine
import ScietexLogging.Asyncio.Refinement
import ScietexLogging.Asyncio.Queue
import ScietexLogging.Asyncio.Recursion
import ScietexLogging.Asyncio.Ledger
import ScietexLogging.Asyncio.Consumer
import ScietexLogging.Asyncio.Executor
import ScietexLogging.Asyncio.Gather
import ScietexLogging.Asyncio.Progress
import ScietexLogging.Asyncio.History
import ScietexLogging.Channel.Broadcast
import ScietexLogging.Posix.Program
import ScietexLogging.Posix.FileSystem
import ScietexLogging.Posix.Paths
import ScietexLogging.Posix.Archive
import ScietexLogging.Handler.ErrorChannel
import ScietexLogging.Handler.EmitReturns
import ScietexLogging.Handler.BridgePass
import ScietexLogging.Broker.Model
import ScietexLogging.Broker.Segments
import ScietexLogging.Broker.Survival
import ScietexLogging.Broker.Clients
import ScietexLogging.Broker.ClientSegments
import ScietexLogging.Broker.Backoff
import ScietexLogging.Broker.Progress
import ScietexLogging.Broker.Delivery
import ScietexLogging.Broker.Ownership
import ScietexLogging.Broker.Injection
import ScietexLogging.Broker.Refinement
import ScietexLogging.Sink.Model
import ScietexLogging.Sink.Segments
import ScietexLogging.Sink.Progress
import ScietexLogging.Sink.Outcomes
import ScietexLogging.Sink.Cleanup
import ScietexLogging.Sink.Journal
import ScietexLogging.File.Model
import ScietexLogging.File.Calls
import ScietexLogging.File.Backups
import ScietexLogging.File.Streams
import ScietexLogging.File.Healing
import ScietexLogging.File.Turns
import ScietexLogging.File.Watched
import ScietexLogging.File.Archive
import ScietexLogging.File.Size
import ScietexLogging.File.Truncation
import ScietexLogging.File.Location
import ScietexLogging.Lifecycle.Handler
import ScietexLogging.Lifecycle.Teardown
import ScietexLogging.Lifecycle.Calls
import ScietexLogging.Lifecycle.Coherence
import ScietexLogging.Pipeline.Model
import ScietexLogging.Pipeline.Desks
import ScietexLogging.Pipeline.Steps
import ScietexLogging.Pipeline.Control
import ScietexLogging.Pipeline.Fanout
import ScietexLogging.Pipeline.Wakeup
import ScietexLogging.Pipeline.Restart
import ScietexLogging.Pipeline.Drain
import ScietexLogging.Pipeline.Shutdown
import ScietexLogging.Pipeline.Broadcasting
import ScietexLogging.Pipeline.Fates
import ScietexLogging.Pipeline.Sending
import ScietexLogging.Pipeline.Bounds
import ScietexLogging.Pipeline.Progress
import ScietexLogging.Pipeline.Status
import ScietexLogging.Python.Exceptions
import ScietexLogging.Python.Numerals
import ScietexLogging.Python.Floats
import ScietexLogging.Python.Regex
import ScietexLogging.Python.Values
import ScietexLogging.Color.Model
import ScietexLogging.Color.Parse
import ScietexLogging.Color.Announced
import ScietexLogging.Theme.Hex
import ScietexLogging.Theme.Palette
import ScietexLogging.Terminal.Sgr
import ScietexLogging.Terminal.Screen
import ScietexLogging.Formatter.Model
import ScietexLogging.Formatter.Scietex
import ScietexLogging.Formatter.Removable
import ScietexLogging.Formatter.Shown
import ScietexLogging.Formatter.OptIn
import ScietexLogging.Color.Hex6
import ScietexLogging.Color.Notations
import ScietexLogging.Theme.Textual
import ScietexLogging.Theme.Converted
import ScietexLogging.Theme.Shown
import ScietexLogging.Theme.Compositing
import ScietexLogging.Theme.Canonical
import ScietexLogging.Theme.Refusals
import ScietexLogging.Json.Grammar
import ScietexLogging.Python.Json
import ScietexLogging.Formatter.Json
import ScietexLogging.Formatter.Schema
import ScietexLogging.Json.Lines
import ScietexLogging.File.JsonLines
import ScietexLogging.Broker.Payload
import ScietexLogging.Pipeline.LogFile
