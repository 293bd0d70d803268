import Engraver.Number.FloatText
import Engraver.Number.Numeral
import Engraver.Text.Characters
import Engraver.Json.Parser
import Engraver.Json.Basic
import Engraver.Units
import Engraver.Raster.Traversal
import Engraver.Raster.Scan
import Engraver.Element
import Engraver.Machine
import Engraver.Raster.Netpbm
import Engraver.Job.Spooler
import Engraver.Relay.Server
import Engraver.Config.Files
import Engraver.Stored.Values
import Engraver.Proofs.Grbl.Axes
import Engraver.Proofs.Grbl.Calls
import Engraver.Proofs.Grbl.CodeWords
import Engraver.Proofs.Grbl.Lines
import Engraver.Proofs.Raster.Coverage
import Engraver.Proofs.Job.Discipline
import Engraver.Proofs.Raster.Order
import Engraver.Proofs.Grbl.Replies
import Engraver.Proofs.Relay.Delivery
import Engraver.Proofs.Relay.Acknowledgement
import Engraver.Proofs.Job.Comparing
import Engraver.Proofs.Job.Queue
import Engraver.Proofs.Job.Outcome
import Engraver.Proofs.Grbl.ModalWords
import Engraver.Proofs.Relay.Readback
import Engraver.Proofs.Grbl.RapidMoves
import Engraver.Proofs.Raster.Transpose
import Engraver.Proofs.Relay.Clients
import Engraver.Proofs.Grbl.Remarks
import Engraver.Proofs.Grbl.ReportFields
import Engraver.Proofs.Number.Rounding
import Engraver.Proofs.Number.Bits
import Engraver.Proofs.Number.Nearest
import Engraver.Proofs.Number.Scientific
import Engraver.Proofs.Number.Places
import Engraver.Proofs.Grbl.ReportText
import Engraver.Proofs.Number.ShortestText
import Engraver.Proofs.Toml.Scalars
import Engraver.Proofs.Toml.Quotes
import Engraver.Proofs.Toml.Statements
import Engraver.Proofs.Json.Leaves
import Engraver.Proofs.Json.Indented
import Engraver.Proofs.Files.Contents
import Engraver.Proofs.Config.Documents
import Engraver.Proofs.Config.TomlText
import Engraver.Proofs.Config.JsonText
import Engraver.Proofs.Config.Reloading
import Engraver.Proofs.Raster.Mirror
import Engraver.Proofs.Raster.MaximalRuns
import Engraver.Proofs.Grbl.WordOrder
import Engraver.Proofs.KeyMap
import Engraver.Proofs.Job.Entries
import Engraver.Proofs.Job.Header
import Engraver.Proofs.Raster.Buffers
import Engraver.Proofs.Number.Values
import Engraver.Proofs.Durations
import Engraver.Proofs.Job.Conversion
import Engraver.Proofs.Raster.Modes
import Engraver.Proofs.Properties
import Engraver.Proofs.Grbl.Feeds
import Engraver.Proofs.Raster.Counters
import Engraver.Proofs.Raster.Growth
import Engraver.Proofs.Raster.Draining
