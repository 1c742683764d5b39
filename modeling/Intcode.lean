import Intcode.Word
import Intcode.Text.Blank
import Intcode.Text.Column
import Intcode.Text.Hidden
import Intcode.Text.Quoted
import Intcode.Opcode
import Intcode.Instruction
import Intcode.Program
import Intcode.Listing
import Intcode.Memory
import Intcode.Config
import Intcode.Fault
import Intcode.Ascii
import Intcode.Machine.Basic
import Intcode.Machine.Fetch
import Intcode.Machine.Step
import Intcode.Machine.Run
import Intcode.Machine.Trace
import Intcode.Mailbox
import Intcode.Mailbox.Reader
import Intcode.Source
import Intcode.Pipeline
import Intcode.Network.Basic
import Intcode.Network.Schedule
import Intcode.Command.Arguments
import Intcode.Command.Options
import Intcode.Command.Report
import Intcode.Command.Session
import Intcode.Command.Job
import Intcode.Main
import Intcode.Proofs.Text.Trim
import Intcode.Proofs.Memory.History
import Intcode.Proofs.Ascii.Seams
import Intcode.Proofs.Instruction.Decoding
import Intcode.Proofs.Program.Numeral
import Intcode.Proofs.Program.WireFormat
import Intcode.Proofs.Program.RoundTrip
import Intcode.Proofs.Listing.Sweep
import Intcode.Proofs.Listing.Layout
import Intcode.Proofs.Machine.Reads
import Intcode.Proofs.Machine.Step
import Intcode.Proofs.Machine.Ideal
import Intcode.Proofs.Machine.Starvation
import Intcode.Proofs.Machine.Steps
import Intcode.Proofs.Machine.Slot
import Intcode.Proofs.Machine.Resumption
import Intcode.Proofs.Machine.Streams
import Intcode.Proofs.Machine.Capabilities
import Intcode.Proofs.Machine.Rig
import Intcode.Proofs.Machine.LifeCycle
import Intcode.Proofs.Machine.Width
import Intcode.Proofs.Machine.Intake
import Intcode.Proofs.Machine.OnDemand
import Intcode.Proofs.Machine.Footprint
import Intcode.Proofs.Machine.Access
import Intcode.Proofs.Machine.Addresses
import Intcode.Proofs.Machine.Locality
import Intcode.Proofs.Machine.Watching
import Intcode.Proofs.Machine.Faulting
import Intcode.Proofs.Mailbox.Reading
import Intcode.Proofs.Mailbox.Sharing
import Intcode.Proofs.Pipeline.Pass
import Intcode.Proofs.Pipeline.Composition
import Intcode.Proofs.Pipeline.Ring
import Intcode.Proofs.Pipeline.Feedback
import Intcode.Proofs.Pipeline.Transit
import Intcode.Proofs.Pipeline.Faulting
import Intcode.Proofs.Network.Turn
import Intcode.Proofs.Network.History
import Intcode.Proofs.Network.Log
import Intcode.Proofs.Network.Conservation
import Intcode.Proofs.Network.Replay
import Intcode.Proofs.Network.Confluence
import Intcode.Proofs.Network.Shutdown
import Intcode.Proofs.Network.Idle
import Intcode.Proofs.Network.Inspection
import Intcode.Proofs.Command.Lines
import Intcode.Proofs.Ascii.Layout
import Intcode.Proofs.Command.Grouping
import Intcode.Proofs.Command.Arguments
import Intcode.Proofs.Command.Session
import Intcode.Proofs.Command.Conversation
import Intcode.Proofs.Command.Invocation
import Intcode.Proofs.Command.Transcript
import Intcode.Proofs.Command.Tracing
import Intcode.Proofs.Command.Reordering
