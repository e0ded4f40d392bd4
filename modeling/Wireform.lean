import Wireform.Buffer.Operation
import Wireform.Synthesizer
import Wireform.Frame
import Wireform.Gate.Store
import Wireform.Config
import Wireform.Fault.Json
import Wireform.Proofs.Frame.Chunking
import Wireform.Proofs.Synthesis.Readers
import Wireform.Proofs.Synthesis.Programs
import Wireform.Proofs.Text.Groups
import Wireform.Proofs.Nbt.Derivation
import Wireform.Proofs.Nbt.Recognition
import Wireform.Proofs.Codec.SelfDelimiting
import Wireform.Proofs.Frame.RoundTrip
import Wireform.Proofs.Synthesis.Received
import Wireform.Proofs.Nbt.Forwarding
import Wireform.Proofs.Buffer.Changes
import Wireform.Proofs.Frame.Streams
import Wireform.Proofs.Buffer.Runs
import Wireform.Proofs.Gate.Rules
import Wireform.Proofs.Gate.History
import Wireform.Proofs.Gate.Resolution
import Wireform.Proofs.Gate.Accounting
import Wireform.Proofs.Buffer.Faults
import Wireform.Proofs.Nbt.Bounds
import Wireform.Proofs.Synthesis.Concatenation
import Wireform.Proofs.Frame.Answers
import Wireform.Proofs.Frame.Relay
import Wireform.Proofs.Codec.Skipping
import Wireform.Proofs.Text.Lossy
import Wireform.Proofs.Codec.Text
import Wireform.Proofs.Number.Shortest
import Wireform.Proofs.Config.Texts
import Wireform.Proofs.Synthesis.InOrder
import Wireform.Proofs.Config.Fields
import Wireform.Proofs.BitSet.History
import Wireform.Proofs.Codec.BitSet
import Wireform.Proofs.Buffer.Underflow
import Wireform.Proofs.Nbt.Canonical
import Wireform.Proofs.Identifier
import Wireform.Proofs.Text.Inverse
