import Gradual.Bytes
import Gradual.Cbor.Item
import Gradual.Cbor.Reading
import Gradual.Command.Demo
import Gradual.Command.Flags
import Gradual.Command.Run
import Gradual.Decimal.Shortest
import Gradual.Digest
import Gradual.Files.Disk
import Gradual.Files.Path
import Gradual.Files.Tree
import Gradual.Heap.Deque
import Gradual.Heap.Record
import Gradual.Machine.Basic
import Gradual.Machine.Call
import Gradual.Machine.Coercion
import Gradual.Machine.Container
import Gradual.Machine.Inspect
import Gradual.Machine.Property
import Gradual.Main
import Gradual.Manifest.Basic
import Gradual.Manifest.File
import Gradual.Program.Run
import Gradual.Program.Syntax
import Gradual.Proofs.Cbor.PrefixCode
import Gradual.Proofs.Cbor.RoundTrip
import Gradual.Proofs.Coercion.Accounting
import Gradual.Proofs.Coercion.Conformance
import Gradual.Proofs.Coercion.Descent
import Gradual.Proofs.Coercion.Evolution
import Gradual.Proofs.Coercion.Migration
import Gradual.Proofs.Coercion.Outcome
import Gradual.Proofs.Coercion.Places
import Gradual.Proofs.Coercion.Preservation
import Gradual.Proofs.Coercion.Room
import Gradual.Proofs.Coercion.Search
import Gradual.Proofs.Coercion.Sharing
import Gradual.Proofs.Coercion.Soundness
import Gradual.Proofs.Coercion.Stability
import Gradual.Proofs.Coercion.Steps
import Gradual.Proofs.Coercion.Treatment
import Gradual.Proofs.Command.Cached
import Gradual.Proofs.Command.Packed
import Gradual.Proofs.Heap.Deque
import Gradual.Proofs.Heap.Edit
import Gradual.Proofs.Heap.Record
import Gradual.Proofs.Heap.Sequence
import Gradual.Proofs.Heap.Walk
import Gradual.Proofs.Machine.Arity
import Gradual.Proofs.Machine.Boxes
import Gradual.Proofs.Machine.CallStack
import Gradual.Proofs.Machine.Calls
import Gradual.Proofs.Machine.Chains
import Gradual.Proofs.Machine.Congruence
import Gradual.Proofs.Machine.Edits
import Gradual.Proofs.Machine.Effect
import Gradual.Proofs.Machine.Forwarding
import Gradual.Proofs.Machine.Frame
import Gradual.Proofs.Machine.Keys
import Gradual.Proofs.Machine.Limits
import Gradual.Proofs.Machine.Named
import Gradual.Proofs.Machine.Operations
import Gradual.Proofs.Machine.Outcome
import Gradual.Proofs.Machine.Placement
import Gradual.Proofs.Machine.Reachable
import Gradual.Proofs.Machine.Sound
import Gradual.Proofs.Machine.Transparency
import Gradual.Proofs.Machine.Valid
import Gradual.Proofs.Machine.Views
import Gradual.Proofs.Machine.Writes
import Gradual.Proofs.Outcome
import Gradual.Proofs.Program.Composition
import Gradual.Proofs.Program.Height
import Gradual.Proofs.Program.Limits
import Gradual.Proofs.Program.Outcome
import Gradual.Proofs.Program.Recovery
import Gradual.Proofs.Program.Safety
import Gradual.Proofs.Program.Steps
import Gradual.Proofs.Property.Map
import Gradual.Proofs.Property.Names
import Gradual.Proofs.Property.Store
import Gradual.Proofs.Relations.Cache
import Gradual.Proofs.Relations.File
import Gradual.Proofs.Replay
import Gradual.Proofs.Table.Building
import Gradual.Proofs.Table.Canonical
import Gradual.Proofs.Table.Document
import Gradual.Proofs.Table.Encoding
import Gradual.Proofs.Table.Isomorphism
import Gradual.Proofs.Table.Linking
import Gradual.Proofs.Table.Numbering
import Gradual.Proofs.Table.Resolution
import Gradual.Proofs.Table.RoundTrip
import Gradual.Proofs.Table.Transfer
import Gradual.Proofs.Table.Validity
import Gradual.Proofs.Table.Writing
import Gradual.Proofs.Types.Comparison
import Gradual.Proofs.Types.Completeness
import Gradual.Proofs.Types.Decision
import Gradual.Proofs.Types.Depth
import Gradual.Proofs.Types.Drawing
import Gradual.Proofs.Types.Growth
import Gradual.Proofs.Types.Locality
import Gradual.Proofs.Types.Oracle
import Gradual.Proofs.Types.Order
import Gradual.Proofs.Types.Portrait
import Gradual.Proofs.Types.Printing
import Gradual.Proofs.Types.Relations
import Gradual.Proofs.Types.Renaming
import Gradual.Proofs.Types.Sketch
import Gradual.Proofs.Types.Store
import Gradual.Proofs.Types.Termination
import Gradual.Proofs.Types.Unfolding
import Gradual.Proofs.Value.Encoding
import Gradual.Proofs.Value.Word
import Gradual.Property.HashStore
import Gradual.Property.Layout
import Gradual.Property.Names
import Gradual.Relations.Cache
import Gradual.Relations.File
import Gradual.Relations.Session
import Gradual.Table.Authoring
import Gradual.Table.Basic
import Gradual.Table.Cbor
import Gradual.Table.Compiled
import Gradual.Table.Document
import Gradual.Table.File
import Gradual.Text.Hex
import Gradual.Text.Printable
import Gradual.Text.Quoted
import Gradual.Toml.Document
import Gradual.Toml.Lexeme
import Gradual.Toml.Value
import Gradual.Types.Checker
import Gradual.Types.Expr
import Gradual.Types.Given
import Gradual.Types.Graph
import Gradual.Types.Printer
import Gradual.Value.Double
import Gradual.Value.Word
import Gradual.Yaml.Cursor
import Gradual.Yaml.Meaning
import Gradual.Yaml.Node
import Gradual.Yaml.Scalar
import Gradual.Yaml.Token
