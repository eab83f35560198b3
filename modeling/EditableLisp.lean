import EditableLisp.Builtin.Argument
import EditableLisp.Builtin.Expander
import EditableLisp.Builtin.Mapping
import EditableLisp.Builtin.Name
import EditableLisp.Builtin.Numeric
import EditableLisp.Builtin.Question
import EditableLisp.Builtin.Run
import EditableLisp.Builtin.Sequence
import EditableLisp.Builtin.Textual
import EditableLisp.CommandLine
import EditableLisp.Copy
import EditableLisp.Environment
import EditableLisp.Expansion
import EditableLisp.Fault
import EditableLisp.Files
import EditableLisp.Interpreter
import EditableLisp.Json.Decode
import EditableLisp.Json.Encode
import EditableLisp.Json.Number
import EditableLisp.Json.Token
import EditableLisp.Json.Tree
import EditableLisp.Machine.Call
import EditableLisp.Machine.Special
import EditableLisp.Machine.State
import EditableLisp.Machine.Step
import EditableLisp.Main
import EditableLisp.Number.Arithmetic
import EditableLisp.Number.Basic
import EditableLisp.Number.Exact
import EditableLisp.Number.Fixed
import EditableLisp.Number.Numeral
import EditableLisp.Number.Seeded
import EditableLisp.Number.Shortest
import EditableLisp.Pattern
import EditableLisp.Printer
import EditableLisp.Source.Error
import EditableLisp.Source.Form
import EditableLisp.Source.Reader
import EditableLisp.Source.Token
import EditableLisp.Table
import EditableLisp.Text.Blank
import EditableLisp.Text.Quoted
import EditableLisp.Tree
import EditableLisp.Value.Basic
import EditableLisp.Value.Entries
import EditableLisp.Value.Equality
import EditableLisp.World
import EditableLisp.Proofs.Direct
import EditableLisp.Proofs.Quiet
import EditableLisp.Proofs.Recordings
import EditableLisp.Proofs.Frames
import EditableLisp.Proofs.Coherence
import EditableLisp.Proofs.Refinement
import EditableLisp.Proofs.Reuse
import EditableLisp.Proofs.RoundTrip
import EditableLisp.Proofs.TemplateCalls
import EditableLisp.Proofs.Indexing
import EditableLisp.Proofs.Replacing
import EditableLisp.Proofs.Locality
import EditableLisp.Proofs.Describing
import EditableLisp.Proofs.Legibility
import EditableLisp.Proofs.Revising
import EditableLisp.Proofs.Acceptance
import EditableLisp.Proofs.RunTimeData
import EditableLisp.Proofs.Depending
import EditableLisp.Proofs.Moves
import EditableLisp.Proofs.Normalizing
import EditableLisp.Proofs.Expanding
import EditableLisp.Proofs.Joining
import EditableLisp.Proofs.Placing
import EditableLisp.Proofs.Agreeing
import EditableLisp.Proofs.Reordering
import EditableLisp.Proofs.Composing
import EditableLisp.Proofs.Unread
import EditableLisp.Proofs.Keywords
import EditableLisp.Proofs.Waiting
import EditableLisp.Proofs.LastResults
import EditableLisp.Proofs.InRange
import EditableLisp.Proofs.Positions
import EditableLisp.Proofs.FiniteMaps
import EditableLisp.Proofs.Sites
import EditableLisp.Proofs.TailCalls
import EditableLisp.Proofs.TemplateLoops
import EditableLisp.Proofs.Equality
import EditableLisp.Proofs.WriteLogs
import EditableLisp.Proofs.Destructuring
import EditableLisp.Proofs.Quasiquoting
import EditableLisp.Proofs.Cutting
import EditableLisp.Proofs.Numbering
import EditableLisp.Proofs.FourPlaces
import EditableLisp.Proofs.Independence
import EditableLisp.Proofs.Comparing
import EditableLisp.Proofs.Slicing
import EditableLisp.Proofs.Grouping
import EditableLisp.Proofs.LoosePatterns
import EditableLisp.Proofs.BuiltinForms
import EditableLisp.Proofs.Conditionals
import EditableLisp.Proofs.KeptLayouts
