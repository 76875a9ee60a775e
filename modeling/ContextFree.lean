import ContextFree.Closure
import ContextFree.Command
import ContextFree.Console
import ContextFree.Derivation
import ContextFree.Edit
import ContextFree.Erasure
import ContextFree.Event
import ContextFree.Form
import ContextFree.Grammar
import ContextFree.Grammar.Build
import ContextFree.Grammar.Printer
import ContextFree.Grammar.Reader
import ContextFree.Main
import ContextFree.Names
import ContextFree.Narration
import ContextFree.Production
import ContextFree.Program
import ContextFree.Proofs.AdmissibleLog
import ContextFree.Proofs.AnyOrder
import ContextFree.Proofs.Binarization
import ContextFree.Proofs.Built
import ContextFree.Proofs.Canonical
import ContextFree.Proofs.Closures
import ContextFree.Proofs.Colors
import ContextFree.Proofs.Contraction
import ContextFree.Proofs.EpsilonFree
import ContextFree.Proofs.EpsilonLog
import ContextFree.Proofs.Erasers
import ContextFree.Proofs.FaithfulLog
import ContextFree.Proofs.Idempotence
import ContextFree.Proofs.Isolation
import ContextFree.Proofs.Masks
import ContextFree.Proofs.Naming
import ContextFree.Proofs.NormalForm
import ContextFree.Proofs.Paths
import ContextFree.Proofs.ReducedForm
import ContextFree.Proofs.Reduction
import ContextFree.Proofs.RuleTable.Made
import ContextFree.Proofs.RuleTable.Passes
import ContextFree.Proofs.RuleTable.Rows
import ContextFree.Proofs.RuleTable.Visits
import ContextFree.Proofs.Search.AllOrNothing
import ContextFree.Proofs.Search.Barren
import ContextFree.Proofs.Search.Cancellation
import ContextFree.Proofs.Search.Detailed
import ContextFree.Proofs.Search.Enumeration
import ContextFree.Proofs.Search.Exhaustion
import ContextFree.Proofs.Search.Exploration
import ContextFree.Proofs.Search.Moves
import ContextFree.Proofs.Search.Replay
import ContextFree.Proofs.Search.Settling
import ContextFree.Proofs.Search.Targeted
import ContextFree.Proofs.Search.Tracking
import ContextFree.Proofs.Search.Unbounded
import ContextFree.Proofs.Shortage
import ContextFree.Proofs.ShortestReport
import ContextFree.Proofs.Supply
import ContextFree.Proofs.Text.Format
import ContextFree.Proofs.Text.Lines
import ContextFree.Proofs.Text.Pattern
import ContextFree.Proofs.Text.Reading
import ContextFree.Proofs.Text.RoundTrip
import ContextFree.Proofs.Transformed
import ContextFree.Proofs.UnitFree
import ContextFree.Proofs.Vanishing
import ContextFree.Proofs.Worklists
import ContextFree.Proofs.Yield
import ContextFree.RuleTable
import ContextFree.RuleTable.Build
import ContextFree.RuleTable.Transform
import ContextFree.Search.Cutoff
import ContextFree.Search.Explore
import ContextFree.Search.Node
import ContextFree.Search.Shortest
import ContextFree.Search.Space
import ContextFree.Search.Words
import ContextFree.SortedSet
import ContextFree.Symbol
import ContextFree.Symbol.Code
import ContextFree.Table
import ContextFree.Table.Framed
import ContextFree.Text.Blank
import ContextFree.Text.Printable
import ContextFree.Text.Quoted
import ContextFree.Text.Split
import ContextFree.Transform.Binary
import ContextFree.Transform.Epsilon
import ContextFree.Transform.Isolate
import ContextFree.Transform.NormalForm
import ContextFree.Transform.Unit
import ContextFree.Transform.Useless
