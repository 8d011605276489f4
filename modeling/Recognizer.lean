import Recognizer.Dfa.Determinize
import Recognizer.Expr.Language
import Recognizer.Nfa.Path
import Recognizer.Proofs.Lockstep
import Recognizer.Proofs.Route
import Recognizer.Symbol.CaseFolded
import Recognizer.Proofs.Layout
import Recognizer.Proofs.Alternation
import Recognizer.Proofs.Expansion
import Recognizer.Proofs.Concatenation
import Recognizer.Proofs.Star
import Recognizer.Proofs.Expressions
import Recognizer.Proofs.Walks
import Recognizer.Proofs.Compact
import Recognizer.Proofs.Extent
import Recognizer.Proofs.Shape
import Recognizer.Proofs.Failure
import Recognizer.Proofs.Building
import Recognizer.Proofs.Representation
import Recognizer.Proofs.Limit
import Recognizer.Proofs.Renumbering
import Recognizer.Proofs.Emptiness
import Recognizer.Proofs.Prefixes
import Recognizer.Proofs.Faults
import Recognizer.Proofs.Interchange
import Recognizer.Proofs.BreadthFirst
import Recognizer.Proofs.Correspondence
import Recognizer.Proofs.Idempotence
import Recognizer.Proofs.Nesting
import Recognizer.Proofs.Associativity
import Recognizer.Proofs.Relabelling
import Recognizer.Proofs.Reordering
import Recognizer.Proofs.Closure
import Recognizer.Proofs.Shifting
import Recognizer.Proofs.Fusing
import Recognizer.Proofs.Consecutive
import Recognizer.Proofs.Splicing
import Recognizer.Proofs.SetCalls
import Recognizer.Proofs.Rendering
import Recognizer.Proofs.Allotment
import Recognizer.Proofs.Placement
import Recognizer.Proofs.Spellings
