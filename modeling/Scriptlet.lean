import Scriptlet.Grammar.Search
import Scriptlet.Syntax.Spanless
import Scriptlet.Syntax.Tokens
import Scriptlet.Typing.Judgement
import Scriptlet.Session
import Scriptlet.Main
import Scriptlet.Proofs.Eval.Safety
import Scriptlet.Proofs.Eval.Termination
import Scriptlet.Proofs.Grammar.Concatenation
import Scriptlet.Proofs.Grammar.Elements
import Scriptlet.Proofs.Grammar.Places
import Scriptlet.Proofs.Grammar.RoundTrip
import Scriptlet.Proofs.Grammar.SplitSearch
import Scriptlet.Proofs.Pipeline.CommandLine
import Scriptlet.Proofs.Pipeline.Verbosity
import Scriptlet.Proofs.Rewriting.DeadCode
import Scriptlet.Proofs.Rewriting.Declarations
import Scriptlet.Proofs.Rewriting.Grouping
import Scriptlet.Proofs.Scoping.Locality
import Scriptlet.Proofs.Scoping.Resolution
import Scriptlet.Proofs.Store.Points
import Scriptlet.Proofs.Token.Tiling
import Scriptlet.Proofs.Eval.Arithmetic
import Scriptlet.Proofs.Eval.Visiting
import Scriptlet.Proofs.Token.Numerals
import Scriptlet.Proofs.Token.LineEnds
import Scriptlet.Proofs.Grammar.Placeless
import Scriptlet.Proofs.Token.Shapes
import Scriptlet.Proofs.Token.Spacing
import Scriptlet.Proofs.Token.Words
import Scriptlet.Proofs.Scoping.Leaving
import Scriptlet.Proofs.Typing.Widening
import Scriptlet.Proofs.Scoping.Replacing
import Scriptlet.Proofs.Typing.Declared
import Scriptlet.Proofs.Eval.Input
import Scriptlet.Proofs.Pipeline.Pointing
import Scriptlet.Proofs.Grammar.Counting
import Scriptlet.Proofs.Grammar.Footprint
import Scriptlet.Proofs.Grammar.Rounds
import Scriptlet.Proofs.Grammar.Totality
