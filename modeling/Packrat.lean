import Packrat.Forest.Edit
import Packrat.Grammar.Basic
import Packrat.Rules.Definition
import Packrat.Recognition.Apply
import Packrat.Recognition.Derivation
import Packrat.Proofs.Recognition.Genuine
import Packrat.Proofs.LeftRecursion.Iteration
import Packrat.Proofs.Recognition.Lasting
import Packrat.Proofs.Recognition.Moments
import Packrat.Proofs.Recognition.Following
import Packrat.Proofs.Recognition.Seeds
import Packrat.Proofs.Grammar.FirstCalls
import Packrat.Proofs.Recognition.Releases
import Packrat.Proofs.Recognition.Asking
import Packrat.Proofs.Recognition.Manner
import Packrat.Proofs.Recognition.Nesting
import Packrat.Proofs.Rules.Resolution
import Packrat.Proofs.Grammar.Registry
import Packrat.Proofs.Recognition.Limit
import Packrat.Proofs.Recognition.Tracing
import Packrat.Proofs.Forest.Calls
import Packrat.Proofs.Forest.Foreign
import Packrat.Proofs.Grammar.LeftCorners
import Packrat.Proofs.Grammar.NullableMatch
import Packrat.Proofs.Recognition.Growth
import Packrat.Proofs.Forest.Attaching
import Packrat.Proofs.Forest.Undoing
import Packrat.Proofs.Recognition.Faithful
import Packrat.Proofs.Recognition.Once
import Packrat.Proofs.Rules.DepthFirst
import Packrat.Proofs.Regex.Wrapping
