import TraitLift.Main
import TraitLift.Proofs.Token.Cut
import TraitLift.Proofs.Token.Place
import TraitLift.Proofs.Token.Layout
import TraitLift.Proofs.Lift.Fingerprint
import TraitLift.Proofs.Print.Writable
import TraitLift.Proofs.Reading.Writable
import TraitLift.Proofs.Expand.Sites
import TraitLift.Proofs.Lift.Writable
import TraitLift.Proofs.Expand.Splice
import TraitLift.Proofs.Expand.Extent
import TraitLift.Proofs.Expand.Lookahead
import TraitLift.Proofs.Expand.Locality
import TraitLift.Proofs.Lift.Constraints
import TraitLift.Proofs.Lift.Counterparts
import TraitLift.Proofs.Lift.Confluence
import TraitLift.Proofs.Grammar.Closure
import TraitLift.Proofs.Grammar.Nesting
import TraitLift.Proofs.Grammar.Reach
import TraitLift.Proofs.Grammar.Chart
import TraitLift.Proofs.Grammar.Forest
import TraitLift.Proofs.Grammar.Rules
import TraitLift.Proofs.Parse.Sentence
import TraitLift.Proofs.Token.Boundary
import TraitLift.Proofs.Token.Excise
import TraitLift.Proofs.Node.Relocate
import TraitLift.Proofs.Reading.Relocate
import TraitLift.Proofs.Lift.Relocate
import TraitLift.Proofs.Grammar.Rename
import TraitLift.Proofs.Expand.Fragment
import TraitLift.Proofs.Expand.Unmarked
import TraitLift.Proofs.Expand.Report
import TraitLift.Proofs.Cli.Outcome
import TraitLift.Proofs.Grammar.Clash
import TraitLift.Proofs.Grammar.Prefer
import TraitLift.Proofs.Grammar.Terse
import TraitLift.Proofs.Reading.Gist
import TraitLift.Proofs.Token.Brick
import TraitLift.Proofs.Expand.Mark
import TraitLift.Proofs.Lift.Mirror
import TraitLift.Proofs.Parse.Type
import TraitLift.Proofs.Lift.Verdict
import TraitLift.Proofs.Lift.Name
import TraitLift.Proofs.Parse.Args
import TraitLift.Proofs.Parse.Flaw
import TraitLift.Proofs.Expand.Collision
import TraitLift.Proofs.Expand.Markless
import TraitLift.Proofs.Cli.Copy
import TraitLift.Proofs.Cli.Status
import TraitLift.Proofs.Hash.XxHash64
import TraitLift.Proofs.Parse.Excerpt
import TraitLift.Proofs.Hash.Separation
import TraitLift.Proofs.Token.Tiling
import TraitLift.Proofs.Span
import TraitLift.Proofs.Expand.Matching
