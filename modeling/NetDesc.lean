import NetDesc.Main
import NetDesc.Tree.Writer
import NetDesc.Proofs.Cells.LifeCycle
import NetDesc.Proofs.Locations.Run
import NetDesc.Proofs.Locations.Trail
import NetDesc.Proofs.Sharing.Order
import NetDesc.Proofs.Scoping.Lookup
import NetDesc.Proofs.Recurrence.Acceptance
import NetDesc.Proofs.Network.Member
import NetDesc.Proofs.Network.Names
import NetDesc.Proofs.Endless.Texts
import NetDesc.Proofs.Variation.Unevaluated
import NetDesc.Proofs.Limits.Counter
import NetDesc.Proofs.Limits.Deeper
import NetDesc.Proofs.Matching.Reordering
import NetDesc.Proofs.Matching.Program
import NetDesc.Proofs.Matching.Literal
import NetDesc.Proofs.Arity.Throughout
import NetDesc.Proofs.Tree.RoundTrip
import NetDesc.Proofs.Network.Walk
import NetDesc.Proofs.Arrays.Comprehension
import NetDesc.Proofs.Arrays.Splicing
import NetDesc.Proofs.Naming.Unique
import NetDesc.Proofs.Format.Grammar
import NetDesc.Proofs.Format.Scalars
import NetDesc.Proofs.Operators.Refusals
import NetDesc.Proofs.Text.Substrings
import NetDesc.Proofs.Format.Repeated
import NetDesc.Proofs.Format.Indentation
import NetDesc.Proofs.Endless.Descents
import NetDesc.Proofs.Endless.Unfolding
