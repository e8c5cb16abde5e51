import Relational.Decimal.Binary64
import Relational.Decimal.Shortest
import Relational.Decimal.Text
import Relational.Goal.Basic
import Relational.Goal.Lists
import Relational.Goal.Search
import Relational.State
import Relational.Stream.Basic
import Relational.Stream.Draw
import Relational.Stream.Strict
import Relational.Stream.Text
import Relational.Stream.Trace
import Relational.Subst.Basic
import Relational.Subst.Reify
import Relational.Subst.Text
import Relational.Subst.Unify
import Relational.Term.Basic
import Relational.Term.Convert
import Relational.Term.List
import Relational.Term.Text
import Relational.Proofs.Counting
import Relational.Proofs.Term.Equality
import Relational.Proofs.Term.Canonical
import Relational.Proofs.Term.Variants
import Relational.Proofs.Subst.Walk
import Relational.Proofs.Subst.Resolution
import Relational.Proofs.Subst.Naming
import Relational.Proofs.Subst.Reification
import Relational.Proofs.Subst.Renaming
import Relational.Proofs.Subst.Growth
import Relational.Proofs.Subst.Twins
import Relational.Proofs.Subst.Unification
import Relational.Proofs.Subst.Depth
import Relational.Proofs.Subst.Symmetry
import Relational.Proofs.Subst.Sequence
import Relational.Proofs.Term.Assignment
import Relational.Proofs.Subst.Solutions
import Relational.Proofs.Subst.Order
import Relational.Proofs.Subst.Reach
import Relational.Proofs.Subst.OccursCheck
import Relational.Proofs.Subst.Agreement
import Relational.Proofs.Stream.Blocks
import Relational.Proofs.Stream.Schedule
import Relational.Proofs.Stream.Delivery
import Relational.Proofs.Stream.Lockstep
import Relational.Proofs.Stream.Likeness
import Relational.Proofs.Stream.Provenance
import Relational.Proofs.Stream.Binding
import Relational.Proofs.Stream.Marks
import Relational.Proofs.Stream.Drawing
import Relational.Proofs.Stream.Collecting
import Relational.Proofs.Stream.Receiving
import Relational.Proofs.Search.Derivation
import Relational.Proofs.Search.Answers
import Relational.Proofs.Search.Meaning
import Relational.Proofs.Search.Validity
import Relational.Proofs.Search.Correctness
import Relational.Proofs.Search.Extension
import Relational.Proofs.Search.Branch
import Relational.Proofs.Search.Freshness
import Relational.Proofs.Search.Numbering
import Relational.Proofs.Search.Immediate
import Relational.Proofs.Subst.Locality
import Relational.Proofs.Subst.Detour
import Relational.Proofs.Subst.Ground
import Relational.Proofs.Search.Equations
import Relational.Proofs.Search.Appending
import Relational.Proofs.Search.Splitting
import Relational.Proofs.Search.Membership
import Relational.Proofs.Search.Positions
import Relational.Proofs.Search.Halves
import Relational.Proofs.Search.RoundTrip
import Relational.Proofs.Subst.Spine
import Relational.Proofs.Subst.NameOrder
import Relational.Proofs.Search.Combinators
import Relational.Proofs.Search.Hanging
import Relational.Proofs.Search.Endless
import Relational.Proofs.Search.Alternatives
import Relational.Proofs.Search.Units
import Relational.Proofs.Term.Items
import Relational.Proofs.Term.Printing
import Relational.Proofs.Search.NewVariables
