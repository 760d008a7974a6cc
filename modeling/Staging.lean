import Staging.Callable.Positional
import Staging.Staged
import Staging.Proofs.Keywords
import Staging.Proofs.Results
import Staging.Proofs.Slots
import Staging.Proofs.Spelling
import Staging.Proofs.Splitting
import Staging.Proofs.Substitution
import Staging.Proofs.Likeness
import Staging.Proofs.Resolution
import Staging.Proofs.ResolutionCache
import Staging.Proofs.Histories
import Staging.Proofs.Keys
import Staging.Proofs.Transparency
import Staging.Proofs.Binding
import Staging.Proofs.ArgumentNames
import Staging.Proofs.Rebasing
import Staging.Proofs.RolePairs
import Staging.Proofs.RoleConflicts
import Staging.Proofs.SameLeaves
import Staging.Proofs.Metadata
import Staging.Proofs.Donation
import Staging.Proofs.ExactKeys
import Staging.Proofs.Recency
import Staging.Proofs.Passing
import Staging.Proofs.Places
import Staging.Proofs.ReadOff
import Staging.Proofs.Rebinding
import Staging.Proofs.Validation
import Staging.Proofs.IndexRoles
import Staging.Proofs.SignatureText
import Staging.Proofs.Aliases
import Staging.Proofs.CheckedCalls
import Staging.Proofs.Representatives
import Staging.Proofs.Matching
import Staging.Proofs.Specialisations
import Staging.Proofs.CacheSize
import Staging.Proofs.WholeNumbers
import Staging.Proofs.EqualValues
import Staging.Value.BoxedSet
import Staging.Proofs.BoxedSets
import Staging.Proofs.Interchange
import Staging.Proofs.PurelyPositional
import Staging.Proofs.Declarations
import Staging.Proofs.LeafPaths
