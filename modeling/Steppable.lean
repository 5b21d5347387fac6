import Steppable.Main
import Steppable.Proofs.Tree.Replacement
import Steppable.Proofs.Machine.Links
import Steppable.Proofs.Machine.Discipline
import Steppable.Proofs.Machine.Transparency
import Steppable.Proofs.Machine.Aliasing
import Steppable.Proofs.Machine.Suspension
import Steppable.Proofs.Machine.Faults
import Steppable.Proofs.Machine.Termination
import Steppable.Proofs.Machine.Batch
import Steppable.Proofs.Session.Globals
import Steppable.Proofs.Session.Calls
import Steppable.Proofs.Lexical.Scoping
import Steppable.Proofs.Parser.Separation
import Steppable.Proofs.Parser.Diagnosis
import Steppable.Proofs.Parser.Precedence
import Steppable.Proofs.Parser.Inversion
import Steppable.Proofs.Parser.Survival
import Steppable.Proofs.Parser.Binding
import Steppable.Proofs.Scope.Nested
import Steppable.Proofs.Parser.Reuse
import Steppable.Proofs.Parser.Rounds
import Steppable.Proofs.Token.Comments
import Steppable.Proofs.Numeric.Conversion
import Steppable.Proofs.Calendar
import Steppable.Proofs.Machine.Outcome
import Steppable.Proofs.Machine.Consultation
import Steppable.Proofs.Value.Comparison
import Steppable.Proofs.Machine.Limit
import Steppable.Proofs.Machine.Serving
import Steppable.Proofs.Parser.Places
import Steppable.Proofs.Parser.Aftermath
