import Reckoner.Arithmetic.Derivation
import Reckoner.Main
import Reckoner.Workbench.Cursor
import Reckoner.Workbench.Session
import Reckoner.Proofs.Bound
import Reckoner.Proofs.Failure
import Reckoner.Proofs.Guarded
import Reckoner.Proofs.Recursion
import Reckoner.Proofs.Assembly
import Reckoner.Proofs.Grammar
import Reckoner.Proofs.Reading
import Reckoner.Proofs.Words
import Reckoner.Proofs.Operators
import Reckoner.Proofs.Longest
import Reckoner.Proofs.Course
import Reckoner.Proofs.Cursor
import Reckoner.Proofs.Labels
import Reckoner.Proofs.Expected
import Reckoner.Proofs.Verdicts
import Reckoner.Proofs.Sufficiency
import Reckoner.Proofs.Position
import Reckoner.Proofs.Tracing
import Reckoner.Proofs.Attempts
import Reckoner.Proofs.Substitution
import Reckoner.Proofs.WriteOnce
import Reckoner.Proofs.Loops
import Reckoner.Proofs.Tails
import Reckoner.Proofs.Lookahead
import Reckoner.Proofs.Accounts
import Reckoner.Proofs.Unfolding
import Reckoner.Proofs.History
import Reckoner.Proofs.Retrying
import Reckoner.Proofs.Sequencing
import Reckoner.Proofs.Matching
import Reckoner.Proofs.Choices
import Reckoner.Proofs.Factoring
import Reckoner.Proofs.Printing
import Reckoner.Proofs.Siblings
