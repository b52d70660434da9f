import Coherence.Main
import Coherence.Emit.Units
import Coherence.Syntax.Reader
import Coherence.Syntax.Writer
import Coherence.Proofs.Typing
import Coherence.Proofs.Safety
import Coherence.Proofs.Claims
import Coherence.Proofs.UnitNames
import Coherence.Proofs.Alike
import Coherence.Proofs.Shuffled
import Coherence.Proofs.Views
import Coherence.Proofs.Registration
import Coherence.Proofs.MemberOrder
import Coherence.Proofs.OrderIndependence
import Coherence.Proofs.Code
import Coherence.Proofs.Checked
import Coherence.Proofs.References
import Coherence.Proofs.Turns
import Coherence.Proofs.Calls
import Coherence.Proofs.Lexical
import Coherence.Proofs.Foresight
import Coherence.Proofs.Batches
import Coherence.Proofs.Accounts
import Coherence.Proofs.Globals
import Coherence.Proofs.IncludeLines
import Coherence.Proofs.Includes
import Coherence.Proofs.Tokens
import Coherence.Proofs.Grammar
import Coherence.Proofs.Documents
import Coherence.Proofs.Forms
import Coherence.Proofs.Spellings
import Coherence.Proofs.WrittenTrees
import Coherence.Proofs.Acceptance
import Coherence.Proofs.Sealed
import Coherence.Proofs.Origins
import Coherence.Proofs.CommandRuns
import Coherence.Proofs.TypeAcceptance
import Coherence.Proofs.ScopeRuns
import Coherence.Proofs.Residue
import Coherence.Proofs.Rendering
import Coherence.Proofs.ReadBack
import Coherence.Proofs.BuiltinNames
import Coherence.Proofs.Guards
import Coherence.Proofs.MemberNames
import Coherence.Proofs.ErrorPlaces
import Coherence.Proofs.FailedTypes
import Coherence.Proofs.Redaction
import Coherence.Proofs.Noninterference
import Coherence.Proofs.Descriptions
import Coherence.Proofs.Arrivals
