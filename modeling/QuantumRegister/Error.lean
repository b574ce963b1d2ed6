import QuantumRegister.Qudit
import QuantumRegister.Random.Weighted

/-!
Every way in which building or changing a state can fail, as a cause; `SimError.message` is the
wording.
-/

set_option autoImplicit false

namespace QuantumRegister

inductive ConfigurationFault (R : Type) where
  | noQudits
  | listedTwice (q : Qudit)
  | withoutLevels (q : Qudit)
  | tolerance (given : R)
  | indexBeyondQudits (index count : Nat)
  | indexBeyondBasis (index size : Nat)
  | duplicateQudits
  | alreadyOwned (q : Qudit)
  | spaceTooLarge
  | notNormalized (normSq : R)
  | confusionPosition (position : Nat)
  | confusionRow (row : Nat)
  | notStochastic

inductive ChannelFault (R : Type) where
  | noBranches
  | negativeWeight
  | weightSum (total : R)
  | noOperators
  | incomplete (deviation : R)
  | undrawable (fault : Random.WeightFault)
  | branchWithoutWeight

inductive SimError (R : Type) where
  | unsupported (name : String)
  | notSeparable (qudits : List Qudit) (tolerance : R)
  | shapeMismatch (expected found : List Nat)
  | configuration (fault : ConfigurationFault R)
  | quditNotFound (q : Qudit)
  | repeatedQudit (q : Qudit)
  | invalidChannel (fault : ChannelFault R)
  /-- A handle without a state; registers never let one escape. -/
  | dangling (handle : Nat)

namespace SimError

variable {R : Type} [Scalar R]

def list (texts : List String) : String := "[" ++ ", ".intercalate texts ++ "]"

def numbers (ns : List Nat) : String := list (ns.map toString)

/-- Numbers that were given are written in full. `measured` writes those that were computed. -/
def configurationMessage (measured : R → String) : ConfigurationFault R → String
  | .noQudits => "must specify qubits if the initial state is an integer"
  | .listedTwice q => "qubit " ++ q.text ++ " listed twice"
  | .withoutLevels q => "qubit " ++ q.text ++ " has dimension 0"
  | .tolerance x => "invalid factoring tolerance " ++ Scalar.plain x
  | .indexBeyondQudits i n => "initial state " ++ toString i ++ " out of range for " ++ toString n ++ " qubits"
  | .indexBeyondBasis i n => "initial state " ++ toString i ++ " out of range for " ++ toString n ++ " basis states"
  | .duplicateQudits => "duplicate qubits in state"
  | .alreadyOwned q => "qubit " ++ q.text ++ " is already owned"
  | .spaceTooLarge => "state space too large"
  | .notNormalized x => "amplitudes are not normalized (norm² = " ++ measured x ++ ")"
  | .confusionPosition p => "confusion position " ++ toString p ++ " out of range"
  | .confusionRow i => "confusion matrix has no row " ++ toString i
  | .notStochastic => "confusion matrix rows must be probability distributions"

def channelMessage (measured : R → String) : ChannelFault R → String
  | .noBranches => "mixture has no branches"
  | .negativeWeight => "mixture weights must be non-negative"
  | .weightSum x => "mixture weights sum to " ++ measured x
  | .noOperators => "channel has no Kraus operators"
  | .incomplete x => "Kraus operators are incomplete (deviation " ++ measured x ++ ")"
  | .undrawable fault => "mixture weights: " ++ fault.message
  | .branchWithoutWeight => "selected Kraus branch has zero weight"

def message (measured : R → String) : SimError R → String
  | .unsupported name => "unsupported operation: " ++ name
  | .notSeparable qs x =>
    "state is not separable on " ++ list (qs.map Qudit.fields) ++ " within tolerance " ++ Scalar.scientific x
  | .shapeMismatch expected found =>
    "shape mismatch: expected " ++ numbers expected ++ ", found " ++ numbers found
  | .configuration fault => "invalid configuration: " ++ configurationMessage measured fault
  | .quditNotFound q => "qubit " ++ q.text ++ " is not owned by this state"
  | .repeatedQudit q => "qubit " ++ q.text ++ " is targeted more than once"
  | .invalidChannel fault => "invalid channel: " ++ channelMessage measured fault
  | .dangling handle => "dangling state handle " ++ toString handle

end SimError

end QuantumRegister
