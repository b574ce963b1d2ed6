import QuantumRegister.Error

/-!
Parameters of a register, and their check.
-/

set_option autoImplicit false

namespace QuantumRegister

/-- The initial state is a flat position over the qudits. With `split`, qudits that are not
entangled are held apart. -/
structure Settings (R : Type) where
  qudits : Option (List Qudit)
  initial : Nat
  split : Bool
  tolerance : R
  seed : Nat

namespace Settings

variable {R : Type} [Scalar R]

def defaultTolerance : R := 1e-7

/-- A register of more basis states than words holds every position. -/
def inRange (qudits : List Qudit) (initial : Nat) : Bool :=
  match MixedRadix.checkedSize 1 (Qudit.dims qudits) with
  | some n => initial < n
  | none => true

def validate (s : Settings R) : Except (SimError R) (List Qudit) :=
  match s.qudits with
  | none => .error (.configuration .noQudits)
  | some qs =>
    match Qudit.firstRepeated qs with
    | some q => .error (.configuration (.listedTwice q))
    | none =>
      match qs.find? (·.dim == 0) with
      | some q => .error (.configuration (.withoutLevels q))
      | none =>
        if !Scalar.isFinite s.tolerance || decide (s.tolerance < 0) then
          .error (.configuration (.tolerance s.tolerance))
        else if inRange qs s.initial then .ok qs
        else .error (.configuration (.indexBeyondQudits s.initial qs.length))

end Settings

end QuantumRegister
