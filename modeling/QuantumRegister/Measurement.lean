import QuantumRegister.Error
import QuantumRegister.Grid
import QuantumRegister.Random.Weighted

/-!
Measurements in the computational basis, and what happens to a measured value before it is recorded:
confusion matrices replace values at random, then an invert mask flips bits.
-/

set_option autoImplicit false

namespace QuantumRegister

/-- Replaces the joint value at some positions of an outcome. Row `i` of the matrix holds the
chances of each new value when the true joint value is `i`. -/
structure Confusion (R : Type) where
  positions : List Nat
  matrix : Grid R

/-- With `collapses` unset the state is only sampled. -/
structure Measurement (R : Type) where
  qudits : List Qudit
  key : String
  invert : List Bool := []
  confusions : List (Confusion R) := []
  collapses : Bool := true

namespace Measurement

variable {R : Type}

def withInvert (m : Measurement R) (mask : List Bool) : Measurement R := { m with invert := mask }

def peeking (m : Measurement R) : Measurement R := { m with collapses := false }

def quditsAt (m : Measurement R) (positions : List Nat) : List Qudit :=
  positions.map fun p => m.qudits.getD p default

variable [Scalar R]

def tolerance : R := 1e-8

def isDistribution (row : List R) : Bool :=
  row.all (fun x => decide (0 ≤ x)) && decide (Scalar.magnitude (Scalar.sum row - 1) < tolerance)

def withConfusion (m : Measurement R) (positions : List Nat) (matrix : Grid R) :
    Except (SimError R) (Measurement R) :=
  match positions.find? (m.qudits.length ≤ ·) with
  | some p => .error (.configuration (.confusionPosition p))
  | none =>
    let d := Qudit.jointDim (m.quditsAt positions)
    if matrix.rows ≠ d ∨ matrix.cols ≠ d then .error (.shapeMismatch [d, d] [matrix.rows, matrix.cols])
    else if (matrix.toRows 0).all isDistribution then
      .ok { m with confusions := m.confusions ++ [⟨positions, matrix⟩] }
    else .error (.configuration .notStochastic)

def replaceAt (values : List Nat) : List (Nat × Nat) → List Nat
  | [] => values
  | (p, d) :: rest => replaceAt (values.set p d) rest

def rowOf (m : Measurement R) (c : Confusion R) (values : List Nat) : Nat :=
  MixedRadix.wordValue (Qudit.dims (m.quditsAt c.positions)) (c.positions.map fun p => values.getD p 0)

/-- Where a confusion reads past the end: a position without a qudit or a value, or a row that the
matrix does not have. -/
def fault? (m : Measurement R) (c : Confusion R) (values : List Nat) : Option (ConfigurationFault R) :=
  match c.positions.find? fun p => m.qudits.length ≤ p || values.length ≤ p with
  | some p => some (.confusionPosition p)
  | none => if c.matrix.rows ≤ m.rowOf c values then some (.confusionRow (m.rowOf c values)) else none

/-- Draws the joint value that stands for the true one; a row that cannot be drawn from changes
nothing. -/
def confuse (m : Measurement R) (c : Confusion R) (values : List Nat) :
    Random.Draw (Except (SimError R) (List Nat)) :=
  match m.fault? c values with
  | some fault => return .error (.configuration fault)
  | none =>
    match Random.Weighted.of (c.matrix.row (m.rowOf c values) 0) with
    | .error _ => return .ok values
    | .ok d => do
      let digits := MixedRadix.digits (Qudit.dims (m.quditsAt c.positions)) (← d.draw)
      return .ok (replaceAt values (c.positions.zip digits))

def confuseAll (m : Measurement R) :
    List (Confusion R) → List Nat → Random.Draw (Except (SimError R) (List Nat))
  | [], values => return .ok values
  | c :: cs, values => do
    match ← m.confuse c values with
    | .error e => return .error e
    | .ok values => confuseAll m cs values

end Measurement

def flipBits : (mask : List Bool) → List Nat → List Nat
  | flip :: mask, v :: vs => (if flip && v < 2 then 1 - v else v) :: flipBits mask vs
  | _, vs => vs

def Measurement.correct {R : Type} [Scalar R] (m : Measurement R) (raw : List Nat) :
    Random.Draw (Except (SimError R) (List Nat)) := do
  return (← m.confuseAll m.confusions raw).map (flipBits m.invert)

end QuantumRegister
