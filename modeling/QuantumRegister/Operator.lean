import QuantumRegister.Cplx
import QuantumRegister.Error
import QuantumRegister.Grid
import QuantumRegister.Scalar.Lanes

/-!
Complex matrices that act on the joint basis of some qudits.
-/

set_option autoImplicit false

namespace QuantumRegister

abbrev Operator (R : Type) := Grid (Cplx R)

namespace Operator

variable {R : Type} [Scalar R]

def entry (m : Operator R) (i j : Nat) : Cplx R := m.getD i j 0

def identity (d : Nat) : Operator R := Grid.tabulate d d fun i j => if i = j then 1 else 0

def ofList (d : Nat) (entries : List (Cplx R)) : Operator R := ⟨d, d, entries.toArray⟩

def controlled (u : Operator R) : Operator R :=
  let d := u.rows
  Grid.tabulate (2 * d) (2 * d) fun i j =>
    if d ≤ i ∧ d ≤ j then u.entry (i - d) (j - d) else if i = j then 1 else 0

def exchange (d a b : Nat) : Operator R :=
  Grid.tabulate d d fun i j => if i = (if j = a then b else if j = b then a else j) then 1 else 0

def transition (d target source : Nat) : Operator R :=
  Grid.tabulate d d fun i j => if i = target ∧ j = source then 1 else 0

def scale (m : Operator R) (z : Cplx R) : Operator R := m.map (· * z)

/-- The dot product of two columns of coefficients, `y ← 1 · a · x + 1 · y` from the first term on.
The unit factors let an overflow show as an undefined imaginary part. -/
def accumulate : List (Cplx R × Cplx R) → Cplx R
  | [] => 0
  | (a, x) :: terms => terms.foldl (fun y t => 1 * t.1 * t.2 + 1 * y) (1 * a * x)

def gram (m : Operator R) : Operator R :=
  Grid.tabulate m.cols m.cols fun i j =>
    accumulate ((List.range m.rows).map fun k => ((m.entry k i).conj, m.entry k j))

def add (a b : Operator R) : Operator R :=
  Grid.tabulate a.rows a.cols fun i j => a.entry i j + b.entry i j

def sub (a b : Operator R) : Operator R :=
  Grid.tabulate a.rows a.cols fun i j => a.entry i j - b.entry i j

/-- Frobenius norm, summed column by column; each column is summed in lanes. -/
def norm (m : Operator R) : R :=
  Scalar.sqrt (Scalar.sum ((List.range m.cols).map fun j =>
    Scalar.laneSum ((List.range m.rows).map fun i => (m.entry i j).normSq)))

def checkSquare (qudits : List Qudit) (m : Operator R) : Except (SimError R) Unit :=
  let d := Qudit.jointDim qudits
  if m.rows ≠ d ∨ m.cols ≠ d then .error (.shapeMismatch [d, d] [m.rows, m.cols]) else .ok ()

def checkAll (qudits : List Qudit) : List (Operator R) → Except (SimError R) Unit
  | [] => .ok ()
  | m :: ms =>
    match checkSquare qudits m with
    | .error e => .error e
    | .ok () => checkAll qudits ms

end Operator

end QuantumRegister
