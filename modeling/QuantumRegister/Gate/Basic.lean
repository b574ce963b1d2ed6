import QuantumRegister.Gate.Generator
import QuantumRegister.Operator

/-!
The standard gates on one, two and three qubits, with their matrices, their generators where they
lie in the Clifford group, and the decomposition of the doubly controlled gate. The first qubit of a
gate is the most significant one of its matrix.
-/

set_option autoImplicit false

namespace QuantumRegister

/-- Controls come first. The identity acts on a qudit of any dimension. -/
inductive Gate (R : Type) where
  | identity (q : Qudit)
  | h (q : Qudit)
  | x (q : Qudit)
  | y (q : Qudit)
  | z (q : Qudit)
  | s (q : Qudit)
  | sInv (q : Qudit)
  | t (q : Qudit)
  | tInv (q : Qudit)
  | rx (q : Qudit) (angle : R)
  | ry (q : Qudit) (angle : R)
  | rz (q : Qudit) (angle : R)
  | u (q : Qudit) (theta phi lambda : R)
  | cx (a b : Qudit)
  | cy (a b : Qudit)
  | cz (a b : Qudit)
  | swap (a b : Qudit)
  | ccx (a b c : Qudit)

namespace Gate

variable {R : Type}

def targets : Gate R → List Qudit
  | .identity q | .h q | .x q | .y q | .z q | .s q | .sInv q | .t q | .tInv q => [q]
  | .rx q _ | .ry q _ | .rz q _ | .u q _ _ _ => [q]
  | .cx a b | .cy a b | .cz a b | .swap a b => [a, b]
  | .ccx a b c => [a, b, c]

def isIdentity : Gate R → Bool
  | .identity _ => true
  | _ => false

def isSwap : Gate R → Bool
  | .swap _ _ => true
  | _ => false

def generators : Gate R → Option (List (Generator Qudit))
  | .identity _ => some []
  | .h q => some [.h q]
  | .x q => some [.x q]
  | .y q => some [.y q]
  | .z q => some [.z q]
  | .s q => some [.s q]
  | .sInv q => some [.z q, .s q]
  | .cx a b => some [.cx a b]
  | .cy a b => some [.z b, .s b, .cx a b, .s b]
  | .cz a b => some [.cz a b]
  | .swap a b => some [.cx a b, .cx b a, .cx a b]
  | _ => none

def isClifford (g : Gate R) : Bool := g.generators.isSome

def decomposition : Gate R → Option (List (Gate R))
  | .ccx a b c => some
      [.h c, .cx b c, .tInv c, .cx a c, .t c, .cx b c, .tInv c, .cx a c,
        .t b, .t c, .h c, .cx a b, .t a, .tInv b, .cx a b]
  | _ => none

variable [Scalar R]

def name : Gate R → String
  | .rx _ angle => "Rx[" ++ Scalar.plain angle ++ "]"
  | .ry _ angle => "Ry[" ++ Scalar.plain angle ++ "]"
  | .rz _ angle => "Rz[" ++ Scalar.plain angle ++ "]"
  | .u _ theta phi lambda =>
    "U[" ++ Scalar.plain theta ++ ", " ++ Scalar.plain phi ++ ", " ++ Scalar.plain lambda ++ "]"
  | .identity _ => "I"
  | .h _ => "H"
  | .x _ => "X"
  | .y _ => "Y"
  | .z _ => "Z"
  | .s _ => "S"
  | .sInv _ => "S†"
  | .t _ => "T"
  | .tInv _ => "T†"
  | .cx _ _ => "CX"
  | .cy _ _ => "CY"
  | .cz _ _ => "CZ"
  | .swap _ _ => "Swap"
  | .ccx _ _ _ => "CCX"

def text (g : Gate R) : String := g.name ++ "(" ++ Qudit.texts g.targets ++ ")"

def phase (z : Cplx R) : Operator R := Operator.ofList 2 [1, 0, 0, z]

def pauliX : Operator R := Operator.ofList 2 [0, 1, 1, 0]

def pauliY : Operator R := Operator.ofList 2 [0, -Cplx.i, Cplx.i, 0]

def pauliZ : Operator R := phase (-1)

def hadamard : Operator R :=
  let r : Cplx R := Cplx.ofReal Scalar.invSqrtTwo
  Operator.ofList 2 [r, r, r, -r]

def euler (theta phi lambda : R) : Operator R :=
  let c := Scalar.cos (theta / 2.0)
  let s := Scalar.sin (theta / 2.0)
  Operator.ofList 2
    [Cplx.ofReal c, (-Cplx.cis lambda).scale s, (Cplx.cis phi).scale s, (Cplx.cis (phi + lambda)).scale c]

def matrix : Gate R → Operator R
  | .identity q => Operator.identity q.dim
  | .h _ => hadamard
  | .x _ => pauliX
  | .y _ => pauliY
  | .z _ => pauliZ
  | .s _ => phase Cplx.i
  | .sInv _ => phase (-Cplx.i)
  | .t _ => phase (Cplx.cis Scalar.eighthTurn)
  | .tInv _ => phase (Cplx.cis (-Scalar.eighthTurn))
  | .rx _ angle =>
    let c : Cplx R := Cplx.ofReal (Scalar.cos (angle / 2.0))
    let s := (-Cplx.i).scale (Scalar.sin (angle / 2.0))
    Operator.ofList 2 [c, s, s, c]
  | .ry _ angle =>
    let c : Cplx R := Cplx.ofReal (Scalar.cos (angle / 2.0))
    let s : Cplx R := Cplx.ofReal (Scalar.sin (angle / 2.0))
    Operator.ofList 2 [c, -s, s, c]
  | .rz _ angle => Operator.ofList 2 [Cplx.cis (-angle / 2.0), 0, 0, Cplx.cis (angle / 2.0)]
  | .u _ theta phi lambda => euler theta phi lambda
  | .cx _ _ => pauliX.controlled
  | .cy _ _ => pauliY.controlled
  | .cz _ _ => pauliZ.controlled
  | .swap _ _ => Operator.exchange 4 1 2
  | .ccx _ _ _ => pauliX.controlled.controlled

end Gate

end QuantumRegister
