/-!
Generators of the Clifford group.
-/

set_option autoImplicit false

namespace QuantumRegister

/-- A generator whose qubits are named by labels of type `ι`. The first qubit of `cx` controls. -/
inductive Generator (ι : Type) where
  | h (q : ι)
  | s (q : ι)
  | x (q : ι)
  | y (q : ι)
  | z (q : ι)
  | cx (a b : ι)
  | cz (a b : ι)
deriving DecidableEq

def Generator.labels {ι : Type} : Generator ι → List ι
  | .h q | .s q | .x q | .y q | .z q => [q]
  | .cx a b | .cz a b => [a, b]

end QuantumRegister
