import QuantumRegister.Stabilizer.Form

/-!
Amplitudes of a stabilizer state, one basis state at a time.
-/

set_option autoImplicit false

namespace QuantumRegister.Form

variable {R : Type} [Scalar R]

/-- The Pauli operator of the qubits read so far, carried back through the circuit: a power of the
imaginary unit, and the flipped qubits. -/
structure Carried where
  power : Nat
  flips : Array Bool

def Carried.add (c : Form R) (k : Carried) (p : Nat) : Carried :=
  let flips := line c.n fun j => flag k.flips j ^^ bit c.f p j
  ⟨k.power + exponent c.gamma p + 2 * count c.n (fun j => bit c.m p j && flag flips j), flips⟩

def carried (c : Form R) (bits : List Bool) : Carried :=
  ((List.range c.n).filter fun p => bits.getD p false).foldl (Carried.add c) ⟨0, line c.n fun _ => false⟩

/-- The amplitude of a basis state, most significant bit first. It is zero where the carried basis
state differs from `s` outside the Hadamard layer. -/
def amplitude (c : Form R) (bits : List Bool) : Cplx R :=
  let k := c.carried bits
  if (List.range c.n).any fun j => !flag c.v j && flag k.flips j != flag c.s j then 0
  else
    let negative := count c.n (fun j => flag c.v j && flag k.flips j && flag c.s j) % 2 == 1
    let layer := count c.n (flag c.v)
    (c.omega * Cplx.ipow (k.power % 4)).scale (Scalar.sign negative * Scalar.invSqrtTwoPow layer)

def bitsOf (n index : Nat) : List Bool := (List.range n).map fun k => index.testBit (n - 1 - k)

def stateVector (c : Form R) : List (Cplx R) := (List.range (Nat.pow 2 c.n)).map fun i => c.amplitude (bitsOf c.n i)

end QuantumRegister.Form
