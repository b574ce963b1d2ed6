import QuantumRegister.Random.Source
import QuantumRegister.Stabilizer.Amplitude

/-!
Measuring a qubit of a stabilizer state: a random basis state of the Hadamard layer decides the
outcome, on which the state is then projected. Also the operations on qubit numbers that may lie
outside the register.
-/

set_option autoImplicit false

namespace QuantumRegister.Form

variable {R : Type} [Scalar R]

/-- Parity of the bits at the places that row `q` of `g` selects. Inside the Hadamard layer the bits
are random, one for each place of the layer in order; elsewhere they are those of `s`. -/
def parityFrom (c : Form R) (q : Nat) : List Nat → List Bool → Bool
  | [], _ => false
  | j :: js, random =>
    if flag c.v j then (random.headD false && bit c.g q j) ^^ parityFrom c q js random.tail
    else (flag c.s j && bit c.g q j) ^^ parityFrom c q js random

def outcome (c : Form R) (q : Nat) (random : List Bool) : Bool := c.parityFrom q (List.range c.n) random

def layerSize (c : Form R) : Nat := count c.n (flag c.v)

def measure (c : Form R) (q : Nat) : Random.Draw (Bool × Form R) := do
  let b := c.outcome q (← Random.drawBits c.layerSize)
  return (b, c.project q b)

def measureAll (c : Form R) : List Nat → Random.Draw (List Bool × Form R)
  | [] => return ([], c)
  | q :: qs => do
    let (b, c) ← c.measure q
    let (bs, c) ← measureAll c qs
    return (b :: bs, c)

def resetAll (c : Form R) : List Nat → Random.Draw (Form R)
  | [] => return c
  | q :: qs => do
    let (b, c) ← c.measure q
    resetAll (if b then c.applyX q else c) qs

/-- Whether a generator names qubits of the register. On no qubits at all, the controlled phase has
nothing to touch. -/
def fits (c : Form R) : Generator Nat → Bool
  | .cz a b => c.n == 0 || (a < c.n && b < c.n)
  | k => k.labels.all (· < c.n)

def applyGate? (c : Form R) (k : Generator Nat) : Option (Form R) := if c.fits k then some (c.apply k) else none

def applySwap? (c : Form R) (a b : Nat) : Option (Form R) :=
  if a < c.n ∧ b < c.n then some (c.applySwap a b) else none

/-- A qubit of the register can be read; without qubits, only the empty condition is. -/
def readable (c : Form R) (q : Nat) : Bool := c.n == 0 || q < c.n

def project? (c : Form R) (q : Nat) (outcome : Bool) : Option (Form R) :=
  if c.readable q then some (c.project q outcome) else none

def measure? (c : Form R) (q : Nat) : Option (Random.Draw (Bool × Form R)) :=
  if c.readable q then some (c.measure q) else none

def amplitude? (c : Form R) (bits : List Bool) : Option (Cplx R) :=
  if bits.length = c.n then some (c.amplitude bits) else none

def reindex? (c : Form R) (axes : List Nat) : Option (Form R) :=
  if c.n ≤ axes.length ∧ (axes.take c.n).all (· < c.n) then some (c.reindex axes) else none

end QuantumRegister.Form
