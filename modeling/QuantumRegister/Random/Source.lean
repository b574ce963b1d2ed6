import QuantumRegister.Random.Stream
import QuantumRegister.Scalar

/-!
Random sources and the draws made from them. A source is a sequence of words with a position in it;
each draw reads the next words and moves on.
-/

set_option autoImplicit false

namespace QuantumRegister.Random

structure Source where
  word : Nat → UInt32
  position : Nat

instance : Inhabited Source := ⟨⟨fun _ => 0, 0⟩⟩

def Source.ofSeed (seed : Nat) : Source :=
  let key := keyOfSeed (UInt64.ofNat seed)
  ⟨Random.word key, 0⟩

abbrev Draw := StateM Source

def drawWord : Draw UInt32 := fun s => (s.word s.position, { s with position := s.position + 1 })

def drawDouble : Draw Nat := do
  let low ← drawWord
  let high ← drawWord
  return low.toNat + Nat.pow 2 32 * high.toNat

def drawBit : Draw Bool := do return Nat.pow 2 31 ≤ (← drawWord).toNat

def drawBits : Nat → Draw (List Bool)
  | 0 => return []
  | n + 1 => do
    let b ← drawBit
    return b :: (← drawBits n)

/-- A multiple of `2 ^ (-53)` in the unit interval. -/
def drawUnit {R : Type} [Scalar R] : Draw R := do return Scalar.dyadic ((← drawDouble) / Nat.pow 2 11) 53

/-- The largest low half of a product that keeps the choice among `n` fair. -/
def zone (bits n : Nat) : Nat := n * Nat.pow 2 (bits - 1 - n.log2) - 1

/-- A number below `n` from draws of `bits` bits: the high half of the draw times `n`, drawn again
while the low half lies beyond the zone. The last try is taken as it comes. -/
def drawBelow (bits : Nat) (draw : Draw Nat) (n : Nat) : (tries : Nat) → Draw Nat
  | 0 => do return (← draw) * n / Nat.pow 2 bits
  | tries + 1 => do
    let product := (← draw) * n
    if product % Nat.pow 2 bits ≤ zone bits n then return product / Nat.pow 2 bits
    else drawBelow bits draw n tries

/-- Refusals allowed in a row; a refusal has less than an even chance. -/
def maxTries : Nat := 512

def drawIndex (n : Nat) : Draw Nat := drawBelow 64 drawDouble n maxTries

def choose {α : Type} (xs : List α) : Draw (Option α) :=
  if xs.isEmpty then return none
  else do
    let i ← drawBelow 32 (do return (← drawWord).toNat) xs.length maxTries
    return xs[i]?

end QuantumRegister.Random
