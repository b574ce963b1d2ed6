/-!
Positions in a mixed-radix system, most significant place first. A flat position splits into one
digit per place (`digits`), and the digits read back as the position (`value`).
-/

set_option autoImplicit false

namespace QuantumRegister.MixedRadix

def wordSize : Nat := Nat.pow 2 64

/-- The digits of `n`, and what is left of `n` above the most significant place. -/
def split : List Nat → Nat → List Nat × Nat
  | [], n => ([], n)
  | d :: ds, n =>
    let (low, high) := split ds n
    (high % d :: low, high / d)

/-- The digits of `n` over the radices `dims`; whatever exceeds their product is dropped. -/
def digits (dims : List Nat) (n : Nat) : List Nat := (split dims n).1

/-- A place without values has no digit. -/
def digits? (dims : List Nat) (n : Nat) : Option (List Nat) :=
  if dims.contains 0 then none else some (digits dims n)

def value (dims digits : List Nat) : Nat :=
  (digits.zip dims).foldl (fun acc p => acc * p.2 + p.1) 0

def wordValue (dims digits : List Nat) : Nat := value dims digits % wordSize

def size (dims : List Nat) : Nat := dims.foldr (· * ·) 1

/-- The product of the radices with `acc`, formed from the left in machine words; `none` at the first
step that leaves them. -/
def checkedSize : (acc : Nat) → List Nat → Option Nat
  | acc, [] => some acc
  | acc, d :: ds => if acc * d < wordSize then checkedSize (acc * d) ds else none

def strides : List Nat → List Nat
  | [] => []
  | _ :: ds => size ds :: strides ds

def digitAt (dims : List Nat) (k i : Nat) : Nat :=
  i / (strides dims).getD k 1 % dims.getD k 1

end QuantumRegister.MixedRadix
