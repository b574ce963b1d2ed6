/-!
The real arithmetic the simulator is written over. Running programs use double-precision floats,
statements about exact arithmetic use a field of real numbers; every definition above this module
is the same for both.
-/

set_option autoImplicit false

namespace QuantumRegister

/-- Numbers with the operations a simulated state needs. Comparisons may be partial: an undefined
result of arithmetic compares false with everything. -/
class Scalar (R : Type) extends Add R, Sub R, Mul R, Div R, Neg R, Zero R, One R, OfScientific R,
    LT R, LE R where
  decLT : DecidableLT R
  decLE : DecidableLE R
  sqrt : R → R
  sin : R → R
  cos : R → R
  hypot : R → R → R
  /-- A natural number divided by a power of two: `dyadic m e = m / 2 ^ e`. -/
  dyadic : (numerator exponent : Nat) → R
  invSqrtTwo : R
  invSqrtTwoPow : Nat → R
  eighthTurn : R
  /-- The next number below, where the numbers are discrete. -/
  below : R → R
  plain : R → String
  scientific : R → String

namespace Scalar

variable {R : Type} [Scalar R]

instance : DecidableLT R := decLT
instance : DecidableLE R := decLE

def magnitude (x : R) : R := if x < 0 then -x else x

/-- Only a finite number leaves nothing when it is subtracted from itself. -/
def isFinite (x : R) : Bool := decide (x - x ≤ 0)

/-- An undefined number does not compare with itself. -/
def isDefined (x : R) : Bool := decide (x ≤ x)

def isZero (x : R) : Bool := decide (x ≤ 0) && decide (0 ≤ x)

/-- The larger number; an undefined second argument is passed over. -/
def larger (x y : R) : R := if x < y then y else x

def sum (xs : List R) : R := xs.foldl (· + ·) 0

def reciprocal (x : R) : R := 1 / x

def sign (negative : Bool) : R := if negative then -1 else 1

end Scalar

end QuantumRegister
