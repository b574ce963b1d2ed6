/-!
The fewest decimal digits that identify a binary number. A number `m · 2^e` owns an interval of
reals that round to it; `shortest` finds the coarsest decimal grid with a point in that interval,
and takes the point nearest to the number.
-/

set_option autoImplicit false

namespace QuantumRegister.Decimal

/-- `significand · 10^exponent`. -/
structure Digits where
  significand : Nat
  exponent : Int
deriving DecidableEq

/-- A positive binary number with its rounding interval, all in units of `2^exponent`. -/
structure Interval where
  low : Nat
  mid : Nat
  high : Nat
  exponent : Int
  closed : Bool

/-- A significand is even when both ends of its interval round to it. Below the least significand
of a binade the neighbours are half as far apart. -/
def Interval.ofBinary (significand : Nat) (exponent : Int) (narrow : Bool) : Interval where
  low := 4 * significand - (if narrow then 1 else 2)
  mid := 4 * significand
  high := 4 * significand + 2
  exponent := exponent - 2
  closed := significand % 2 == 0

/-- Weights `(a, b)` with `c · 10^p ⋚ x · 2^q ↔ c · a ⋚ x · b`. -/
def weights (p q : Int) : Nat × Nat :=
  (Nat.pow 10 p.toNat * Nat.pow 2 (-q).toNat, Nat.pow 2 q.toNat * Nat.pow 10 (-p).toNat)

/-- Number of decimal places before the point, or minus the number of zeros after it. -/
def Interval.magnitude (v : Interval) : Int :=
  let shift : Nat := 1100
  let scaled := v.mid * Nat.pow 2 v.exponent.toNat * Nat.pow 10 shift / Nat.pow 2 (-v.exponent).toNat
  (Nat.toDigits 10 scaled).length - (shift : Int)

def Interval.holds (v : Interval) (a b c : Nat) : Bool :=
  if v.closed then v.low * b ≤ c * a && c * a ≤ v.high * b
  else v.low * b < c * a && c * a < v.high * b

/-- The point of the grid `10^p` in the interval that is nearest to the number; of two equally
near ones, the upper. -/
def Interval.point? (v : Interval) (p : Int) : Option Nat :=
  let (a, b) := weights p v.exponent
  let below := v.mid * b / a
  match v.holds a b below, v.holds a b (below + 1) with
  | true, true => if v.mid * b - below * a < (below + 1) * a - v.mid * b then some below else some (below + 1)
  | true, false => some below
  | false, true => some (below + 1)
  | false, false => none

/-- The first grid with a point in the interval, from the coarsest on. -/
def Interval.search (v : Interval) (magnitude : Int) : (digits : Nat) → (more : Nat) → Digits
  | _, 0 => ⟨v.mid, 0⟩
  | digits, more + 1 =>
    let p := magnitude - digits
    match v.point? p with
    | some c => ⟨c, p⟩
    | none => search v magnitude (digits + 1) more

def Digits.trim : (fuel : Nat) → Digits → Digits
  | 0, d => d
  | fuel + 1, d =>
    if d.significand % 10 = 0 ∧ d.significand ≠ 0 then trim fuel ⟨d.significand / 10, d.exponent + 1⟩ else d

/-- Seventeen digits always suffice for 53 bits. -/
def shortest (v : Interval) : Digits := (v.search v.magnitude 1 17).trim 17

end QuantumRegister.Decimal
