import QuantumRegister.Decimal.Notation
import QuantumRegister.Scalar

/-!
Double-precision floats as scalars.
-/

set_option autoImplicit false

namespace QuantumRegister.Double

/-- Length of `(x, y)` with `0 ≤ y ≤ x`: the square root of the rounded sum of squares, corrected
by the residual that rounding left. -/
def hypotOrdered (x y : Float) : Float :=
  let h := (x * x + y * y).sqrt
  let residual :=
    if h ≤ 2.0 * y then
      let d := h - y
      x * (2.0 * d - x) + (d - 2.0 * (x - y)) * d
    else
      let d := h - x
      2.0 * d * (x - 2.0 * y) + ((4.0 * d - y) * y + d * d)
  h - residual / (2.0 * h)

/-- Scaled by a power of two where the squares would leave the range of doubles. A coordinate too
small to matter is only added. -/
def hypot (x y : Float) : Float :=
  let x := x.abs
  let y := y.abs
  if x.isInf || y.isInf then 1.0 / 0.0
  else if x.isNaN || y.isNaN then x + y
  else
    let big := if x < y then y else x
    let small := if x < y then x else y
    if small ≤ big * Float.ofScientific 1 true 17 then big + small
    else if big > Float.scaleB 1.0 511 then Float.scaleB (hypotOrdered (big.scaleB (-600)) (small.scaleB (-600))) 600
    else if small < Float.scaleB 1.0 (-459) then
      Float.scaleB (hypotOrdered (big.scaleB 600) (small.scaleB 600)) (-600)
    else hypotOrdered big small

def dyadic (m e : Nat) : Float := Float.scaleB (Float.ofNat m) (-(e : Int))

def below (x : Float) : Float := Float.ofBits (x.toBits - 1)

def parts (x : Float) : Decimal.Parts := .ofBits x.toBits.toNat

instance : Scalar Float where
  decLT := inferInstance
  decLE := inferInstance
  zero := 0.0
  one := 1.0
  sqrt := Float.sqrt
  sin := Float.sin
  cos := Float.cos
  hypot := hypot
  dyadic := dyadic
  invSqrtTwo := 0.707106781186547524400844362104849039
  invSqrtTwoPow k := Float.pow 2.0 (-(Float.ofNat k) / 2.0)
  eighthTurn := 0.785398163397448309615660845819875721
  below := below
  plain x := (parts x).plain
  scientific x := (parts x).scientific

end QuantumRegister.Double
