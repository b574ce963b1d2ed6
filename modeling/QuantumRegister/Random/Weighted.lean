import QuantumRegister.Random.Source

/-!
Drawing an index with given weights.
-/

set_option autoImplicit false

namespace QuantumRegister.Random

inductive WeightFault where
  | noWeights
  | invalid
  | allZero
  | unbounded
deriving DecidableEq

def WeightFault.message : WeightFault → String
  | .noWeights => "No weights provided in distribution"
  | .invalid => "A weight is invalid in distribution"
  | .allZero => "All weights are zero in distribution"
  | .unbounded => "The weights have no finite sum"

/-- The weights summed so far at each boundary between two of them, and their total. -/
structure Weighted (R : Type) where
  boundaries : List R
  total : R

variable {R : Type} [Scalar R]

def boundaries (acc : R) : List R → List R × R
  | [] => ([], acc)
  | w :: ws =>
    let (bs, total) := boundaries (acc + w) ws
    (acc :: bs, total)

def Weighted.of : List R → Except WeightFault (Weighted R)
  | [] => .error .noWeights
  | w :: ws =>
    if (w :: ws).any (fun x => !decide (0 ≤ x)) then .error .invalid
    else
      let (bs, total) := Random.boundaries w ws
      if Scalar.isZero total then .error .allZero
      else if !Scalar.isFinite total then .error .unbounded
      else .ok ⟨bs, total⟩

/-- The factor of the unit draw: the total, lowered to its neighbour if the greatest draw would
reach the total itself. -/
def Weighted.span (d : Weighted R) : R :=
  if d.total ≤ d.total * Scalar.dyadic (Nat.pow 2 52 - 1) 52 then Scalar.below d.total else d.total

def Weighted.indexAt (d : Weighted R) (c : R) : Nat := (d.boundaries.takeWhile (· ≤ c)).length

def Weighted.draw (d : Weighted R) : Draw Nat := do
  let u : R := Scalar.dyadic ((← drawDouble) / Nat.pow 2 12) 52
  return d.indexAt (u * d.span + 0)

end QuantumRegister.Random
