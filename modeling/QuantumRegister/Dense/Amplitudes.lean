import QuantumRegister.Cplx
import QuantumRegister.Dense.Layout
import QuantumRegister.Random.Source

/-!
Amplitude arrays over the joint basis of some axes: tensor products, reordered axes, factors,
probabilities, and projection after a measurement.
-/

set_option autoImplicit false

namespace QuantumRegister.Dense

variable {R : Type} [Scalar R]

abbrev Amplitudes (R : Type) := Array (Cplx R)

namespace Amplitudes

def basis (size index : Nat) : Amplitudes R :=
  Array.ofFn fun i : Fin size => if i.val = index then 1 else 0

def probabilities (a : Amplitudes R) : List R := a.toList.map Cplx.normSq

def normSq (a : Amplitudes R) : R := Scalar.sum (probabilities a)

def amp (a : Amplitudes R) (i : Nat) : Cplx R := a.getD i 0

def kronecker (a b : Amplitudes R) : Amplitudes R :=
  (a.toList.flatMap fun x => b.toList.map fun y => x * y).toArray

/-- The array whose `k`-th axis is the axis `perm[k]` of the old one. -/
def permute (dims perm : List Nat) (a : Amplitudes R) : Amplitudes R :=
  let strides := MixedRadix.strides dims
  let newDims := perm.map fun k => dims.getD k 1
  Array.ofFn fun i : Fin (MixedRadix.size newDims) =>
    amp a (offset strides perm (MixedRadix.digits newDims i.val))

/-- Entries listed with the first axis running fastest, in row order. -/
def ofColumnMajor (dims : List Nat) (a : Amplitudes R) : Amplitudes R :=
  permute dims.reverse (List.range dims.length).reverse a

def jointValue (dims strides axes : List Nat) (i : Nat) : Nat :=
  axes.foldl (fun acc k => acc * dims.getD k 1 + i / strides.getD k 1 % dims.getD k 1) 0

def marginal (dims axes : List Nat) (a : Amplitudes R) : List R :=
  let strides := MixedRadix.strides dims
  let zeros : Array R := Array.replicate (MixedRadix.size (axes.map fun k => dims.getD k 1)) 0
  let sums := (List.range a.size).foldl (fun (acc : Array R) i =>
    let j := jointValue dims strides axes i
    acc.setIfInBounds j (acc.getD j 0 + (amp a i).normSq)) zeros
  sums.toList

def project (dims axes digits : List Nat) (chance : R) (a : Amplitudes R) : Amplitudes R :=
  let strides := MixedRadix.strides dims
  let scale := Scalar.reciprocal (Scalar.sqrt chance)
  Array.ofFn fun i : Fin a.size =>
    let keep := (axes.zip digits).all fun p => i.val / strides.getD p.1 1 % dims.getD p.1 1 == p.2
    if keep then (amp a i.val).scale scale else Cplx.ofReal 0

end Amplitudes

/-- The index at which the chances first sum to more than `r`. Entries without weight are passed
over; when rounding leaves the draw beyond all of them, the last one with weight is taken. -/
def pickFrom : (index last : Nat) → (r : R) → List R → Nat
  | _, last, _, [] => last
  | k, last, r, p :: ps =>
    if p ≤ 0 then pickFrom (k + 1) last r ps
    else if r < p then k
    else pickFrom (k + 1) k (r - p) ps

def pick (chances : List R) (u : R) : Nat := pickFrom 0 0 (u * Scalar.sum chances) chances

def drawPick (chances : List R) : Random.Draw Nat := do
  return pick chances (← Random.drawUnit)

/-- Whether `y` is at least `x`, where an undefined number is above all others. -/
def reaches (x y : R) : Bool := !Scalar.isDefined y || (Scalar.isDefined x && decide (x ≤ y))

def greatestFrom : (index : Nat) → (best : Nat × R) → List R → Nat × R
  | _, best, [] => best
  | k, best, x :: xs => greatestFrom (k + 1) (if reaches best.2 x then (k, x) else best) xs

def pivot? : List R → Option Nat
  | [] => none
  | x :: xs =>
    let best := greatestFrom 1 (0, x) xs
    if 0 < best.2 then some best.1 else none

/-- Splits a product array into its factors over the first `d₁` rows and `d₂` columns, along the row
and the column of the heaviest entry. The phase of that entry stays with the first factor. -/
def splitAt (d₁ d₂ pivot : Nat) (t : Amplitudes R) : Amplitudes R × Amplitudes R :=
  let row := pivot / d₂
  let col := pivot % d₂
  let ext := (List.range d₁).map fun i => Amplitudes.amp t (i * d₂ + col)
  let rem := (List.range d₂).map fun j => Amplitudes.amp t (row * d₂ + j)
  let extNorm := Scalar.sqrt (Scalar.sum (ext.map Cplx.normSq))
  let remNorm := Scalar.sqrt (Scalar.sum (rem.map Cplx.normSq))
  let heaviest : Cplx R := Amplitudes.amp t pivot
  let phase : Cplx R := heaviest.unscale heaviest.norm
  ((ext.map fun a => a.unscale extNorm).toArray, (rem.map fun a => a / phase.scale remNorm).toArray)

def distance (ext rem t : Amplitudes R) : R :=
  (((Amplitudes.kronecker ext rem).toList.zip t.toList).map fun p => (p.1 - p.2).norm).foldl Scalar.larger 0

end QuantumRegister.Dense
