import QuantumRegister.Grid
import QuantumRegister.MixedRadix

/-!
Where the entries of an array lie that belong to one joint value of some axes. A layout separates
the targeted axes, as a list of offsets, from the others, which an odometer runs through; `contract`
multiplies a matrix into the targeted axes.
-/

set_option autoImplicit false

namespace QuantumRegister.Dense

/-- One place of the odometer: its digit, the number of its values, and what a step of it adds to
the flat position. -/
structure Wheel where
  digit : Nat
  dim : Nat
  stride : Nat

/-- One step of the odometer, least significant wheel first; `none` after the last position. A wheel
that is through goes back to zero and takes its share of the position with it. -/
def advance : List Wheel → (base : Nat) → Option (List Wheel × Nat)
  | [], _ => none
  | w :: ws, base =>
    if w.digit + 1 < w.dim then some ({ w with digit := w.digit + 1 } :: ws, base + w.stride)
    else
      match advance ws (base + w.stride - w.dim * w.stride) with
      | none => none
      | some (ws, base) => some ({ w with digit := 0 } :: ws, base)

def remaining : List Wheel → Nat
  | [] => 0
  | w :: ws => (w.dim - 1 - w.digit) + max w.dim 1 * remaining ws

theorem remaining_advance {ws ws' : List Wheel} {base base' : Nat}
    (stepped : advance ws base = some (ws', base')) : remaining ws' < remaining ws := by
  induction ws generalizing ws' base base' with
  | nil => simp [advance] at stepped
  | cons w ws ih =>
    by_cases more : w.digit + 1 < w.dim
    · simp only [advance, if_pos more, Option.some.injEq, Prod.mk.injEq] at stepped
      obtain ⟨rfl, -⟩ := stepped
      simp only [remaining]
      omega
    · simp only [advance, if_neg more] at stepped
      split at stepped
      · cases stepped
      · rename_i rest base'' carried
        simp only [Option.some.injEq, Prod.mk.injEq] at stepped
        obtain ⟨rfl, -⟩ := stepped
        have less := ih carried
        have grown : max w.dim 1 * (remaining rest + 1) ≤ max w.dim 1 * remaining ws :=
          Nat.mul_le_mul_left _ less
        simp only [remaining]
        rw [Nat.mul_add] at grown
        omega

def sweep {β : Type} (visit : β → Nat → β) (acc : β) (ws : List Wheel) (base : Nat) : β :=
  match _stepped : advance ws base with
  | none => visit acc base
  | some next => sweep visit (visit acc base) next.1 next.2
termination_by remaining ws
decreasing_by exact remaining_advance (by assumption)

/-- `rest` holds dimension and stride of each axis that is not targeted, most significant first;
`offsets` the flat distance of each joint value of the targeted ones. -/
structure Layout where
  rest : List (Nat × Nat)
  offsets : List Nat

def offset (strides : List Nat) (axes digits : List Nat) : Nat :=
  ((digits.zip axes).map fun p => p.1 * strides.getD p.2 1).foldr (· + ·) 0

def Layout.of (dims axes : List Nat) : Layout :=
  let strides := MixedRadix.strides dims
  let targets := axes.map fun a => dims.getD a 1
  { rest := ((List.range dims.length).filter fun a => !axes.contains a).map fun a =>
      (dims.getD a 1, strides.getD a 1)
    offsets := (List.range (MixedRadix.size targets)).map fun j =>
      offset strides axes (MixedRadix.digits targets j) }

namespace Layout

def wheels (l : Layout) : List Wheel := (l.rest.map fun p => ⟨0, p.1, p.2⟩).reverse

def forEachBase {β : Type} (l : Layout) (visit : β → Nat → β) (acc : β) : β :=
  if l.rest.any (·.1 == 0) then acc else sweep visit acc l.wheels 0

variable {K : Type} [Zero K] [Add K] [Mul K]

def product (l : Layout) (m : Grid K) (src : Array K) (base r : Nat) : K :=
  l.offsets.zipIdx.foldl (fun acc p => acc + m.getD r p.2 0 * src.getD (base + p.1) 0) 0

def contractBlock (l : Layout) (m : Grid K) (src dst : Array K) (base : Nat) : Array K :=
  l.offsets.zipIdx.foldl (fun dst p => dst.setIfInBounds (base + p.1) (l.product m src base p.2)) dst

def contract (l : Layout) (m : Grid K) (src dst : Array K) : Array K :=
  l.forEachBase (fun dst base => l.contractBlock m src dst base) dst

end Layout

end QuantumRegister.Dense
