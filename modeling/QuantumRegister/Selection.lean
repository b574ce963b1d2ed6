import QuantumRegister.Scalar

/-!
Choosing a branch by its weight. Weights are asked for in order, until their running sum exceeds the
draw. Rounding may leave the sum of all weights short of the draw; the heaviest branch seen so far
then stands in.
-/

set_option autoImplicit false

namespace QuantumRegister

inductive Fallback where
  /-- The draw lay beyond all weights. -/
  | exhausted
  /-- The draw stopped at a branch without weight. -/
  | zeroWeight
deriving DecidableEq

structure Selection (R : Type) where
  index : Nat
  weight : R
  lastEvaluated : Nat
  fallback : Option Fallback

namespace Selection

variable {R σ : Type} [Scalar R]

def needsReevaluation (s : Selection R) : Bool := s.index != s.lastEvaluated

structure Search (R : Type) where
  bestIndex : Nat
  bestWeight : R
  index : Nat
  weight : R
  rest : R

def Search.start (p : R) : Search R := ⟨0, 0, 0, 0, p⟩

def Search.step (s : Search R) (k : Nat) (w : R) : Search R :=
  let best := decide (s.bestWeight < w)
  ⟨if best then k else s.bestIndex, if best then w else s.bestWeight, k, w, s.rest - w⟩

def Search.run (weightOf : σ → Nat → R × σ) : List Nat → Search R → σ → Search R × σ
  | [], s, st => (s, st)
  | k :: ks, s, st =>
    let (w, st) := weightOf st k
    let s := s.step k w
    if s.rest < 0 then (s, st) else run weightOf ks s st

def Search.fallback (s : Search R) : Option Fallback :=
  if 0 ≤ s.rest then some .exhausted
  else if Scalar.isZero s.weight then some .zeroWeight
  else none

def Search.result (s : Search R) : Selection R :=
  match s.fallback with
  | some reason => ⟨s.bestIndex, s.bestWeight, s.index, some reason⟩
  | none => ⟨s.index, s.weight, s.index, none⟩

def ofDraw (p : R) (n : Nat) (weightOf : σ → Nat → R × σ) (st : σ) : Selection R × σ :=
  let (s, st) := Search.run weightOf (List.range n) (.start p) st
  (s.result, st)

def ofDraw? (p : R) (n : Nat) (weightOf : σ → Nat → R × σ) (st : σ) : Option (Selection R × σ) :=
  if n = 0 then none else some (ofDraw p n weightOf st)

end Selection

end QuantumRegister
