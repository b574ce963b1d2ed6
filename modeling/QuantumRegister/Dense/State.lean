import QuantumRegister.Dense.Amplitudes
import QuantumRegister.Dense.Buffers
import QuantumRegister.Representation
import QuantumRegister.Selection

/-!
States held as the full array of their amplitudes, one axis per qudit. Operations are consumed as
matrices, mixtures, Kraus operators, or part by part.
-/

set_option autoImplicit false

namespace QuantumRegister

open QuantumRegister.Dense (Amplitudes Buffers Layout)

structure DenseState (R : Type) where
  frame : Frame
  buffers : Buffers (Cplx R)

namespace DenseState

variable {R : Type} [Scalar R]

def amplitudes (ψ : DenseState R) : Amplitudes R := ψ.buffers.live

def probabilities (ψ : DenseState R) : List R := ψ.amplitudes.probabilities

def normSq (ψ : DenseState R) : R := ψ.amplitudes.normSq

def ofLive (f : Frame) (a : Amplitudes R) : DenseState R := ⟨f, { live := a }⟩

def normTolerance : R := 1e-8

def ofAmplitudes (qs : List Qudit) (shape : List Nat) (a : Amplitudes R) (source : SourceRef) (log : LogRef) :
    Except (SimError R) (DenseState R) :=
  match Frame.of qs source log with
  | .error e => .error e
  | .ok f =>
    if shape ≠ f.dims then .error (.shapeMismatch f.dims shape)
    else
      let normSq := a.normSq
      if normTolerance < Scalar.magnitude (normSq - 1) then .error (.configuration (.notNormalized normSq))
      else .ok (ofLive f a)

def basisState (qs : List Qudit) (index : Nat) (source : SourceRef) (log : LogRef) :
    Except (SimError R) (DenseState R) :=
  match Frame.of qs source log with
  | .error e => .error e
  | .ok f =>
    match MixedRadix.checkedSize 1 f.dims with
    | none => .error (.configuration .spaceTooLarge)
    | some size =>
      if size ≤ index then .error (.configuration (.indexBeyondBasis index size))
      else .ok (ofLive f (Amplitudes.basis size index))

def layout (ψ : DenseState R) (qs : List Qudit) : Except (SimError R) Layout :=
  match ψ.frame.axes qs with
  | .error e => .error e
  | .ok axes => .ok (Layout.of ψ.frame.dims axes)

def setBuffers (ψ : DenseState R) (b : Buffers (Cplx R)) : DenseState R := { ψ with buffers := b }

def applyMatrix (ψ : DenseState R) (qs : List Qudit) (m : Operator R) : Except (SimError R) (DenseState R) :=
  match Operator.checkSquare qs m with
  | .error e => .error e
  | .ok () =>
    match ψ.layout qs with
    | .error e => .error e
    | .ok l => .ok (ψ.setBuffers (ψ.buffers.prepare l m).swap)

def applyMixture (qs : List Qudit) (branches : List (R × Operator R)) (key : Option String) :
    Step R (DenseState R) Unit := do
  Step.ofExcept (Operator.checkAll qs (branches.map Prod.snd))
  let l ← Step.ofExcept ((← get).state.layout qs)
  match Random.Weighted.of (branches.map Prod.fst) with
  | .error fault => throw (.invalidChannel (.undrawable fault))
  | .ok d =>
    let k ← Step.draw d.draw
    let ψ := (← get).state
    let m := (branches.map Prod.snd).getD k (Operator.identity 0)
    Step.setState (ψ.setBuffers (ψ.buffers.prepare l m).swap)
    Step.recordBranch key k

def branchWeight (l : Layout) (ops : List (Operator R)) (b : Buffers (Cplx R)) (k : Nat) :
    R × Buffers (Cplx R) :=
  let b := b.prepare l (ops.getD k (Operator.identity 0))
  (Amplitudes.normSq b.spare, b)

/-- Selects one operator for a draw. If weights were asked for after it, its product is formed once
more; scaled to norm one, it becomes the state. -/
def branchState (l : Layout) (ops : List (Operator R)) (b : Buffers (Cplx R)) (p : R) :
    Selection R × Buffers (Cplx R) :=
  let (sel, b) := Selection.ofDraw p ops.length (branchWeight l ops) b
  (sel, if sel.needsReevaluation then (branchWeight l ops b sel.index).2 else b)

def normalized (b : Buffers (Cplx R)) (weight : R) : Buffers (Cplx R) :=
  let scale := Scalar.reciprocal (Scalar.sqrt weight)
  Buffers.swap { b with spare := b.spare.map fun a => a.scale scale }

def applyChannel (qs : List Qudit) (ops : List (Operator R)) (key : Option String) :
    Step R (DenseState R) Unit := do
  if ops.isEmpty then throw (.invalidChannel .noOperators)
  Step.ofExcept (Operator.checkAll qs ops)
  let l ← Step.ofExcept ((← get).state.layout qs)
  let p : R ← Step.draw Random.drawUnit
  let ψ := (← get).state
  let (sel, b) := branchState l ops ψ.buffers p
  Step.setState (ψ.setBuffers b)
  if sel.weight ≤ 0 then throw (.invalidChannel .branchWithoutWeight)
  Step.setState (ψ.setBuffers (normalized b sel.weight))
  Step.recordBranch key sel.index

def enact (name : String) (qs : List Qudit) : Resolution R → Step R (DenseState R) Unit
  | .unitary m => do Step.setState (← Step.ofExcept ((← get).state.applyMatrix qs m))
  | .mixture branches key => applyMixture qs branches key
  | .channel ops key => applyChannel qs ops key
  | _ => throw (.unsupported name)

def marginal (ψ : DenseState R) (axes : List Nat) : List R :=
  Amplitudes.marginal ψ.frame.dims axes ψ.amplitudes

def collapsed (ψ : DenseState R) (axes : List Nat) (dims : List Nat) (k : Nat) (chance : R) : DenseState R :=
  let live := Amplitudes.project ψ.frame.dims axes (MixedRadix.digits dims k) chance ψ.amplitudes
  ψ.setBuffers { ψ.buffers with live := live }

def observe (qs : List Qudit) : Step R (DenseState R) (List Nat) := do
  let ψ := (← get).state
  let axes ← Step.ofExcept (ψ.frame.axes qs)
  let chances := ψ.marginal axes
  let k ← Step.draw (Dense.drawPick chances)
  Step.setState (ψ.collapsed axes (Qudit.dims qs) k (chances.getD k 0))
  return MixedRadix.digits (Qudit.dims qs) k

def resetOne (q : Qudit) : Step R (DenseState R) Unit := do
  let k := (← observe [q]).headD 0
  if k ≠ 0 then
    Step.setState (← Step.ofExcept ((← get).state.applyMatrix [q] (Operator.exchange q.dim 0 k)))

def reset (qs : List Qudit) : Step R (DenseState R) Unit := do
  let _ ← Step.ofExcept ((← get).state.frame.axes qs)
  qs.forM resetOne

def kronecker (ψ φ : DenseState R) : Except (SimError R) (DenseState R) :=
  match ψ.frame.concat φ.frame with
  | .error e => .error e
  | .ok f => .ok (ofLive f (ψ.amplitudes.kronecker φ.amplitudes))

/-- Factors a state across a cut. Without `validate` the factors of a state that is no product agree
with it only in the row and the column of the heaviest amplitude. -/
def factor (ψ : DenseState R) (qs : List Qudit) (validate : Bool) (tolerance : R) :
    Except (SimError R) (DenseState R × DenseState R) := do
  let axes ← ψ.frame.axes qs
  let restAxes := (List.range ψ.frame.qudits.length).filter fun a => !axes.contains a
  let extFrame ← ψ.frame.withQudits qs
  let remFrame ← ψ.frame.withQudits (restAxes.map fun a => ψ.frame.qudits.getD a default)
  let t := Amplitudes.permute ψ.frame.dims (axes ++ restAxes) ψ.amplitudes
  match Dense.pivot? t.probabilities with
  | none => .error (.notSeparable qs tolerance)
  | some pivot =>
    let (ext, rem) := Dense.splitAt (MixedRadix.size extFrame.dims) (MixedRadix.size remFrame.dims) pivot t
    if validate && decide (tolerance < Dense.distance ext rem t) then .error (.notSeparable qs tolerance)
    else .ok (ofLive extFrame ext, ofLive remFrame rem)

def transposed (ψ : DenseState R) (order : List Qudit) : Except (SimError R) (DenseState R) := do
  let axes ← ψ.frame.permutation order
  let f ← ψ.frame.withQudits order
  return ofLive f (Amplitudes.permute ψ.frame.dims axes ψ.amplitudes)

def sampler (ψ : DenseState R) (qs : List Qudit) : Except (SimError R) (Random.Draw (List Nat)) :=
  match ψ.frame.axes qs with
  | .error e => .error e
  | .ok axes =>
    let chances := ψ.marginal axes
    .ok do return MixedRadix.digits (Qudit.dims qs) (← Dense.drawPick chances)

def duplicate (deep : Bool) (ψ : DenseState R) : DenseState R :=
  if deep then ψ else ofLive ψ.frame ψ.amplitudes

instance : Representation R (DenseState R) where
  frame := frame
  setFrame ψ f := { ψ with frame := f }
  basisState := basisState
  routes := [.unitary, .mixture, .channel, .parts]
  enact := enact
  kronecker := kronecker
  factor := factor
  allowsFactoring := true
  transposed := transposed
  duplicate := duplicate
  sampler := sampler
  observe := observe
  reset := reset

end DenseState

end QuantumRegister
