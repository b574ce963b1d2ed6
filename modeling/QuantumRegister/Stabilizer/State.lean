import QuantumRegister.Representation
import QuantumRegister.Stabilizer.Readout

/-!
Stabilizer states of named qubits. Operations are consumed as generators, or part by part. Such
states are never factored.
-/

set_option autoImplicit false

namespace QuantumRegister

structure StabilizerState (R : Type) where
  frame : Frame
  form : Form R

namespace StabilizerState

variable {R : Type} [Scalar R]

def checkQubits (qs : List Qudit) : Except (SimError R) Unit :=
  if qs.any (·.dim != 2) then .error (.shapeMismatch (qs.map fun _ => 2) (Qudit.dims qs)) else .ok ()

def basisState (qs : List Qudit) (index : Nat) (source : SourceRef) (log : LogRef) :
    Except (SimError R) (StabilizerState R) := do
  checkQubits qs
  let f ← Frame.of qs source log
  let n := f.qudits.length
  if n < 64 ∧ index >>> n ≠ 0 then .error (.configuration (.indexBeyondQudits index n))
  else .ok ⟨f, Form.basis n index⟩

def axisPair (f : Frame) (a b : Qudit) : Except (SimError R) (Nat × Nat) :=
  if a = b then .error (.repeatedQudit a) else do return (← f.axis a, ← f.axis b)

def onAxes (f : Frame) : Generator Qudit → Except (SimError R) (Generator Nat)
  | .h q => (f.axis q).map .h
  | .s q => (f.axis q).map .s
  | .x q => (f.axis q).map .x
  | .y q => (f.axis q).map .y
  | .z q => (f.axis q).map .z
  | .cx a b => (axisPair f a b).map fun p => .cx p.1 p.2
  | .cz a b => (axisPair f a b).map fun p => .cz p.1 p.2

/-- All generators are resolved before the first one acts. -/
def allOnAxes (f : Frame) : List (Generator Qudit) → Except (SimError R) (List (Generator Nat))
  | [] => .ok []
  | k :: ks => do return (← onAxes f k) :: (← allOnAxes f ks)

def setForm (φ : StabilizerState R) (c : Form R) : StabilizerState R := { φ with form := c }

def applyAll (φ : StabilizerState R) (ks : List (Generator Nat)) : StabilizerState R :=
  φ.setForm (ks.foldl Form.apply φ.form)

def enact (name : String) (qs : List Qudit) : Resolution R → Step R (StabilizerState R) Unit
  | .stabilizer gates => do
    Step.ofExcept (checkQubits qs)
    let φ := (← get).state
    let ks ← Step.ofExcept (allOnAxes φ.frame gates)
    Step.setState (φ.applyAll ks)
  | _ => throw (.unsupported name)

def observe (qs : List Qudit) : Step R (StabilizerState R) (List Nat) := do
  let φ := (← get).state
  let axes ← Step.ofExcept (φ.frame.axes qs)
  let (bits, c) ← Step.draw (φ.form.measureAll axes)
  Step.setState (φ.setForm c)
  return bits.map Bool.toNat

def reset (qs : List Qudit) : Step R (StabilizerState R) Unit := do
  let φ := (← get).state
  let axes ← Step.ofExcept (φ.frame.axes qs)
  let c ← Step.draw (φ.form.resetAll axes)
  Step.setState (φ.setForm c)

def kronecker (φ χ : StabilizerState R) : Except (SimError R) (StabilizerState R) :=
  match φ.frame.concat χ.frame with
  | .error e => .error e
  | .ok f => .ok ⟨f, φ.form.kron χ.form⟩

def factor (_ : StabilizerState R) (qs : List Qudit) (_validate : Bool) (_tolerance : R) :
    Except (SimError R) (StabilizerState R × StabilizerState R) :=
  .error (.unsupported ("factoring a CH-form state on [" ++ Qudit.texts qs ++ "]"))

def transposed (φ : StabilizerState R) (order : List Qudit) : Except (SimError R) (StabilizerState R) := do
  let axes ← φ.frame.permutation order
  let f ← φ.frame.withQudits order
  return ⟨f, φ.form.reindex axes⟩

def sampler (φ : StabilizerState R) (qs : List Qudit) : Except (SimError R) (Random.Draw (List Nat)) :=
  match φ.frame.axes qs with
  | .error e => .error e
  | .ok axes => .ok do return (← φ.form.measureAll axes).1.map Bool.toNat

instance : Representation R (StabilizerState R) where
  frame := frame
  setFrame φ f := { φ with frame := f }
  basisState := basisState
  routes := [.stabilizer, .parts]
  enact := enact
  kronecker := kronecker
  factor := factor
  allowsFactoring := false
  transposed := transposed
  duplicate _ φ := φ
  sampler := sampler
  observe := observe
  reset := reset

end StabilizerState

end QuantumRegister
