import QuantumRegister.Frame
import QuantumRegister.Operation.Basic

/-!
What all representations of a quantum state have in common, and what follows for each of them:
measuring with a record, sampling, and carrying out an operation with its conditions and parts.

A step works on a state together with the random source and the log that the state uses. A step that
fails leaves whatever it did before.
-/

set_option autoImplicit false

namespace QuantumRegister

open QuantumRegister.Random (Source Draw)

/-- A state with the contents of its cells. -/
structure Bench (S : Type) where
  source : Source
  log : Log
  state : S

abbrev Step (R S α : Type) := ExceptT (SimError R) (StateM (Bench S)) α

namespace Step

variable {R S α : Type}

def ofExcept : Except (SimError R) α → Step R S α
  | .ok a => pure a
  | .error e => throw e

def draw (d : Draw α) : Step R S α := do
  let b ← get
  let (a, source) := d b.source
  set { b with source := source }
  return a

def setState (s : S) : Step R S Unit := modify fun b => { b with state := s }

def edit (e : Log.Edit R α) : Step R S α := do
  let b ← get
  let (r, log) := e.run.run b.log
  set { b with log := log }
  ofExcept r

def recordBranch (key : Option String) (index : Nat) : Step R S Unit :=
  match key with
  | some k => modify fun b => { b with log := b.log.recordBranch k index }
  | none => pure ()

end Step

class Representation (R : outParam Type) (S : Type) where
  frame : S → Frame
  setFrame : S → Frame → S
  basisState : List Qudit → (index : Nat) → SourceRef → LogRef → Except (SimError R) S
  routes : List Route
  /-- Carries out a matrix, mixture, channel or list of generators on the qudits of the named
  operation. -/
  enact : (name : String) → List Qudit → Resolution R → Step R S Unit
  /-- The joint state, with the qudits and handles of the first state first. -/
  kronecker : S → S → Except (SimError R) S
  factor : S → List Qudit → (validate : Bool) → (tolerance : R) → Except (SimError R) (S × S)
  allowsFactoring : Bool
  transposed : S → List Qudit → Except (SimError R) S
  /-- The same amplitudes; with `deep` also the scratch space. -/
  duplicate : (deep : Bool) → S → S
  sampler : S → List Qudit → Except (SimError R) (Draw (List Nat))
  observe : List Qudit → Step R S (List Nat)
  reset : List Qudit → Step R S Unit

namespace Representation

variable {R S : Type} [Scalar R] [Representation R S]

def qudits (s : S) : List Qudit := (frame s).qudits

def repeated {α : Type} (d : Draw α) : Nat → Draw (List α)
  | 0 => return []
  | n + 1 => do
    let a ← d
    return a :: (← repeated d n)

def rows (s : S) (qs : List Qudit) (repetitions seed : Nat) : Except (SimError R) (List (List Nat)) :=
  match sampler s qs with
  | .error e => .error e
  | .ok d => .ok (repeated d repetitions (Source.ofSeed seed)).1

def sample (qs : List Qudit) (repetitions : Nat) (seed : Option Nat) : Step R S (List (List Nat)) := do
  let d ← Step.ofExcept (sampler (← get).state qs)
  let seed ← match seed with
    | some n => pure n
    | none => Step.draw Random.drawDouble
  return (repeated d repetitions (Source.ofSeed seed)).1

/-- The raw outcome of a measurement. One that does not collapse samples from a seed drawn for it. -/
def rawOutcome (m : Measurement R) : Step R S (List Nat) := do
  if m.collapses then observe m.qudits
  else
    let seed ← Step.draw Random.drawDouble
    let rows ← Step.ofExcept (rows (← get).state m.qudits 1 seed)
    return rows.headD []

def measure (m : Measurement R) : Step R S (List Nat) := do
  let _ ← Step.ofExcept (Frame.axes (frame (← get).state) m.qudits)
  let raw ← rawOutcome m
  let values ← Step.ofExcept (← Step.draw (m.correct raw))
  Step.edit (Log.recordMeasurement m.key m.qudits values)
  return values

def carry (name : String) (qs : List Qudit) : Option (Resolution R) → Step R S Unit
  | some .skip => return
  | some (.measure m) => do let _ ← measure m
  | some (.reset targets) => reset targets
  | some (.parts _) => throw (.unsupported name)
  | some r => enact name qs r
  | none => throw (.unsupported name)

mutual
/-- Carries out an operation under the name and on the qudits of an outer one. -/
def performAs (name : String) (qs : List Qudit) : Operation R → Step R S Unit
  | ⟨_, _, some (key, inner)⟩ => do
    if (← get).log.conditionHolds key then performAs name qs inner else return
  | ⟨c, some parts, none⟩ =>
    match c.resolve (some parts) (routes S) with
    | some (.parts _) => performAll parts
    | r => carry name qs r
  | ⟨c, none, none⟩ => carry name qs (c.resolve none (routes S))

def performAll : List (Operation R) → Step R S Unit
  | [] => return
  | op :: ops => do
    performAs op.name op.qudits op
    performAll ops
end

def perform (op : Operation R) : Step R S Unit := performAs op.name op.qudits op

def run {α : Type} (step : Step R S α) (s : S) (c : Cells) : Except (SimError R) α × S × Cells :=
  let f := frame s
  let (r, b) := step.run.run ⟨c.source f.source, c.log f.log, s⟩
  (r, b.state, (c.setSource f.source b.source).setLog f.log b.log)

def copy (deep : Bool) (s : S) (c : Cells) : S × Cells :=
  let (f, c) := (frame s).fork deep c
  (setFrame (duplicate deep s) f, c)

end Representation

end QuantumRegister
