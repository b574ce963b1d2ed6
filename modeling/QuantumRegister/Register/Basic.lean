import QuantumRegister.Register.Slots
import QuantumRegister.Representation
import QuantumRegister.Settings

/-!
A register of qudits held as independent states: each group of qudits that may be entangled has a
state of its own, and every qudit is owned by exactly one of them. All states of a register draw from
one source and write to one log.
-/

set_option autoImplicit false

namespace QuantumRegister

/-- `home` is the handle of the state for operations without qudits: the only state of a register
that does not split, otherwise a state that owns nothing. -/
structure Register (R S : Type) where
  slots : Slots S
  owners : List (Qudit × Nat)
  home : Nat
  qudits : List Qudit
  split : Bool
  tolerance : R
  source : SourceRef
  log : LogRef

namespace Register

open QuantumRegister.Representation (basisState frame setFrame)

variable {R S : Type} [Representation R S]

def owner (r : Register R S) (q : Qudit) : Except (SimError R) Nat :=
  match Assoc.find? q r.owners with
  | some h => .ok h
  | none => .error (.quditNotFound q)

def state (r : Register R S) (h : Nat) : Except (SimError R) S :=
  match r.slots.get? h with
  | some s => .ok s
  | none => .error (.dangling h)

def ownersOf (r : Register R S) (qs : List Qudit) : Except (SimError R) (List Nat) := do
  return List.eraseDups (← qs.mapM r.owner)

def assign (r : Register R S) (qs : List Qudit) (h : Nat) : Register R S :=
  { r with owners := qs.foldl (fun owners q => Assoc.insert q h owners) r.owners }

/-! Queries. -/

def stateOf (r : Register R S) (q : Qudit) : Except (SimError R) S := do r.state (← r.owner q)

def sameState (r : Register R S) (a b : Qudit) : Except (SimError R) Bool := do
  return (← r.owner a) == (← r.owner b)

def states (r : Register R S) : List S := r.slots.live

def groups [Scalar R] (r : Register R S) : List (List Qudit) := r.states.map Representation.qudits

def numStates [Scalar R] (r : Register R S) : Nat := (r.groups.filter (!·.isEmpty)).length

/-! Creation. -/

def singles (source : SourceRef) (log : LogRef) : List (Qudit × Nat) → Except (SimError R) (List S)
  | [] => .ok []
  | (q, d) :: rest => do
    let s ← basisState [q] d source log
    return s :: (← singles source log rest)

def initialStates (s : Settings R) (qs : List Qudit) (source : SourceRef) (log : LogRef) :
    Except (SimError R) (List S) :=
  if s.split then do
    let states ← singles source log (qs.zip (MixedRadix.digits (Qudit.dims qs) s.initial))
    return states ++ [← basisState [] 0 source log]
  else do return [← basisState qs s.initial source log]

def new [Scalar R] (s : Settings R) (c : Cells) : Except (SimError R) (Register R S × Cells) := do
  let qs ← s.validate
  let (source, c) := c.newSource (Random.Source.ofSeed s.seed)
  let (log, c) := c.newLog Log.empty
  let states ← initialStates s qs source log
  let r : Register R S :=
    { slots := Slots.ofList states
      owners := if s.split then qs.zip (List.range qs.length) else qs.map (·, 0)
      home := if s.split then qs.length else 0
      qudits := qs
      split := s.split
      tolerance := s.tolerance
      source := source
      log := log }
  return (r, c)

/-- A copied state takes the source and the log of the copied register in place of those forked for it. -/
def copyState (deep : Bool) (source : SourceRef) (log : LogRef) (s : S) : StateM Cells S := fun c =>
  let (s, c) := Representation.copy deep s c
  (setFrame s ((frame s).rewired source log), c)

def copy (deep : Bool) (r : Register R S) (c : Cells) : Register R S × Cells :=
  let (source, c) := if deep then c.newSource (c.source r.source) else (r.source, c)
  let (log, c) := c.newLog (c.log r.log)
  let (slots, c) := r.slots.mapWith (copyState deep source log) c
  ({ r with slots := slots, source := source, log := log }, c)

end Register

end QuantumRegister
