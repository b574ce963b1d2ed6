import QuantumRegister.Assoc
import QuantumRegister.Cells

/-!
What every representation of a state carries beside its amplitudes: which qudit owns which axis, and
the handles of its random source and its log.
-/

set_option autoImplicit false

namespace QuantumRegister

/-- `axisOf` is the inverse of the list of qudits. -/
structure Frame where
  qudits : List Qudit
  axisOf : List (Qudit × Nat)
  source : SourceRef
  log : LogRef
deriving DecidableEq

namespace Frame

variable {R : Type}

/-- Each qudit with its place; a qudit listed twice keeps the later one. -/
def placesFrom : (next : Nat) → List Qudit → List (Qudit × Nat) → List (Qudit × Nat)
  | _, [], m => m
  | k, q :: qs, m => placesFrom (k + 1) qs (Assoc.insert q k m)

def of (qudits : List Qudit) (source : SourceRef) (log : LogRef) : Except (SimError R) Frame :=
  let m := placesFrom 0 qudits []
  if m.length ≠ qudits.length then .error (.configuration .duplicateQudits)
  else .ok ⟨qudits, m, source, log⟩

def withQudits (f : Frame) (qudits : List Qudit) : Except (SimError R) Frame := of qudits f.source f.log

def axis (f : Frame) (q : Qudit) : Except (SimError R) Nat :=
  match Assoc.find? q f.axisOf with
  | some k => .ok k
  | none => .error (.quditNotFound q)

def axesAfter (f : Frame) : (taken : List Nat) → List Qudit → Except (SimError R) (List Nat)
  | _, [] => .ok []
  | taken, q :: qs =>
    match f.axis q with
    | .error e => .error e
    | .ok a =>
      if taken.contains a then .error (.repeatedQudit q)
      else (f.axesAfter (a :: taken) qs).map (a :: ·)

def axes (f : Frame) (qudits : List Qudit) : Except (SimError R) (List Nat) := f.axesAfter [] qudits

def dims (f : Frame) : List Nat := Qudit.dims f.qudits

def permutation (f : Frame) (order : List Qudit) : Except (SimError R) (List Nat) :=
  if order.length ≠ f.qudits.length then .error (.shapeMismatch [f.qudits.length] [order.length])
  else f.axes order

def concat (f g : Frame) : Except (SimError R) Frame := f.withQudits (f.qudits ++ g.qudits)

def rename (f : Frame) (old new : Qudit) : Except (SimError R) Frame :=
  if old = new then .ok f
  else if (Assoc.find? new f.axisOf).isSome then .error (.configuration (.alreadyOwned new))
  else
    match Assoc.find? old f.axisOf with
    | none => .error (.quditNotFound old)
    | some k =>
      .ok { f with qudits := f.qudits.set k new, axisOf := Assoc.insert new k (Assoc.erase old f.axisOf) }

def swapLabels (f : Frame) (a b : Qudit) : Except (SimError R) Frame :=
  match f.axis a with
  | .error e => .error e
  | .ok j =>
    match f.axis b with
    | .error e => .error e
    | .ok k =>
      .ok { f with qudits := (f.qudits.set j b).set k a,
                   axisOf := Assoc.insert b j (Assoc.insert a k f.axisOf) }

def rewired (f : Frame) (source : SourceRef) (log : LogRef) : Frame := { f with source, log }

/-- The frame of a copied state. It has a log of its own, and with `deep` a source of its own. -/
def fork (f : Frame) (deep : Bool) (c : Cells) : Frame × Cells :=
  let (source, c) := if deep then c.newSource (c.source f.source) else (f.source, c)
  let (log, c) := c.newLog (c.log f.log)
  (f.rewired source log, c)

end Frame

end QuantumRegister
