import QuantumRegister.Register.Merge

/-!
Operations on a register. The states that an operation touches are united first. Qudits that it has
measured or reset are then split off, where states can be factored and the register splits.
-/

set_option autoImplicit false

namespace QuantumRegister

structure Workspace (R S : Type) where
  register : Register R S
  cells : Cells

/-- Work on a register that may fail; what was done before a failure stays done. -/
abbrev Act (R S α : Type) := ExceptT (SimError R) (StateM (Workspace R S)) α

def Operation.collapses {R : Type} (op : Operation R) : Bool :=
  op.isReset || op.measurement.any Measurement.collapses

namespace Register

variable {R S : Type} [Scalar R] [Representation R S]

/-- A change of the partition that is made as a whole or not at all. -/
def change {α : Type} (f : Register R S → Except (SimError R) (α × Register R S)) : Act R S α := fun w =>
  match f w.register with
  | .ok (a, r) => (.ok a, { w with register := r })
  | .error e => (.error e, w)

/-- Runs a step on the state behind a handle. The state is kept also when the step fails. -/
def runOn {α : Type} (h : Nat) (step : Step R S α) : Act R S α := fun w =>
  match w.register.slots.get? h with
  | none => (.error (.dangling h), w)
  | some s =>
    let (a, s, cells) := Representation.run step s w.cells
    (a, ⟨{ w.register with slots := w.register.slots.put h s }, cells⟩)

def separate (qs : List Qudit) : Act R S Unit := fun w =>
  if w.register.split && Representation.allowsFactoring S then
    let (a, r) := w.register.splitAll qs
    (a, { w with register := r })
  else (.ok (), w)

def checkTargets (r : Register R S) (qs : List Qudit) : Except (SimError R) Unit := do
  let _ ← r.ownersOf qs
  match Qudit.firstRepeated qs with
  | some q => .error (.repeatedQudit q)
  | none => .ok ()

def applyMerged (op : Operation R) : Act R S Unit := do
  let h ← change (·.merge op.qudits)
  runOn h (Representation.perform op)
  if op.collapses then separate op.qudits

def apply (op : Operation R) : Act R S Unit :=
  if op.isIdentity then return
  else do
    change fun r => do
      r.checkTargets op.qudits
      return ((), r)
    match op.isSwap, op.qudits with
    | true, [a, b] => change fun r => do return ((), ← r.exchange a b)
    | _, _ => applyMerged op

def applyAll : List (Operation R) → Act R S Unit
  | [] => return
  | op :: ops => do
    apply op
    applyAll ops

end Register

end QuantumRegister
