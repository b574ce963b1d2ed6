import QuantumRegister.Gate.Basic

/-!
Random Clifford gates.
-/

set_option autoImplicit false

namespace QuantumRegister.Gate

open QuantumRegister.Random

variable {R : Type}

def sampleSingle (q : Qudit) : Draw (Gate R) := do
  match ← drawIndex 5 with
  | 0 => return .h q
  | 1 => return .x q
  | 2 => return .y q
  | 3 => return .z q
  | _ => return .s q

/-- A gate on one of the qubits half of the time, otherwise `cx` or `cz` on two different ones. The
partner is drawn before it is known whether it is needed. -/
def sampleClifford (qudits : List Qudit) : Draw (Option (Gate R)) := do
  match ← choose qudits with
  | none => return none
  | some a =>
    match ← choose (qudits.filter (· != a)) with
    | none => return some (← sampleSingle a)
    | some b =>
      if ← drawBit then
        if ← drawBit then return some (.cx a b) else return some (.cz a b)
      else return some (← sampleSingle a)

end QuantumRegister.Gate
