import QuantumRegister.MixedRadix

/-!
Qudits: the addressable units of a register. Two labels name the same qudit only if index and
dimension agree.
-/

set_option autoImplicit false

namespace QuantumRegister

structure Qudit where
  index : Nat
  dim : Nat
deriving DecidableEq, Inhabited

namespace Qudit

def qubit (index : Nat) : Qudit := ⟨index, 2⟩

def text (q : Qudit) : String :=
  if q.dim = 2 then "q" ++ toString q.index
  else "q" ++ toString q.index ++ "(d=" ++ toString q.dim ++ ")"

def fields (q : Qudit) : String :=
  "Qid \x7b index: " ++ toString q.index ++ ", dim: " ++ toString q.dim ++ " \x7d"

def precedes (a b : Qudit) : Bool :=
  a.index < b.index || (a.index == b.index && a.dim ≤ b.dim)

def sort (qs : List Qudit) : List Qudit := qs.mergeSort precedes

def dims (qs : List Qudit) : List Nat := qs.map dim

/-- Size of the joint basis, as a machine word. -/
def jointDim (qs : List Qudit) : Nat := MixedRadix.size (dims qs) % MixedRadix.wordSize

def texts (qs : List Qudit) : String := ", ".intercalate (qs.map text)

def repeatedAfter : (seen : List Qudit) → List Qudit → Option Qudit
  | _, [] => none
  | seen, q :: qs => if seen.contains q then some q else repeatedAfter (q :: seen) qs

def firstRepeated (qs : List Qudit) : Option Qudit := repeatedAfter [] qs

def distinctAfter : (seen : List Qudit) → List Qudit → List Qudit
  | _, [] => []
  | seen, q :: qs => if seen.contains q then distinctAfter seen qs else q :: distinctAfter (q :: seen) qs

def distinct (qs : List Qudit) : List Qudit := distinctAfter [] qs

end Qudit

end QuantumRegister
