/-!
Finite maps as lists of pairs.
-/

set_option autoImplicit false

namespace QuantumRegister.Assoc

variable {κ ν : Type} [DecidableEq κ]

def find? (k : κ) : List (κ × ν) → Option ν
  | [] => none
  | (k', v) :: rest => if k' = k then some v else find? k rest

def insert (k : κ) (v : ν) : List (κ × ν) → List (κ × ν)
  | [] => [(k, v)]
  | (k', v') :: rest => if k' = k then (k, v) :: rest else (k', v') :: insert k v rest

def erase (k : κ) (m : List (κ × ν)) : List (κ × ν) := m.filter fun e => e.1 ≠ k

def push {α : Type} (k : κ) (a : α) (m : List (κ × List α)) : List (κ × List α) :=
  insert k ((find? k m).getD [] ++ [a]) m

/-- Whether two lists stand for the same map. -/
def same [DecidableEq ν] (m m' : List (κ × ν)) : Bool := (m ++ m').all fun e => find? e.1 m = find? e.1 m'

end QuantumRegister.Assoc
