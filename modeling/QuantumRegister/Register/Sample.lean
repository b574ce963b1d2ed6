import QuantumRegister.Register.Run

/-!
Sampling a register without disturbing it: every state samples its own qudits, from a seed that a
common source gives it.
-/

set_option autoImplicit false

namespace QuantumRegister.Register

open QuantumRegister.Random (Draw Source)

variable {R S : Type} [Scalar R] [Representation R S]

/-- The qudits with one owner form a group. A qudit is found at the number of its group and its column
there. -/
structure Columns where
  groups : List (Nat × List Qudit) := []
  columnOf : List (Qudit × Nat × Nat) := []

def Columns.add (h : Nat) (q : Qudit) (a : Columns) : Columns :=
  let g := a.groups.findIdx (·.1 == h)
  let groups := if g < a.groups.length then a.groups else a.groups ++ [(h, [])]
  { groups := groups.modify g fun e => (e.1, e.2 ++ [q])
    columnOf := Assoc.insert q (g, (groups.getD g (h, [])).2.length) a.columnOf }

def grouped (r : Register R S) : List Qudit → Columns → Except (SimError R) Columns
  | [], a => .ok a
  | q :: qs, a => do r.grouped qs (a.add (← r.owner q) q)

def groupRows (r : Register R S) (repetitions : Nat) :
    List (Nat × List Qudit) → Source → Except (SimError R) (List (List (List Nat)))
  | [], _ => .ok []
  | (h, qs) :: rest, common => do
    let (seed, common) := Random.drawDouble common
    let rows ← Representation.rows (← r.state h) qs repetitions seed
    return rows :: (← r.groupRows repetitions rest common)

def rows (r : Register R S) (qs : List Qudit) (repetitions seed : Nat) :
    Except (SimError R) (List (List Nat)) := do
  let a ← r.grouped (Qudit.distinct qs) {}
  let samples ← r.groupRows repetitions a.groups (Source.ofSeed seed)
  return (List.range repetitions).map fun i => qs.map fun q =>
    let (g, k) := (Assoc.find? q a.columnOf).getD (0, 0)
    ((samples.getD g []).getD i []).getD k 0

def sample (qs : List Qudit) (repetitions : Nat) (seed : Option Nat) : Act R S (List (List Nat)) := fun w =>
  let (seed, cells) := match seed with
    | some n => (n, w.cells)
    | none => w.cells.draw w.register.source Random.drawDouble
  (w.register.rows qs repetitions seed, { w with cells := cells })

end QuantumRegister.Register
