/-!
Rectangular tables, stored row by row.
-/

set_option autoImplicit false

namespace QuantumRegister

structure Grid (α : Type) where
  rows : Nat
  cols : Nat
  cells : Array α
deriving DecidableEq

namespace Grid

variable {α β : Type}

def tabulate (rows cols : Nat) (f : Nat → Nat → α) : Grid α :=
  ⟨rows, cols, Array.ofFn fun k : Fin (rows * cols) => f (k.val / cols) (k.val % cols)⟩

def getD (g : Grid α) (i j : Nat) (d : α) : α := g.cells.getD (i * g.cols + j) d

/-- The width is that of the first row. -/
def ofRows (rows : List (List α)) : Grid α :=
  ⟨rows.length, (rows.headD []).length, rows.flatten.toArray⟩

def row (g : Grid α) (i : Nat) (d : α) : List α := (List.range g.cols).map fun j => g.getD i j d

def toRows (g : Grid α) (d : α) : List (List α) := (List.range g.rows).map fun i => g.row i d

def map (f : α → β) (g : Grid α) : Grid β := ⟨g.rows, g.cols, g.cells.map f⟩

end Grid

end QuantumRegister
