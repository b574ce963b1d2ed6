/-!
An arena of values addressed by handles. A released handle is given out again before a new one is
made, the last released first.
-/

set_option autoImplicit false

namespace QuantumRegister

structure Slots (S : Type) where
  cells : List (Option S) := []
  free : List Nat := []

namespace Slots

variable {S T : Type}

def get? (a : Slots S) (h : Nat) : Option S := a.cells[h]?.join

def put (a : Slots S) (h : Nat) (s : S) : Slots S := { a with cells := a.cells.set h (some s) }

def alloc (a : Slots S) (s : S) : Nat × Slots S :=
  match a.free with
  | h :: free => (h, ⟨a.cells.set h (some s), free⟩)
  | [] => (a.cells.length, { a with cells := a.cells ++ [some s] })

def release (a : Slots S) (h : Nat) : Slots S := ⟨a.cells.set h none, h :: a.free⟩

def live (a : Slots S) : List S := a.cells.filterMap id

def map (f : S → T) (a : Slots S) : Slots T := ⟨a.cells.map (Option.map f), a.free⟩

def mapWith {σ : Type} (f : S → StateM σ T) (a : Slots S) : StateM σ (Slots T) := do
  return ⟨← a.cells.mapM (Option.mapM f), a.free⟩

def ofList (states : List S) : Slots S := { cells := states.map some }

theorem get?_put_self (a : Slots S) (h : Nat) (s : S) (inside : h < a.cells.length) :
    (a.put h s).get? h = some s := by
  simp [get?, put, inside]

theorem get?_put_other (a : Slots S) (h k : Nat) (s : S) (different : h ≠ k) :
    (a.put h s).get? k = a.get? k := by
  simp [get?, put, different]

theorem get?_release_self (a : Slots S) (h : Nat) (inside : h < a.cells.length) :
    (a.release h).get? h = none := by
  simp [get?, release, inside]

theorem get?_release_other (a : Slots S) (h k : Nat) (different : h ≠ k) :
    (a.release h).get? k = a.get? k := by
  simp [get?, release, different]

theorem get?_map (f : S → T) (a : Slots S) (h : Nat) : (a.map f).get? h = (a.get? h).map f := by
  simp only [get?, map, List.getElem?_map]
  cases a.cells[h]? <;> rfl

theorem live_map (f : S → T) (a : Slots S) : (a.map f).live = a.live.map f := by
  simp only [live, map, List.filterMap_map, List.map_filterMap]
  rfl

end Slots

end QuantumRegister
