import Mathlib
import QuantumRegister.Operator

/-!
Entries of tables and matrices.
-/

set_option autoImplicit false

namespace QuantumRegister

theorem Grid.getD_tabulate {α : Type} (rows cols : ℕ) (f : ℕ → ℕ → α) (d : α) (i j : ℕ) (inRow : i < rows)
    (inColumn : j < cols) : (Grid.tabulate rows cols f).getD i j d = f i j := by
  have inside : i * cols + j < rows * cols := by
    calc i * cols + j < i * cols + cols := by omega
      _ = (i + 1) * cols := by ring
      _ ≤ rows * cols := Nat.mul_le_mul_right cols inRow
  have quotient : (i * cols + j) / cols = i := by
    rw [Nat.add_comm, Nat.mul_comm, Nat.add_mul_div_left _ _ (by omega), Nat.div_eq_of_lt inColumn, Nat.zero_add]
  have remainder : (i * cols + j) % cols = j := by
    rw [Nat.add_comm, Nat.mul_comm, Nat.add_mul_mod_self_left, Nat.mod_eq_of_lt inColumn]
  simp [Grid.tabulate, Grid.getD, inside, quotient, remainder]

namespace Operator

theorem checkSquare_ok {R : Type} (qs : List Qudit) (m : Operator R) :
    checkSquare qs m = .ok () ↔ m.rows = Qudit.jointDim qs ∧ m.cols = Qudit.jointDim qs := by
  simp only [checkSquare]
  split
  · rename_i uneven
    simp only [reduceCtorEq, false_iff]
    exact not_and_or.mpr uneven
  · rename_i even
    simpa using even

theorem checkAll_ok {R : Type} (qs : List Qudit) (ms : List (Operator R)) :
    checkAll qs ms = .ok () ↔ ∀ m ∈ ms, checkSquare qs m = .ok () := by
  induction ms with
  | nil => simp [checkAll]
  | cons m ms ih =>
      rw [checkAll, List.forall_mem_cons]
      cases checkSquare qs m with
      | error e => simp
      | ok u => simpa using ih

variable {R : Type} [Scalar R]

theorem entry_tabulate (rows cols : ℕ) (f : ℕ → ℕ → Cplx R) (i j : ℕ) (inRow : i < rows) (inColumn : j < cols) :
    entry (Grid.tabulate rows cols f) i j = f i j :=
  Grid.getD_tabulate rows cols f 0 i j inRow inColumn

theorem entry_controlled (u : Operator R) (i j : ℕ) (inRow : i < 2 * u.rows) (inColumn : j < 2 * u.rows) :
    u.controlled.entry i j
      = if u.rows ≤ i ∧ u.rows ≤ j then u.entry (i - u.rows) (j - u.rows) else if i = j then 1 else 0 :=
  entry_tabulate _ _ _ i j inRow inColumn

end Operator

end QuantumRegister
