import QuantumRegister.Proofs.Operator
import QuantumRegister.Stabilizer.Form

/-!
Bit tables and bit rows read as matrices and vectors over the field with two elements.
-/

set_option autoImplicit false

namespace QuantumRegister.Form

open Matrix

def gf (b : Bool) : ZMod 2 := if b then 1 else 0

def table (n : ℕ) (t : Grid Bool) : Matrix (Fin n) (Fin n) (ZMod 2) := fun i j => gf (bit t i j)

def row (n : ℕ) (t : Array Bool) : Fin n → ZMod 2 := fun i => gf (flag t i)

@[simp] theorem gf_true : gf true = 1 := rfl

@[simp] theorem gf_false : gf false = 0 := rfl

@[simp] theorem gf_xor (a b : Bool) : gf (a ^^ b) = gf a + gf b := by
  cases a <;> cases b <;> rfl

@[simp] theorem gf_and (a b : Bool) : gf (a && b) = gf a * gf b := by
  cases a <;> cases b <;> rfl

@[simp] theorem gf_not (a : Bool) : gf (!a) = 1 + gf a := by
  cases a <;> rfl

theorem gf_inj (a b : Bool) : gf a = gf b ↔ a = b := by
  cases a <;> cases b <;> decide

theorem gf_ne (a b : Bool) : gf (a != b) = gf a + gf b := gf_xor a b

theorem gf_nat (k : ℕ) : gf (k % 2 == 1) = (k : ZMod 2) := by
  have split : (k : ZMod 2) = ((k % 2 : ℕ) : ZMod 2) := by simp
  rcases Nat.mod_two_eq_zero_or_one k with even | odd
  · rw [split, even]; rfl
  · rw [split, odd]; rfl

theorem add_self_two (z : ZMod 2) : z + z = 0 := CharTwo.add_self_eq_zero z

theorem bit_square (n : ℕ) (b : ℕ → ℕ → Bool) (i j : ℕ) (inRow : i < n) (inColumn : j < n) :
    bit (square n b) i j = b i j :=
  Grid.getD_tabulate n n b false i j inRow inColumn

theorem getD_line {α : Type} (n : ℕ) (b : ℕ → α) (d : α) (i : ℕ) (inside : i < n) : (line n b).getD i d = b i := by
  simp [line, inside]

@[simp] theorem flag_line (n : ℕ) (b : ℕ → Bool) (i : Fin n) : flag (line n b) i = b i :=
  getD_line n b false i i.isLt

@[simp] theorem exponent_line (n : ℕ) (b : ℕ → ℕ) (i : Fin n) : exponent (line n b) i = b i :=
  getD_line n b 0 i i.isLt

@[simp] theorem size_line {α : Type} (n : ℕ) (b : ℕ → α) : (line n b).size = n := by
  simp [line]

@[simp] theorem table_square (n : ℕ) (b : ℕ → ℕ → Bool) (i j : Fin n) : table n (square n b) i j = gf (b i j) := by
  rw [table, bit_square n b i j i.isLt j.isLt]

@[simp] theorem row_line (n : ℕ) (b : ℕ → Bool) (i : Fin n) : row n (line n b) i = gf (b i) := by
  rw [row, flag_line]

theorem count_eq_sum (n : ℕ) (p : ℕ → Bool) : count n p = ∑ i : Fin n, if p i then 1 else 0 := by
  rw [count, Fin.sum_univ_eq_sum_range (fun i => if p i then 1 else 0) n]
  induction n with
  | zero => rfl
  | succ n ih => rw [List.range_succ, List.countP_append, ih, Finset.sum_range_succ, List.countP_singleton]

theorem count_parity (n : ℕ) (p : ℕ → Bool) : (count n p : ZMod 2) = ∑ i : Fin n, gf (p i) := by
  rw [count_eq_sum, Nat.cast_sum]
  refine Finset.sum_congr rfl fun i _ => ?_
  cases p i <;> rfl

end QuantumRegister.Form
