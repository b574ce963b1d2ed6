import QuantumRegister.Scalar

/-!
Sums in eight lanes. Terms go to eight running sums in rotation, for as many full rounds as there
are; opposite lanes are joined, and the terms left over follow one by one. Where addition is exact
this is the plain sum (`laneSum_eq_sum`); for floats it fixes the order of rounding.
-/

set_option autoImplicit false

namespace QuantumRegister.Scalar

class ExactAddition (R : Type) [Scalar R] : Prop where
  assoc (a b c : R) : a + b + c = a + (b + c)
  comm (a b : R) : a + b = b + a
  zero_left (a : R) : 0 + a = a

variable {R : Type} [Scalar R]

def deal : (rounds : Nat) → (lanes : List R) → List R → List R × List R
  | 0, lanes, xs => (lanes, xs)
  | n + 1, lanes, xs => deal n (List.zipWith (· + ·) lanes (xs.take 8)) (xs.drop 8)

def opposite (lanes : List R) : List R := List.zipWith (· + ·) (lanes.take 4) (lanes.drop 4)

def laneSum (xs : List R) : R :=
  let (lanes, rest) := deal (xs.length / 8) (List.replicate 8 0) xs
  sum (opposite lanes ++ rest)

variable [ExactAddition R]

theorem foldl_add (a : R) (xs : List R) : xs.foldl (· + ·) a = a + sum xs := by
  induction xs generalizing a with
  | nil => exact ((ExactAddition.comm a 0).trans (ExactAddition.zero_left a)).symm
  | cons x xs ih =>
    simp only [sum, List.foldl_cons]
    rw [ih, ih, ExactAddition.zero_left, ExactAddition.assoc]

theorem sum_cons (x : R) (xs : List R) : sum (x :: xs) = x + sum xs := by
  simp only [sum, List.foldl_cons, ExactAddition.zero_left]
  exact foldl_add x xs

theorem sum_append (xs ys : List R) : sum (xs ++ ys) = sum xs + sum ys := by
  simp only [sum, List.foldl_append]
  exact foldl_add _ ys

theorem add_exchange (a b c d : R) : a + b + (c + d) = a + c + (b + d) := by
  rw [ExactAddition.assoc, ExactAddition.assoc, ← ExactAddition.assoc b, ExactAddition.comm b c,
    ExactAddition.assoc c]

theorem sum_zipWith (xs ys : List R) (same : xs.length = ys.length) :
    sum (List.zipWith (· + ·) xs ys) = sum xs + sum ys := by
  induction xs generalizing ys with
  | nil =>
    cases ys with
    | nil => exact (ExactAddition.zero_left 0).symm
    | cons y ys => simp at same
  | cons x xs ih =>
    cases ys with
    | nil => simp at same
    | cons y ys =>
      simp only [List.length_cons, Nat.add_right_cancel_iff] at same
      rw [List.zipWith_cons_cons, sum_cons, sum_cons, sum_cons, ih ys same, add_exchange]

theorem sum_deal (n : Nat) (lanes xs : List R) (width : lanes.length = 8) (enough : 8 * n ≤ xs.length) :
    (deal n lanes xs).1.length = 8
      ∧ sum (deal n lanes xs).1 + sum (deal n lanes xs).2 = sum lanes + sum xs := by
  induction n generalizing lanes xs with
  | zero => exact ⟨width, rfl⟩
  | succ n ih =>
    have round : (xs.take 8).length = 8 := by
      rw [List.length_take]
      omega
    have wide : (List.zipWith (· + ·) lanes (xs.take 8)).length = 8 := by
      rw [List.length_zipWith, width, round, Nat.min_self]
    have left : 8 * n ≤ (xs.drop 8).length := by
      rw [List.length_drop]
      omega
    obtain ⟨kept, total⟩ := ih _ (xs.drop 8) wide left
    refine ⟨kept, ?_⟩
    simp only [deal]
    rw [total, sum_zipWith _ _ (width.trans round.symm), ExactAddition.assoc, ← sum_append,
      List.take_append_drop]

theorem sum_opposite (lanes : List R) (width : lanes.length = 8) : sum (opposite lanes) = sum lanes := by
  have halves : (lanes.take 4).length = (lanes.drop 4).length := by
    rw [List.length_take, List.length_drop]
    omega
  rw [opposite, sum_zipWith _ _ halves, ← sum_append, List.take_append_drop]

theorem sum_replicate_zero (n : Nat) : sum (List.replicate n (0 : R)) = 0 := by
  induction n with
  | zero => rfl
  | succ n ih => rw [List.replicate_succ, sum_cons, ih, ExactAddition.zero_left]

theorem laneSum_eq_sum (xs : List R) : laneSum xs = sum xs := by
  obtain ⟨width, total⟩ := sum_deal (xs.length / 8) (List.replicate 8 0) xs (by simp) (by omega)
  simp only [laneSum]
  rw [sum_append, sum_opposite _ width, total, sum_replicate_zero, ExactAddition.zero_left]

end QuantumRegister.Scalar
