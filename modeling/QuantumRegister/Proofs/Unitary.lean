import QuantumRegister.Gate.Basic
import QuantumRegister.Proofs.Exact
import QuantumRegister.Proofs.Operator

/-!
Unitary matrices preserve norms; the matrices of all gates are unitary.
-/

set_option autoImplicit false

namespace QuantumRegister

namespace Operator

-- The columns are orthonormal.
def Unitary (m : Operator ℝ) : Prop :=
  ∀ j < m.rows, ∀ k < m.rows,
    ∑ i ∈ Finset.range m.rows, (starRingEnd ℂ) (m.entry i j).toComplex * (m.entry i k).toComplex = if j = k then 1 else 0

-- The columns of all the matrices, one above the other, are orthonormal.
def Complete (d : ℕ) (ops : List (Operator ℝ)) : Prop :=
  ∀ j < d, ∀ k < d, (ops.map fun m =>
    ∑ i ∈ Finset.range d, (starRingEnd ℂ) (m.entry i j).toComplex * (m.entry i k).toComplex).sum = if j = k then 1 else 0

theorem isometry {ι : Type} (rows : Finset ι) (d : ℕ) (entry : ι → ℕ → ℂ) (x : ℕ → ℂ) (orthonormal : ∀ j < d, ∀ k < d,
    ∑ i ∈ rows, (starRingEnd ℂ) (entry i j) * entry i k = if j = k then 1 else 0) :
    ∑ i ∈ rows, Complex.normSq (∑ j ∈ Finset.range d, entry i j * x j) = ∑ j ∈ Finset.range d, Complex.normSq (x j) := by
  apply Complex.ofReal_injective
  rw [Complex.ofReal_sum, Complex.ofReal_sum]
  calc ∑ i ∈ rows, (Complex.normSq (∑ j ∈ Finset.range d, entry i j * x j) : ℂ)
      = ∑ i ∈ rows, ∑ j ∈ Finset.range d, ∑ k ∈ Finset.range d,
          (starRingEnd ℂ) (x j) * x k * ((starRingEnd ℂ) (entry i j) * entry i k) := by
        refine Finset.sum_congr rfl fun i _ => ?_
        rw [Complex.normSq_eq_conj_mul_self, map_sum, Finset.sum_mul_sum]
        refine Finset.sum_congr rfl fun j _ => Finset.sum_congr rfl fun k _ => ?_
        rw [map_mul]
        ring
    _ = ∑ j ∈ Finset.range d, ∑ k ∈ Finset.range d, (starRingEnd ℂ) (x j) * x k * (if j = k then 1 else 0) := by
        rw [Finset.sum_comm]
        refine Finset.sum_congr rfl fun j jInside => ?_
        rw [Finset.sum_comm]
        refine Finset.sum_congr rfl fun k kInside => ?_
        rw [← Finset.mul_sum, orthonormal j (Finset.mem_range.mp jInside) k (Finset.mem_range.mp kInside)]
    _ = ∑ j ∈ Finset.range d, (Complex.normSq (x j) : ℂ) := by
        refine Finset.sum_congr rfl fun j jInside => ?_
        rw [Finset.sum_eq_single j (fun k _ other => by rw [if_neg (Ne.symm other), mul_zero])
          (fun outside => (outside jInside).elim), if_pos rfl, mul_one, Complex.normSq_eq_conj_mul_self]

theorem Unitary.complete {m : Operator ℝ} (unitary : m.Unitary) : Complete m.rows [m] := fun j first k second => by
  rw [List.map_singleton, List.sum_singleton, unitary j first k second]

theorem Complete.isometry {d : ℕ} {ops : List (Operator ℝ)} (complete : Complete d ops) (x : ℕ → ℂ) :
    (ops.map fun m => ∑ i ∈ Finset.range d, Complex.normSq (∑ j ∈ Finset.range d, (m.entry i j).toComplex * x j)).sum
      = ∑ j ∈ Finset.range d, Complex.normSq (x j) := by
  have stacked {M : Type} [AddCommMonoid M] (f : Operator ℝ → ℕ → M) : (ops.map fun m => ∑ i ∈ Finset.range d, f m i).sum
      = ∑ n ∈ (Finset.univ : Finset (Fin ops.length)) ×ˢ Finset.range d, f ops[n.1] n.2 := by
    rw [Finset.sum_product, ← Fin.sum_univ_fun_getElem]
    rfl
  rw [stacked]
  refine Operator.isometry _ d (fun (n : Fin ops.length × ℕ) j => (ops[n.1].entry n.2 j).toComplex) x fun j first k second => ?_
  rw [← complete j first k second, stacked]

/-! Permutations and controlled matrices. -/

theorem sum_indicators (d p q : ℕ) (inside : p < d) :
    ∑ i ∈ Finset.range d, (starRingEnd ℂ) (if i = p then (1 : ℂ) else 0) * (if i = q then 1 else 0) = if p = q then 1 else 0 := by
  rw [Finset.sum_eq_single p]
  · rw [if_pos rfl, map_one, one_mul]
  · intro i _ other
    rw [if_neg other, map_zero, zero_mul]
  · intro outside
    exact (outside (Finset.mem_range.mpr inside)).elim

theorem toComplex_indicator (p : Prop) [Decidable p] : (if p then (1 : Cplx ℝ) else 0).toComplex = if p then 1 else 0 := by
  by_cases held : p
  · rw [if_pos held, if_pos held, Cplx.toComplex_one]
  · rw [if_neg held, if_neg held, Cplx.toComplex_zero]

theorem unitary_permutation (d : ℕ) (π : ℕ → ℕ) (inside : ∀ j < d, π j < d) (injective : ∀ j < d, ∀ k < d, π j = π k → j = k) :
    Unitary (Grid.tabulate d d fun i j => if i = π j then (1 : Cplx ℝ) else 0) := by
  intro j jInside k kInside
  have entries : ∀ i ∈ Finset.range d, ∀ l < d,
      (entry (Grid.tabulate d d fun i j => if i = π j then (1 : Cplx ℝ) else 0) i l).toComplex = if i = π l then 1 else 0 := by
    intro i member l bound
    rw [entry_tabulate _ _ _ i l (Finset.mem_range.mp member) bound, toComplex_indicator]
  refine (Finset.sum_congr rfl fun i member => ?_).trans ((sum_indicators d (π j) (π k) (inside j jInside)).trans ?_)
  · rw [entries i member j jInside, entries i member k kInside]
  · exact if_congr ⟨injective j jInside k kInside, congrArg π⟩ rfl rfl

theorem unitary_identity (d : ℕ) : (identity d : Operator ℝ).Unitary :=
  unitary_permutation d id (fun _ bound => bound) fun _ _ _ _ same => same

theorem unitary_exchange (d a b : ℕ) (first : a < d) (second : b < d) : (exchange d a b : Operator ℝ).Unitary := by
  refine unitary_permutation d (fun j => if j = a then b else if j = b then a else j) (fun j bound => ?_) fun j _ k _ same => ?_
  · split
    · exact second
    · split
      · exact first
      · exact bound
  · rw [← Equiv.swap_apply_def, ← Equiv.swap_apply_def] at same
    exact (Equiv.swap a b).injective same

theorem unitary_controlled (u : Operator ℝ) (unitary : u.Unitary) : u.controlled.Unitary := by
  intro j jInside k kInside
  have rows : u.controlled.rows = 2 * u.rows := rfl
  rw [rows] at jInside kInside ⊢
  have above : ∀ i ∈ Finset.range u.rows, ∀ l < 2 * u.rows, (u.controlled.entry i l).toComplex = if i = l then 1 else 0 := by
    intro i member l bound
    have inside := Finset.mem_range.mp member
    rw [entry_controlled u i l (by omega) bound, if_neg (by omega), toComplex_indicator]
  have below : ∀ i ∈ Finset.range u.rows, ∀ l < u.rows, (u.controlled.entry (u.rows + i) l).toComplex = 0 := by
    intro i member l bound
    have inside := Finset.mem_range.mp member
    rw [entry_controlled u _ l (by omega) (by omega), if_neg (by omega), if_neg (by omega), Cplx.toComplex_zero]
  have block : ∀ i ∈ Finset.range u.rows, ∀ l < u.rows, u.controlled.entry (u.rows + i) (u.rows + l) = u.entry i l := by
    intro i member l bound
    have inside := Finset.mem_range.mp member
    rw [entry_controlled u _ _ (by omega) (by omega), if_pos (by omega), Nat.add_sub_cancel_left, Nat.add_sub_cancel_left]
  rw [two_mul, Finset.sum_range_add]
  by_cases low : j < u.rows
  · -- The lower half of the column is empty.
    have rest : ∑ i ∈ Finset.range u.rows, (starRingEnd ℂ) (u.controlled.entry (u.rows + i) j).toComplex
        * (u.controlled.entry (u.rows + i) k).toComplex = 0 :=
      Finset.sum_eq_zero fun i member => by rw [below i member j low, map_zero, zero_mul]
    rw [rest, add_zero, ← sum_indicators u.rows j k low]
    exact Finset.sum_congr rfl fun i member => by rw [above i member j jInside, above i member k kInside]
  · -- The upper half of the column is empty.
    obtain ⟨l, rfl⟩ : ∃ l, j = u.rows + l := ⟨j - u.rows, by omega⟩
    have rest : ∑ i ∈ Finset.range u.rows, (starRingEnd ℂ) (u.controlled.entry i (u.rows + l)).toComplex
        * (u.controlled.entry i k).toComplex = 0 := by
      refine Finset.sum_eq_zero fun i member => ?_
      have inside := Finset.mem_range.mp member
      rw [above i member _ jInside, if_neg (by omega), map_zero, zero_mul]
    rw [rest, zero_add]
    by_cases other : k < u.rows
    · rw [if_neg (by omega)]
      exact Finset.sum_eq_zero fun i member => by rw [below i member k other, mul_zero]
    · obtain ⟨n, rfl⟩ : ∃ n, k = u.rows + n := ⟨k - u.rows, by omega⟩
      have same : u.rows + l = u.rows + n ↔ l = n := by omega
      rw [if_congr same rfl rfl, ← unitary l (by omega) n (by omega)]
      exact Finset.sum_congr rfl fun i member => by rw [block i member l (by omega), block i member n (by omega)]

/-! Matrices on one qubit. -/

theorem unitary_pair (a b c d : Cplx ℝ) (first : Complex.normSq a.toComplex + Complex.normSq c.toComplex = 1)
    (second : Complex.normSq b.toComplex + Complex.normSq d.toComplex = 1)
    (across : (starRingEnd ℂ) a.toComplex * b.toComplex + (starRingEnd ℂ) c.toComplex * d.toComplex = 0) :
    (ofList 2 [a, b, c, d]).Unitary := by
  have back : (starRingEnd ℂ) b.toComplex * a.toComplex + (starRingEnd ℂ) d.toComplex * c.toComplex = 0 := by
    have conjugate := congrArg (starRingEnd ℂ) across
    rw [map_add, map_mul, map_mul, Complex.conj_conj, Complex.conj_conj, map_zero] at conjugate
    rw [mul_comm, mul_comm ((starRingEnd ℂ) d.toComplex)]
    exact conjugate
  have firstColumn := congrArg (Complex.ofReal) first
  have secondColumn := congrArg (Complex.ofReal) second
  rw [Complex.ofReal_add, Complex.normSq_eq_conj_mul_self, Complex.normSq_eq_conj_mul_self, Complex.ofReal_one] at firstColumn
  rw [Complex.ofReal_add, Complex.normSq_eq_conj_mul_self, Complex.normSq_eq_conj_mul_self, Complex.ofReal_one] at secondColumn
  intro j jInside k kInside
  have rows : (ofList 2 [a, b, c, d]).rows = 2 := rfl
  rw [rows] at jInside kInside ⊢
  rw [Finset.sum_range_succ, Finset.sum_range_one]
  interval_cases j <;> interval_cases k
  · exact firstColumn
  · exact across
  · exact back
  · exact secondColumn

end Operator

namespace Gate

open Operator

theorem unitary_phase (z : Cplx ℝ) (unit : Complex.normSq z.toComplex = 1) : (phase z).Unitary := by
  refine unitary_pair 1 0 0 z ?_ ?_ ?_
  · simp
  · simp [unit]
  · simp

theorem normSq_cis (angle : ℝ) : Complex.normSq (Cplx.cis angle).toComplex = 1 := by
  rw [Cplx.toComplex_cis, Complex.normSq_eq_norm_sq, Complex.norm_exp_ofReal_mul_I, one_pow]

theorem unitary_hadamard : (hadamard : Operator ℝ).Unitary := by
  refine unitary_pair _ _ _ _ ?_ ?_ ?_
  · rw [Cplx.toComplex_ofReal, normSq_invSqrtTwo]
    norm_num
  · rw [Cplx.toComplex_neg, Cplx.toComplex_ofReal, Complex.normSq_neg, normSq_invSqrtTwo]
    norm_num
  · rw [Cplx.toComplex_neg, mul_neg, add_neg_cancel]

theorem unitary_pauliX : (pauliX : Operator ℝ).Unitary := by
  refine unitary_pair _ _ _ _ ?_ ?_ ?_ <;> simp

theorem unitary_pauliY : (pauliY : Operator ℝ).Unitary := by
  refine unitary_pair _ _ _ _ ?_ ?_ ?_ <;> simp

theorem circle (x : ℝ) : Scalar.cos x * Scalar.cos x + Scalar.sin x * Scalar.sin x = 1 := by
  have square := Real.cos_sq_add_sin_sq x
  rw [pow_two, pow_two] at square
  exact square

theorem normSq_scale (z : Cplx ℝ) (x : ℝ) (unit : Complex.normSq z.toComplex = 1) :
    Complex.normSq (z.scale x).toComplex = x * x := by
  rw [Cplx.toComplex_scale, Complex.normSq_mul, unit, one_mul, Complex.normSq_ofReal]

theorem unitary_euler (theta phi lambda : ℝ) : (euler theta phi lambda).Unitary := by
  have minus : Complex.normSq (-Cplx.cis lambda).toComplex = 1 := by
    rw [Cplx.toComplex_neg, Complex.normSq_neg, normSq_cis]
  refine unitary_pair _ _ _ _ ?_ ?_ ?_
  · rw [normSq_scale _ _ (normSq_cis phi), Cplx.toComplex_ofReal, Complex.normSq_ofReal, circle]
  · rw [normSq_scale _ _ minus, normSq_scale _ _ (normSq_cis _), add_comm, circle]
  · have turn : (Cplx.cis (phi + lambda)).toComplex = (Cplx.cis phi).toComplex * (Cplx.cis lambda).toComplex := by
      rw [Cplx.toComplex_cis, Cplx.toComplex_cis, Cplx.toComplex_cis, ← Complex.exp_add, Complex.ofReal_add, add_mul]
    have unit := Complex.normSq_eq_conj_mul_self (z := (Cplx.cis phi).toComplex)
    rw [normSq_cis, Complex.ofReal_one] at unit
    simp only [Cplx.toComplex_scale, Cplx.toComplex_neg, Cplx.toComplex_ofReal, turn, map_mul, Complex.conj_ofReal]
    linear_combination -((Scalar.cos (theta / 2.0) : ℝ) : ℂ) * (Scalar.sin (theta / 2.0) : ℝ) * (Cplx.cis lambda).toComplex * unit

theorem unitary_rx (x : ℝ) : (ofList 2 [Cplx.ofReal (Scalar.cos x), (-Cplx.i).scale (Scalar.sin x), (-Cplx.i).scale (Scalar.sin x),
    Cplx.ofReal (Scalar.cos x)]).Unitary := by
  have unit : Complex.normSq (-Cplx.i : Cplx ℝ).toComplex = 1 := by simp
  refine unitary_pair _ _ _ _ ?_ ?_ ?_
  · rw [normSq_scale _ _ unit, Cplx.toComplex_ofReal, Complex.normSq_ofReal, circle]
  · rw [normSq_scale _ _ unit, Cplx.toComplex_ofReal, Complex.normSq_ofReal, add_comm, circle]
  · simp only [Cplx.toComplex_scale, Cplx.toComplex_neg, Cplx.toComplex_i, Cplx.toComplex_ofReal, map_mul, map_neg,
      Complex.conj_I, Complex.conj_ofReal]
    ring

theorem unitary_ry (x : ℝ) : (ofList 2 [Cplx.ofReal (Scalar.cos x), -Cplx.ofReal (Scalar.sin x), Cplx.ofReal (Scalar.sin x),
    Cplx.ofReal (Scalar.cos x)]).Unitary := by
  refine unitary_pair _ _ _ _ ?_ ?_ ?_
  · rw [Cplx.toComplex_ofReal, Cplx.toComplex_ofReal, Complex.normSq_ofReal, Complex.normSq_ofReal, circle]
  · rw [Cplx.toComplex_neg, Complex.normSq_neg, Cplx.toComplex_ofReal, Cplx.toComplex_ofReal, Complex.normSq_ofReal,
      Complex.normSq_ofReal, add_comm, circle]
  · simp only [Cplx.toComplex_neg, Cplx.toComplex_ofReal, Complex.conj_ofReal]
    ring

theorem unitary_rz (x y : ℝ) : (ofList 2 [Cplx.cis x, 0, 0, Cplx.cis y]).Unitary := by
  refine unitary_pair _ _ _ _ ?_ ?_ ?_
  · rw [normSq_cis, Cplx.toComplex_zero, map_zero, add_zero]
  · rw [normSq_cis, Cplx.toComplex_zero, map_zero, zero_add]
  · simp

theorem unitary_matrix (g : Gate ℝ) : g.matrix.Unitary := by
  cases g with
  | identity q => exact unitary_identity q.dim
  | h q => exact unitary_hadamard
  | x q => exact unitary_pauliX
  | y q => exact unitary_pauliY
  | z q => exact unitary_phase _ (by simp)
  | s q => exact unitary_phase _ (by simp)
  | sInv q => exact unitary_phase _ (by simp)
  | t q => exact unitary_phase _ (normSq_cis _)
  | tInv q => exact unitary_phase _ (normSq_cis _)
  | rx q angle => exact unitary_rx _
  | ry q angle => exact unitary_ry _
  | rz q angle => exact unitary_rz _ _
  | u q theta phi lambda => exact unitary_euler theta phi lambda
  | cx a b => exact unitary_controlled _ unitary_pauliX
  | cy a b => exact unitary_controlled _ unitary_pauliY
  | cz a b => exact unitary_controlled _ (unitary_phase _ (by simp))
  | swap a b => exact unitary_exchange 4 1 2 (by omega) (by omega)
  | ccx a b c => exact unitary_controlled _ (unitary_controlled _ unitary_pauliX)

end Gate

end QuantumRegister
