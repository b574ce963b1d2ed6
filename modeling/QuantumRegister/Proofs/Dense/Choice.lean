import QuantumRegister.Dense.Amplitudes
import QuantumRegister.Proofs.Exact

/-!
A draw picks the outcome in whose share it falls, and never one without a chance; the pivot of a
factorization has weight.
-/

set_option autoImplicit false

namespace QuantumRegister

theorem Random.drawUnit_bounds (s : Random.Source) : 0 ≤ (Random.drawUnit s : ℝ × Random.Source).1
    ∧ (Random.drawUnit s : ℝ × Random.Source).1 < 1 := by
  have low : (s.word s.position).toNat < 2 ^ 32 := UInt32.toNat_lt _
  have high : (s.word (s.position + 1)).toNat < 2 ^ 32 := UInt32.toNat_lt _
  have drawn : (Random.drawUnit s : ℝ × Random.Source).1
      = (((s.word s.position).toNat + Nat.pow 2 32 * (s.word (s.position + 1)).toNat) / Nat.pow 2 11 : ℕ) / 2 ^ 53 := rfl
  have below : ((s.word s.position).toNat + Nat.pow 2 32 * (s.word (s.position + 1)).toNat) / Nat.pow 2 11 < 2 ^ 53 := by
    simp only [Nat.pow_eq]
    omega
  rw [drawn]
  refine ⟨by positivity, (div_lt_one (by positivity)).mpr ?_⟩
  exact_mod_cast below

namespace Dense

-- If nothing has a chance, the pick is the last one known to have had one.
theorem pickFrom_positive (ps : List ℝ) (k last : ℕ) (r : ℝ) :
    (∃ j, pickFrom k last r ps = k + j ∧ 0 < ps.getD j 0) ∨ (pickFrom k last r ps = last ∧ ∀ p ∈ ps, p ≤ 0) := by
  induction ps generalizing k last r with
  | nil => exact Or.inr ⟨rfl, fun p member => (List.not_mem_nil member).elim⟩
  | cons p ps ih =>
      rw [pickFrom]
      by_cases empty : p ≤ 0
      · rw [if_pos empty]
        rcases ih (k + 1) last r with ⟨j, found, positive⟩ | ⟨found, rest⟩
        · exact Or.inl ⟨j + 1, by rw [found]; omega, positive⟩
        · refine Or.inr ⟨found, fun x member => ?_⟩
          rcases List.mem_cons.mp member with rfl | later
          · exact empty
          · exact rest x later
      · rw [if_neg empty]
        have here : 0 < (p :: ps).getD 0 0 := lt_of_not_ge empty
        by_cases reached : r < p
        · rw [if_pos reached]
          exact Or.inl ⟨0, rfl, here⟩
        · rw [if_neg reached]
          rcases ih (k + 1) k (r - p) with ⟨j, found, positive⟩ | ⟨found, -⟩
          · exact Or.inl ⟨j + 1, by rw [found]; omega, positive⟩
          · exact Or.inl ⟨0, found, here⟩

theorem pick_positive (chances : List ℝ) (u : ℝ) (some : ∃ p ∈ chances, 0 < p) : 0 < chances.getD (pick chances u) 0 := by
  rcases pickFrom_positive chances 0 0 (u * Scalar.sum chances) with ⟨j, found, positive⟩ | ⟨-, none⟩
  · rw [pick, found, Nat.zero_add]
    exact positive
  · obtain ⟨p, member, positive⟩ := some
    exact absurd (none p member) (not_le.mpr positive)

/-! Shares of the total. -/

-- Outcomes have adjacent shares as wide as their chances; `r` falls into the share of outcome `k`.
def Falls (p : ℕ → ℝ) (r : ℝ) (k : ℕ) : Prop :=
  ∑ j ∈ Finset.range k, p j ≤ r ∧ r < ∑ j ∈ Finset.range (k + 1), p j

theorem Falls.positive {p : ℕ → ℝ} {r : ℝ} {k : ℕ} (falls : Falls p r k) : 0 < p k := by
  have between := falls.1.trans_lt falls.2
  rw [Finset.sum_range_succ] at between
  exact (lt_add_iff_pos_right _).mp between

theorem shares_mono {p : ℕ → ℝ} (nonneg : ∀ j, 0 ≤ p j) {j k : ℕ} (le : j ≤ k) :
    ∑ i ∈ Finset.range j, p i ≤ ∑ i ∈ Finset.range k, p i :=
  Finset.sum_le_sum_of_subset_of_nonneg (Finset.range_subset_range.mpr le) fun i _ _ => nonneg i

theorem Falls.unique {p : ℕ → ℝ} {r : ℝ} {j k : ℕ} (nonneg : ∀ i, 0 ≤ p i) (first : Falls p r j) (second : Falls p r k) :
    j = k := by
  rcases Nat.lt_trichotomy j k with less | same | more
  · exact absurd (first.2.trans_le ((shares_mono nonneg less).trans second.1)) (lt_irrefl r)
  · exact same
  · exact absurd (second.2.trans_le ((shares_mono nonneg more).trans first.1)) (lt_irrefl r)

theorem Falls.later {p : ℕ → ℝ} {r : ℝ} {k : ℕ} (falls : Falls (fun j => p (j + 1)) (r - p 0) k) : Falls p r (k + 1) := by
  obtain ⟨before, beyond⟩ := falls
  refine ⟨?_, ?_⟩
  · rw [Finset.sum_range_succ']
    exact le_sub_iff_add_le.mp before
  · rw [Finset.sum_range_succ']
    exact sub_lt_iff_lt_add.mp beyond

theorem Falls.congr {p q : ℕ → ℝ} {r : ℝ} {k : ℕ} (falls : Falls p r k) (same : ∀ j ≤ k, p j = q j) : Falls q r k := by
  have before : ∑ j ∈ Finset.range k, p j = ∑ j ∈ Finset.range k, q j :=
    Finset.sum_congr rfl fun j inside => same j (Finset.mem_range.mp inside).le
  have beyond : ∑ j ∈ Finset.range (k + 1), p j = ∑ j ∈ Finset.range (k + 1), q j :=
    Finset.sum_congr rfl fun j inside => same j (Nat.le_of_lt_succ (Finset.mem_range.mp inside))
  exact ⟨before ▸ falls.1, beyond ▸ falls.2⟩

-- Each entry passed over is taken off the draw, so that the draw falls into a share of the rest.
theorem pickFrom_falls (ps : List ℝ) (nonneg : ∀ p ∈ ps, 0 ≤ p) (k last : ℕ) (r : ℝ) (low : 0 ≤ r) (high : r < ps.sum) :
    ∃ j < ps.length, pickFrom k last r ps = k + j ∧ Falls (fun i => ps.getD i 0) r j := by
  induction ps generalizing k last r with
  | nil => exact absurd (low.trans_lt high) (lt_irrefl 0)
  | cons p ps ih =>
      have rest : ∀ x ∈ ps, 0 ≤ x := fun x member => nonneg x (List.mem_cons_of_mem p member)
      have here : 0 ≤ p := nonneg p List.mem_cons_self
      rw [List.sum_cons] at high
      rw [pickFrom]
      by_cases empty : p ≤ 0
      · obtain rfl := le_antisymm empty here
        obtain ⟨j, inside, found, falls⟩ := ih rest (k + 1) last r low (by rwa [zero_add] at high)
        rw [← sub_zero r] at falls
        rw [if_pos empty, found]
        exact ⟨j + 1, Nat.succ_lt_succ inside, by omega, Falls.later falls⟩
      · rw [if_neg empty]
        by_cases reached : r < p
        · rw [if_pos reached]
          refine ⟨0, Nat.succ_pos _, rfl, ?_, ?_⟩
          · rwa [Finset.sum_range_zero]
          · rwa [Finset.sum_range_one]
        · rw [if_neg reached]
          have left : 0 ≤ r - p := sub_nonneg.mpr (not_lt.mp reached)
          obtain ⟨j, inside, found, falls⟩ := ih rest (k + 1) k (r - p) left (by linarith)
          rw [found]
          exact ⟨j + 1, Nat.succ_lt_succ inside, by omega, Falls.later falls⟩

theorem pick_falls (n : ℕ) (p : ℕ → ℝ) (nonneg : ∀ j, 0 ≤ p j) (some : 0 < ∑ j ∈ Finset.range n, p j) (u : ℝ) (low : 0 ≤ u)
    (high : u < 1) :
    pick ((List.range n).map p) u < n ∧ Falls p (u * ∑ j ∈ Finset.range n, p j) (pick ((List.range n).map p) u) := by
  have total : Scalar.sum ((List.range n).map p) = ∑ j ∈ Finset.range n, p j := List.sum_eq_foldl.symm
  have entries : ∀ x ∈ (List.range n).map p, 0 ≤ x := by
    intro x member
    obtain ⟨j, -, rfl⟩ := List.mem_map.mp member
    exact nonneg j
  obtain ⟨j, inside, found, falls⟩ := pickFrom_falls ((List.range n).map p) entries 0 0 (u * ∑ j ∈ Finset.range n, p j)
    (mul_nonneg low some.le) (mul_lt_of_lt_one_left some high)
  rw [List.length_map, List.length_range] at inside
  rw [pick, total, found, Nat.zero_add]
  refine ⟨inside, falls.congr fun i le => ?_⟩
  have bound : i < n := le.trans_lt inside
  simp [bound]

/-! The pivot. -/

theorem reaches_real (x y : ℝ) : reaches x y = decide (x ≤ y) := by
  have defined (z : ℝ) : Scalar.isDefined z = true := decide_eq_true (le_refl z)
  rw [reaches, defined, defined]
  rfl

theorem greatestFrom_spec (xs : List ℝ) (k : ℕ) (best : ℕ × ℝ) :
    best.2 ≤ (greatestFrom k best xs).2 ∧ (∀ x ∈ xs, x ≤ (greatestFrom k best xs).2)
      ∧ (greatestFrom k best xs = best ∨ ∃ j, (greatestFrom k best xs).1 = k + j ∧ xs[j]? = some (greatestFrom k best xs).2) := by
  induction xs generalizing k best with
  | nil => exact ⟨le_rfl, fun x member => (List.not_mem_nil member).elim, Or.inl rfl⟩
  | cons x xs ih =>
      rw [greatestFrom, reaches_real]
      obtain ⟨above, all, place⟩ := ih (k + 1) (if decide (best.2 ≤ x) then (k, x) else best)
      generalize greatestFrom (k + 1) (if decide (best.2 ≤ x) then (k, x) else best) xs = found at above all place ⊢
      by_cases larger : best.2 ≤ x
      · rw [decide_eq_true larger, if_pos rfl] at above place
        refine ⟨larger.trans above, fun y member => ?_, Or.inr ?_⟩
        · rcases List.mem_cons.mp member with rfl | later
          · exact above
          · exact all y later
        · rcases place with rfl | ⟨j, index, value⟩
          · exact ⟨0, rfl, rfl⟩
          · exact ⟨j + 1, by rw [index]; omega, value⟩
      · rw [decide_eq_false larger, if_neg Bool.false_ne_true] at above place
        refine ⟨above, fun y member => ?_, ?_⟩
        · rcases List.mem_cons.mp member with rfl | later
          · exact (le_of_not_ge larger).trans above
          · exact all y later
        · rcases place with same | ⟨j, index, value⟩
          · exact Or.inl same
          · exact Or.inr ⟨j + 1, by rw [index]; omega, value⟩

theorem pivot_weight (xs : List ℝ) (k : ℕ) (found : pivot? xs = some k) : ∃ x, xs[k]? = some x ∧ 0 < x := by
  cases xs with
  | nil => cases found
  | cons y xs =>
      obtain ⟨-, -, place⟩ := greatestFrom_spec xs 1 (0, y)
      rw [pivot?] at found
      generalize greatestFrom 1 (0, y) xs = best at found place
      by_cases weight : 0 < best.2
      · rw [if_pos weight] at found
        cases found
        refine ⟨best.2, ?_, weight⟩
        rcases place with rfl | ⟨j, index, value⟩
        · rfl
        · rw [index, Nat.add_comm]
          exact value
      · rw [if_neg weight] at found
        cases found

theorem pivot_positive (xs : List ℝ) (some : ∃ x ∈ xs, 0 < x) : ∃ k, pivot? xs = .some k := by
  obtain ⟨x, member, positive⟩ := some
  cases xs with
  | nil => cases member
  | cons y xs =>
      obtain ⟨first, all, -⟩ := greatestFrom_spec xs 1 (0, y)
      refine ⟨_, if_pos ?_⟩
      rcases List.mem_cons.mp member with rfl | later
      · exact positive.trans_le first
      · exact positive.trans_le (all x later)

end Dense

end QuantumRegister
