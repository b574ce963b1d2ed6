import QuantumRegister.Operation.Channel
import QuantumRegister.Proofs.Dense.Wave
import QuantumRegister.Proofs.Unitary

/-!
Families of operators that preserve norms together are accepted as channels; the operators that carry one
level each to the lowest are such a family.
-/

set_option autoImplicit false

namespace QuantumRegister

open QuantumRegister.Dense (sum_eq)

instance : Scalar.ExactAddition ℝ := ⟨add_assoc, add_comm, zero_add⟩

/-! What the checks of mixtures and channels ask for. -/

section Checks

variable {R : Type} [Scalar R] (name : String) (qs : List Qudit)

theorem Mixture.of_ok (branches : List (R × Operator R)) (m : Mixture R) : Mixture.of name qs branches = .ok m ↔
    branches ≠ [] ∧ (∀ b ∈ branches, Scalar.isFinite b.1 = true ∧ ¬b.1 < 0)
      ∧ ¬channelTolerance < Scalar.magnitude (Scalar.sum (branches.map Prod.fst) - 1)
      ∧ Operator.checkAll qs (branches.map Prod.snd) = .ok () ∧ ⟨name, qs, branches, none⟩ = m := by
  have weighed : (branches.any fun b => !Scalar.isFinite b.1 || decide (b.1 < 0)) = false
      ↔ ∀ b ∈ branches, Scalar.isFinite b.1 = true ∧ ¬b.1 < 0 := by
    simp only [List.any_eq_false, Bool.or_eq_true, Bool.not_eq_true', decide_eq_true_eq, not_or, Bool.not_eq_false]
  rw [Mixture.of, ← weighed, ne_eq, ← List.isEmpty_iff]
  cases branches.isEmpty with
  | true => simp
  | false =>
      cases branches.any fun b => !Scalar.isFinite b.1 || decide (b.1 < 0) with
      | true => simp
      | false =>
          by_cases apart : channelTolerance < Scalar.magnitude (Scalar.sum (branches.map Prod.fst) - 1)
          · simp [apart]
          · cases Operator.checkAll qs (branches.map Prod.snd) <;> simp [apart]

theorem KrausChannel.of_ok (ops : List (Operator R)) (c : KrausChannel R) : KrausChannel.of name qs ops = .ok c ↔
    ops ≠ [] ∧ Operator.checkAll qs ops = .ok ()
      ∧ ¬Scalar.sqrt channelTolerance < KrausChannel.deviation (Qudit.jointDim qs) ops ∧ ⟨name, qs, ops, none⟩ = c := by
  rw [KrausChannel.of, ne_eq, ← List.isEmpty_iff]
  cases ops.isEmpty with
  | true => simp
  | false =>
      cases Operator.checkAll qs ops with
      | error e => simp
      | ok u =>
          by_cases apart : Scalar.sqrt channelTolerance < KrausChannel.deviation (Qudit.jointDim qs) ops <;> simp [apart]

end Checks

/-! Complete families deviate from preserving norms by nothing. -/

namespace Operator

theorem toComplex_accumulate (terms : List (Cplx ℝ × Cplx ℝ)) :
    (accumulate terms).toComplex = (terms.map fun t => t.1.toComplex * t.2.toComplex).sum := by
  have later (z : Cplx ℝ) (rest : List (Cplx ℝ × Cplx ℝ)) : (rest.foldl (fun y t => 1 * t.1 * t.2 + 1 * y) z).toComplex
      = z.toComplex + (rest.map fun t => t.1.toComplex * t.2.toComplex).sum := by
    induction rest generalizing z with
    | nil => exact (add_zero _).symm
    | cons t rest ih =>
        rw [List.foldl_cons, ih, List.map_cons, List.sum_cons]
        simp only [Cplx.toComplex_add, Cplx.toComplex_mul, Cplx.toComplex_one, one_mul]
        ring
  cases terms with
  | nil => rfl
  | cons t rest =>
      rw [accumulate, later, List.map_cons, List.sum_cons]
      simp only [Cplx.toComplex_mul, Cplx.toComplex_one, one_mul]

theorem entry_gram (m : Operator ℝ) (i j : ℕ) (inRow : i < m.cols) (inColumn : j < m.cols) : (m.gram.entry i j).toComplex
    = ∑ k ∈ Finset.range m.rows, (starRingEnd ℂ) (m.entry k i).toComplex * (m.entry k j).toComplex := by
  rw [gram, entry_tabulate _ _ _ i j inRow inColumn, toComplex_accumulate, List.map_map]
  rfl

theorem total_shape {R : Type} [Scalar R] (ms : List (Operator R)) (total : Operator R) :
    (ms.foldl add total).rows = total.rows ∧ (ms.foldl add total).cols = total.cols := by
  induction ms generalizing total with
  | nil => exact ⟨rfl, rfl⟩
  | cons m ms ih => exact ih (total.add m)

theorem entry_total (ms : List (Operator ℝ)) (total : Operator ℝ) (i j : ℕ) (inRow : i < total.rows) (inColumn : j < total.cols) :
    ((ms.foldl add total).entry i j).toComplex = (total.entry i j).toComplex + (ms.map fun m => (m.entry i j).toComplex).sum := by
  induction ms generalizing total with
  | nil => exact (add_zero _).symm
  | cons m ms ih =>
      rw [List.foldl_cons, ih (total.add m) inRow inColumn, add, entry_tabulate _ _ _ i j inRow inColumn, Cplx.toComplex_add,
        List.map_cons, List.sum_cons, add_assoc]

theorem entry_sub {R : Type} [Scalar R] (a b : Operator R) (i j : ℕ) (inRow : i < a.rows) (inColumn : j < a.cols) :
    (a.sub b).entry i j = a.entry i j - b.entry i j := entry_tabulate _ _ _ i j inRow inColumn

theorem norm_zero (m : Operator ℝ) (zero : ∀ i < m.rows, ∀ j < m.cols, (m.entry i j).toComplex = 0) : m.norm = 0 := by
  have columns : ∀ x ∈ (List.range m.cols).map fun j => Scalar.laneSum ((List.range m.rows).map fun i => (m.entry i j).normSq),
      x = 0 := by
    intro x member
    obtain ⟨j, inColumn, rfl⟩ := List.mem_map.mp member
    rw [Scalar.laneSum_eq_sum, sum_eq]
    refine List.sum_eq_zero fun y listed => ?_
    obtain ⟨i, inRow, rfl⟩ := List.mem_map.mp listed
    rw [Cplx.toComplex_normSq, zero i (List.mem_range.mp inRow) j (List.mem_range.mp inColumn), map_zero]
  rw [norm, sum_eq, List.sum_eq_zero columns]
  exact Real.sqrt_zero

theorem deviation_complete (d : ℕ) (ops : List (Operator ℝ)) (square : ∀ m ∈ ops, m.rows = d ∧ m.cols = d) (complete : Complete d ops) :
    KrausChannel.deviation d ops = 0 := by
  let empty : Operator ℝ := Grid.tabulate d d fun _ _ => 0
  have shape := total_shape (ops.map gram) empty
  refine norm_zero (((ops.map gram).foldl add empty).sub (identity d)) fun i inRow j inColumn => ?_
  have row : i < d := inRow.trans_eq shape.1
  have column : j < d := inColumn.trans_eq shape.2
  have grams : (ops.map gram).map (fun m => (m.entry i j).toComplex) = ops.map fun m =>
      ∑ k ∈ Finset.range d, (starRingEnd ℂ) (m.entry k i).toComplex * (m.entry k j).toComplex := by
    rw [List.map_map]
    refine List.map_congr_left fun m member => ?_
    obtain ⟨rows, cols⟩ := square m member
    exact (entry_gram m i j (row.trans_eq cols.symm) (column.trans_eq cols.symm)).trans (by rw [rows])
  rw [entry_sub ((ops.map gram).foldl add empty) (identity d) i j inRow inColumn, Cplx.toComplex_sub,
    entry_total _ empty i j row column, grams, complete i row j column, entry_tabulate _ _ _ i j row column, Cplx.toComplex_zero,
    zero_add, identity, entry_tabulate _ _ _ i j row column, toComplex_indicator, sub_self]

theorem entry_transition (d target source i j : ℕ) (inRow : i < d) (inColumn : j < d) :
    ((transition d target source : Operator ℝ).entry i j).toComplex = if i = target ∧ j = source then 1 else 0 := by
  rw [transition, entry_tabulate _ _ _ i j inRow inColumn, toComplex_indicator]

noncomputable def lowerings (d : ℕ) : List (Operator ℝ) := (List.range d).map fun k => transition d 0 k

theorem lowerings_length (d : ℕ) : (lowerings d).length = d := by rw [lowerings, List.length_map, List.length_range]

theorem lowerings_square (d : ℕ) : ∀ m ∈ lowerings d, m.rows = d ∧ m.cols = d := by
  intro m member
  obtain ⟨k, -, rfl⟩ := List.mem_map.mp member
  exact ⟨rfl, rfl⟩

theorem lowerings_complete (d : ℕ) : Complete d (lowerings d) := by
  intro i iInside j jInside
  have lowest : 0 < d := Nat.zero_lt_of_lt iInside
  have column (k : ℕ) : ∑ n ∈ Finset.range d, (starRingEnd ℂ) ((transition d 0 k : Operator ℝ).entry n i).toComplex
      * ((transition d 0 k : Operator ℝ).entry n j).toComplex
      = (starRingEnd ℂ) (if k = i then (1 : ℂ) else 0) * if k = j then 1 else 0 := by
    rw [Finset.sum_eq_single_of_mem 0 (Finset.mem_range.mpr lowest) fun n member other => ?_]
    · rw [entry_transition _ _ _ _ _ lowest iInside, entry_transition _ _ _ _ _ lowest jInside]
      simp only [true_and, eq_comm]
    · rw [entry_transition _ _ _ _ _ (Finset.mem_range.mp member) iInside, if_neg fun both => other both.1, map_zero, zero_mul]
  rw [lowerings, List.map_map]
  exact (Finset.sum_congr rfl fun k _ => column k : ∑ k ∈ Finset.range d, _ = _).trans (sum_indicators d i j iInside)

end Operator

theorem Operator.lowerings_fit (q : Qudit) (joint : Qudit.jointDim [q] = q.dim) : checkAll [q] (lowerings q.dim) = .ok () := by
  refine (checkAll_ok _ _).mpr fun m member => (checkSquare_ok _ _).mpr ?_
  rw [joint]
  exact lowerings_square q.dim m member

theorem KrausChannel.reset_made (q : Qudit) (some : 0 < q.dim) (joint : Qudit.jointDim [q] = q.dim) :
    KrausChannel.reset q = .ok ⟨"ResetChannel(" ++ q.text ++ ")", [q], Operator.lowerings q.dim, none⟩ := by
  have filled : Operator.lowerings q.dim ≠ [] := List.ne_nil_of_length_pos (some.trans_eq (Operator.lowerings_length q.dim).symm)
  refine (KrausChannel.of_ok _ _ (Operator.lowerings q.dim) _).mpr ⟨filled, Operator.lowerings_fit q joint, ?_, rfl⟩
  rw [joint, Operator.deviation_complete q.dim _ (Operator.lowerings_square q.dim) (Operator.lowerings_complete q.dim)]
  exact not_lt.mpr (Real.sqrt_nonneg _)

end QuantumRegister
