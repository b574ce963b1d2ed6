import QuantumRegister.Proofs.Dense.Pinned

/-!
Factors of a state. A product is again the product of what it splits into along the row and the column
of its pivot; in particular, a qudit with one value left factors out of its state, with nothing lost.
-/

set_option autoImplicit false

namespace QuantumRegister

namespace Cplx

theorem toComplex_unscale (z : Cplx ℝ) (x : ℝ) : (z.unscale x).toComplex = z.toComplex / x := by
  apply Complex.ext
  · simp [toComplex, unscale]
  · simp [toComplex, unscale]

theorem toComplex_div (z w : Cplx ℝ) : (z / w).toComplex = z.toComplex / w.toComplex := by
  apply Complex.ext
  · rw [Complex.div_re, ← add_div]
    rfl
  · rw [Complex.div_im, ← sub_div]
    rfl

theorem norm_eq (z : Cplx ℝ) : z.norm = ‖z.toComplex‖ := by
  rw [Complex.norm_def]
  rfl

end Cplx

open QuantumRegister.MixedRadix
open QuantumRegister.Assignment
open QuantumRegister.Dense

namespace Dense

theorem splitAt_size (d₁ d₂ pivot : ℕ) (t : Amplitudes ℝ) :
    (splitAt d₁ d₂ pivot t).1.size = d₁ ∧ (splitAt d₁ d₂ pivot t).2.size = d₂ := by
  simp [splitAt]

theorem normalized_norm (zs : List (Cplx ℝ)) (f : Cplx ℝ → Cplx ℝ) (positive : 0 < (zs.map Cplx.normSq).sum)
    (each : ∀ z, (f z).normSq = z.normSq * ((zs.map Cplx.normSq).sum)⁻¹) : Amplitudes.normSq (zs.map f).toArray = 1 := by
  have shares : (zs.map f).map Cplx.normSq = (zs.map Cplx.normSq).map (· * ((zs.map Cplx.normSq).sum)⁻¹) := by
    rw [List.map_map, List.map_map]
    exact List.map_congr_left fun z _ => each z
  rw [Amplitudes.normSq, Amplitudes.probabilities, List.toList_toArray, shares, sum_eq]
  rw [List.sum_map_mul_right, List.map_id', mul_inv_cancel₀ positive.ne']

theorem sum_positive (zs : List (Cplx ℝ)) (z : Cplx ℝ) (listed : z ∈ zs) (some : z ≠ 0) : 0 < (zs.map Cplx.normSq).sum := by
  have weight : 0 < z.normSq := Complex.normSq_pos.mpr fun zero => some (Cplx.toComplex_injective zero)
  refine weight.trans_le (List.single_le_sum (fun x member => ?_) _ (List.mem_map.mpr ⟨z, listed, rfl⟩))
  obtain ⟨w, -, rfl⟩ := List.mem_map.mp member
  exact Complex.normSq_nonneg w.toComplex

theorem normSq_phase (z : Cplx ℝ) (some : z ≠ 0) : Complex.normSq (z.toComplex / ‖z.toComplex‖) = 1 := by
  have nonzero : z.toComplex ≠ 0 := fun zero => some (Cplx.toComplex_injective zero)
  rw [Complex.normSq_div, Complex.normSq_ofReal, Complex.normSq_eq_norm_sq, pow_two]
  exact div_self (mul_self_ne_zero.mpr (norm_ne_zero_iff.mpr nonzero))

-- Row and column of the pivot are divided by their own norms, whether or not the array is a product.
theorem splitAt_norm (d₁ d₂ pivot : ℕ) (t : Amplitudes ℝ) (inside : pivot < d₁ * d₂) (some : t.amp pivot ≠ 0) :
    (splitAt d₁ d₂ pivot t).1.normSq = 1 ∧ (splitAt d₁ d₂ pivot t).2.normSq = 1 := by
  have columns : 0 < d₂ := Nat.pos_of_ne_zero fun none => by
    rw [none, Nat.mul_zero] at inside
    exact Nat.not_lt_zero _ inside
  have rowInside : pivot / d₂ < d₁ := Nat.div_lt_of_lt_mul (by rw [Nat.mul_comm]; exact inside)
  have here : t.amp (pivot / d₂ * d₂ + pivot % d₂) = t.amp pivot := by rw [Nat.mul_comm, Nat.div_add_mod]
  have column := sum_positive ((List.range d₁).map fun i => t.amp (i * d₂ + pivot % d₂)) (t.amp pivot)
    (List.mem_map.mpr ⟨_, List.mem_range.mpr rowInside, here⟩) some
  have row := sum_positive ((List.range d₂).map fun j => t.amp (pivot / d₂ * d₂ + j)) (t.amp pivot)
    (List.mem_map.mpr ⟨_, List.mem_range.mpr (Nat.mod_lt _ columns), here⟩) some
  refine ⟨normalized_norm _ _ column fun z => ?_, normalized_norm _ _ row fun z => ?_⟩
  · rw [sum_eq, Cplx.toComplex_normSq, Cplx.toComplex_unscale, Complex.normSq_div, Complex.normSq_ofReal]
    exact congrArg (Complex.normSq z.toComplex / ·) (Real.mul_self_sqrt column.le)
  · rw [sum_eq, Cplx.toComplex_normSq, Cplx.toComplex_div, Cplx.toComplex_scale, Cplx.toComplex_unscale, Cplx.norm_eq,
      Complex.normSq_div, Complex.normSq_mul, normSq_phase _ some, one_mul, Complex.normSq_ofReal]
    exact congrArg (Complex.normSq z.toComplex / ·) (Real.mul_self_sqrt row.le)

theorem splitAt_first (d₁ d₂ pivot : ℕ) (t : Amplitudes ℝ) (x : ℕ) (inside : x < d₁) :
    ((splitAt d₁ d₂ pivot t).1.amp x).toComplex = (t.amp (x * d₂ + pivot % d₂)).toComplex
      / (√(∑ i ∈ Finset.range d₁, (t.amp (i * d₂ + pivot % d₂)).normSq) : ℝ) := by
  have entry : (splitAt d₁ d₂ pivot t).1.amp x = (t.amp (x * d₂ + pivot % d₂)).unscale
      (Scalar.sqrt (Scalar.sum (((List.range d₁).map fun i => t.amp (i * d₂ + pivot % d₂)).map Cplx.normSq))) := by
    simp [splitAt, Amplitudes.amp, inside]
  rw [entry, Cplx.toComplex_unscale, sum_eq, List.map_map]
  rfl

theorem splitAt_second (d₁ d₂ pivot : ℕ) (t : Amplitudes ℝ) (y : ℕ) (inside : y < d₂) :
    ((splitAt d₁ d₂ pivot t).2.amp y).toComplex = (t.amp (pivot / d₂ * d₂ + y)).toComplex
      / ((t.amp pivot).toComplex / ‖(t.amp pivot).toComplex‖
        * (√(∑ j ∈ Finset.range d₂, (t.amp (pivot / d₂ * d₂ + j)).normSq) : ℝ)) := by
  have entry : (splitAt d₁ d₂ pivot t).2.amp y = t.amp (pivot / d₂ * d₂ + y)
      / ((t.amp pivot).unscale (t.amp pivot).norm).scale
        (Scalar.sqrt (Scalar.sum (((List.range d₂).map fun j => t.amp (pivot / d₂ * d₂ + j)).map Cplx.normSq))) := by
    simp [splitAt, Amplitudes.amp, inside]
  rw [entry, Cplx.toComplex_div, Cplx.toComplex_scale, Cplx.toComplex_unscale, Cplx.norm_eq, sum_eq, List.map_map]
  rfl

-- The row and the column of the pivot tell all other entries.
structure RankOne (d₁ d₂ pivot : ℕ) (t : Amplitudes ℝ) : Prop where
  full : t.size = d₁ * d₂
  some : t.amp pivot ≠ 0
  cross : ∀ x < d₁, ∀ y < d₂, (t.amp (x * d₂ + pivot % d₂)).toComplex * (t.amp (pivot / d₂ * d₂ + y)).toComplex
    = (t.amp (x * d₂ + y)).toComplex * (t.amp pivot).toComplex
  norm : t.normSq = 1

namespace RankOne

variable {d₁ d₂ pivot : ℕ} {t : Amplitudes ℝ} (rankOne : RankOne d₁ d₂ pivot t)

include rankOne

theorem norms : (∑ x ∈ Finset.range d₁, (t.amp (x * d₂ + pivot % d₂)).normSq)
    * ∑ y ∈ Finset.range d₂, (t.amp (pivot / d₂ * d₂ + y)).normSq = (t.amp pivot).normSq := by
  have entry (x : ℕ) (first : x < d₁) (y : ℕ) (second : y < d₂) :
      (t.amp (x * d₂ + pivot % d₂)).normSq * (t.amp (pivot / d₂ * d₂ + y)).normSq
        = (t.amp (x * d₂ + y)).normSq * (t.amp pivot).normSq := by
    have crossed := congrArg Complex.normSq (rankOne.cross x first y second)
    rwa [Complex.normSq_mul, Complex.normSq_mul] at crossed
  calc (∑ x ∈ Finset.range d₁, (t.amp (x * d₂ + pivot % d₂)).normSq)
        * ∑ y ∈ Finset.range d₂, (t.amp (pivot / d₂ * d₂ + y)).normSq
      = ∑ x ∈ Finset.range d₁, ∑ y ∈ Finset.range d₂, (t.amp (x * d₂ + y)).normSq * (t.amp pivot).normSq := by
        rw [Finset.sum_mul_sum]
        refine Finset.sum_congr rfl fun x first => Finset.sum_congr rfl fun y second => ?_
        exact entry x (Finset.mem_range.mp first) y (Finset.mem_range.mp second)
    _ = t.normSq * (t.amp pivot).normSq := by
        rw [normSq_range, rankOne.full, sum_rows]
        simp only [Finset.sum_mul]
    _ = (t.amp pivot).normSq := by rw [rankOne.norm, one_mul]

-- The norms of row and column cancel against the modulus of the pivot, and its phase is kept once.
theorem product (x y : ℕ) (first : x < d₁) (second : y < d₂) :
    ((splitAt d₁ d₂ pivot t).1.amp x).toComplex * ((splitAt d₁ d₂ pivot t).2.amp y).toComplex = (t.amp (x * d₂ + y)).toComplex := by
  have nonzero : (t.amp pivot).toComplex ≠ 0 := fun zero => rankOne.some (Cplx.toComplex_injective zero)
  have modulus : (‖(t.amp pivot).toComplex‖ : ℂ) ≠ 0 := Complex.ofReal_ne_zero.mpr (norm_ne_zero_iff.mpr nonzero)
  rw [splitAt_first d₁ d₂ pivot t x first, splitAt_second d₁ d₂ pivot t y second, div_mul_div_comm, rankOne.cross x first y second]
  have nonneg : 0 ≤ ∑ i ∈ Finset.range d₁, (t.amp (i * d₂ + pivot % d₂)).normSq :=
    Finset.sum_nonneg fun i _ => Complex.normSq_nonneg (t.amp (i * d₂ + pivot % d₂)).toComplex
  have lengths := congrArg Real.sqrt rankOne.norms
  rw [Real.sqrt_mul nonneg] at lengths
  generalize √(∑ i ∈ Finset.range d₁, (t.amp (i * d₂ + pivot % d₂)).normSq) = column at lengths ⊢
  generalize √(∑ j ∈ Finset.range d₂, (t.amp (pivot / d₂ * d₂ + j)).normSq) = row at lengths ⊢
  have scale : (column : ℂ) * ((t.amp pivot).toComplex / ‖(t.amp pivot).toComplex‖ * row) = (t.amp pivot).toComplex := by
    calc (column : ℂ) * ((t.amp pivot).toComplex / ‖(t.amp pivot).toComplex‖ * row)
        = (t.amp pivot).toComplex / ‖(t.amp pivot).toComplex‖ * ((column * row : ℝ) : ℂ) := by push_cast; ring
      _ = (t.amp pivot).toComplex / ‖(t.amp pivot).toComplex‖ * ‖(t.amp pivot).toComplex‖ := by
          rw [lengths, Cplx.toComplex_normSq, ← Complex.norm_def]
      _ = (t.amp pivot).toComplex := div_mul_cancel₀ _ modulus
  rw [scale, mul_div_cancel_right₀ _ nonzero]

end RankOne

/-! Distances. -/

theorem foldl_larger (xs : List ℝ) (a b : ℝ) : xs.foldl Scalar.larger a ≤ b ↔ a ≤ b ∧ ∀ x ∈ xs, x ≤ b := by
  induction xs generalizing a with
  | nil => simp
  | cons x xs ih =>
      have larger : Scalar.larger a x = max a x := (max_def_lt a x).symm
      rw [List.foldl_cons, ih, larger, max_le_iff, List.forall_mem_cons, and_assoc]

theorem distance_le (ext rem t : Amplitudes ℝ) (full : t.size = ext.size * rem.size) (b : ℝ) :
    distance ext rem t ≤ b ↔ 0 ≤ b ∧ ∀ x < ext.size, ∀ y < rem.size,
      ‖(ext.amp x).toComplex * (rem.amp y).toComplex - (t.amp (x * rem.size + y)).toComplex‖ ≤ b := by
  have size : (ext.kronecker rem).size = t.size := (kronecker_size ext rem).trans full.symm
  have listed : ((ext.kronecker rem).toList.zip t.toList).map (fun p => (p.1 - p.2).norm)
      = (List.range t.size).map fun i => ((ext.kronecker rem).amp i - t.amp i).norm := by
    refine List.ext_getElem (by simp [size]) fun i left right => ?_
    have bound : i < t.size := by simpa using right
    simp [Amplitudes.amp, bound, size]
  have entry (x y : ℕ) (first : x < ext.size) (second : y < rem.size) :
      ((ext.kronecker rem).amp (x * rem.size + y) - t.amp (x * rem.size + y)).norm
        = ‖(ext.amp x).toComplex * (rem.amp y).toComplex - (t.amp (x * rem.size + y)).toComplex‖ := by
    rw [kronecker_amp ext rem x y first second, Cplx.norm_eq, Cplx.toComplex_sub, Cplx.toComplex_mul]
  rw [distance, listed, foldl_larger, List.forall_mem_map]
  refine and_congr_right fun _ => ⟨fun all x first y second => ?_, fun all i member => ?_⟩
  · have inside : x * rem.size + y < t.size := full ▸ flat_lt first second
    rw [← entry x y first second]
    exact all _ (List.mem_range.mpr inside)
  · have inside : i < ext.size * rem.size := full ▸ List.mem_range.mp member
    have first : i / rem.size < ext.size := Nat.div_lt_of_lt_mul (by rwa [Nat.mul_comm])
    have second : i % rem.size < rem.size := Nat.mod_lt _ (Nat.pos_of_ne_zero fun none => by simp [none] at inside)
    have whole : i / rem.size * rem.size + i % rem.size = i := Nat.div_add_mod' i rem.size
    have near := all _ first _ second
    rwa [← entry _ _ first second, whole] at near

end Dense

namespace DenseState

structure Sound (ψ : DenseState ℝ) : Prop where
  exact : ψ.frame.Exact
  full : ψ.amplitudes.size = size ψ.frame.dims
  norm : ψ.amplitudes.normSq = 1

noncomputable def wave (ψ : DenseState ℝ) : Assignment → ℂ := Dense.wave ψ.frame.qudits ψ.amplitudes

theorem Sound.positive {ψ : DenseState ℝ} (sound : Sound ψ) : ∀ q ∈ ψ.frame.qudits, 0 < q.dim := by
  have some : 0 < size ψ.frame.dims := by
    refine Nat.pos_of_ne_zero fun none => ?_
    have norm := sound.norm
    rw [normSq_range, sound.full, none, Finset.sum_range_zero] at norm
    exact zero_ne_one norm
  exact Qudit.positive_of_dims _ (positive_of_size _ some)

/-! The pivot. -/

theorem pivot_amp (t : Amplitudes ℝ) (pivot : ℕ) (found : Dense.pivot? t.probabilities = some pivot) :
    pivot < t.size ∧ t.amp pivot ≠ 0 := by
  obtain ⟨x, here, positive⟩ := pivot_weight _ _ found
  have inside : pivot < t.size := by
    have bound := (List.getElem?_eq_some_iff.mp here).1
    rwa [Amplitudes.probabilities, List.length_map, Array.length_toList] at bound
  have weight : (t.amp pivot).normSq = x := by
    simpa [Amplitudes.probabilities, Amplitudes.amp, inside] using here
  refine ⟨inside, fun zero => ?_⟩
  rw [zero, Cplx.toComplex_normSq, Cplx.toComplex_zero, map_zero] at weight
  exact positive.ne weight

theorem pivot_found (t : Amplitudes ℝ) (norm : t.normSq = 1) : ∃ pivot, Dense.pivot? t.probabilities = some pivot := by
  obtain ⟨i, member, nonzero⟩ := Finset.exists_ne_zero_of_sum_ne_zero (f := fun i => (t.amp i).normSq) (s := Finset.range t.size) (by
    rw [← normSq_range, norm]
    exact one_ne_zero)
  have inside := Finset.mem_range.mp member
  have listed : t.amp i ∈ t.toList := by simp [Amplitudes.amp, inside]
  exact pivot_positive _ ⟨_, List.mem_map.mpr ⟨_, listed, rfl⟩,
    lt_of_le_of_ne (Complex.normSq_nonneg (t.amp i).toComplex) (Ne.symm nonzero)⟩

theorem rearranged (L : List Qudit) (axes : List ℕ) (qs : List Qudit) (picks : Picks L qs axes) :
    Picks L (qs ++ (untouched (Qudit.dims L) axes).map (L.getD · default)) (axes ++ untouched (Qudit.dims L) axes)
      ∧ (axes ++ untouched (Qudit.dims L) axes).Perm (List.range L.length)
      ∧ (qs ++ (untouched (Qudit.dims L) axes).map (L.getD · default)).Perm L := by
  have all : (axes ++ untouched (Qudit.dims L) axes).Perm (List.range L.length) := by
    have perm := untouched_perm (Qudit.dims L) axes picks.once picks.bounds
    rw [Qudit.dims_length] at perm
    exact List.perm_append_comm.trans perm
  have named : (axes ++ untouched (Qudit.dims L) axes).map (L.getD · default)
      = qs ++ (untouched (Qudit.dims L) axes).map (L.getD · default) := by rw [List.map_append, picks.named]
  have listed : (List.range L.length).map (L.getD · default) = L := by
    refine List.ext_getElem (by simp) fun k _ inside => ?_
    simp [inside]
  refine ⟨⟨picks.distinct, all.nodup_iff.mpr List.nodup_range, fun k member => ?_, named⟩, all, ?_⟩
  · exact List.mem_range.mp (all.mem_iff.mp member)
  · have perm := all.map (L.getD · default)
    rwa [named, listed] at perm

/-! Cuts. -/

def Separable (ψ : DenseState ℝ) (qs : List Qudit) : Prop :=
  ∃ g h, DependsOn qs g ∧ DependsOn (others ψ.frame.qudits qs) h ∧ ∀ σ, Within ψ.frame.qudits σ → ψ.wave σ = g σ * h σ

-- A state as an array of rows and columns: the joint values of some qudits, and those of all others.
structure Cut (ψ : DenseState ℝ) (qs : List Qudit) (E M : Frame) (t : Amplitudes ℝ) : Prop where
  first : E.Exact
  second : M.Exact
  named : E.qudits = qs
  all : (E.qudits ++ M.qudits).Perm ψ.frame.qudits
  full : t.size = size E.dims * size M.dims
  same : ∀ σ, Within (E.qudits ++ M.qudits) σ → Dense.wave (E.qudits ++ M.qudits) t σ = ψ.wave σ
  norm : t.normSq = ψ.normSq
  factor : ∀ validate tolerance, ψ.factor qs validate tolerance = match Dense.pivot? t.probabilities with
    | none => .error (.notSeparable qs tolerance)
    | some pivot =>
      let parts := splitAt (size E.dims) (size M.dims) pivot t
      if validate && decide (tolerance < Dense.distance parts.1 parts.2 t) then .error (.notSeparable qs tolerance)
      else .ok (ofLive E parts.1, ofLive M parts.2)

theorem cut (ψ : DenseState ℝ) (exact : ψ.frame.Exact) (whole : ψ.amplitudes.size = size ψ.frame.dims) (qs : List Qudit)
    (once : qs.Nodup) (inside : qs ⊆ ψ.frame.qudits) : ∃ E M t, Cut ψ qs E M t := by
  obtain ⟨axes, found⟩ := exact.axes_found (R := ℝ) qs once inside
  have picks := exact.picks qs axes found
  obtain ⟨picksAll, all, perm⟩ := rearranged ψ.frame.qudits axes qs picks
  let N := (untouched ψ.frame.dims axes).map (ψ.frame.qudits.getD · default)
  let t := Amplitudes.permute ψ.frame.dims (axes ++ untouched ψ.frame.dims axes) ψ.amplitudes
  let E : Frame := ⟨qs, Frame.placesFrom 0 qs [], ψ.frame.source, ψ.frame.log⟩
  let M : Frame := ⟨N, Frame.placesFrom 0 N [], ψ.frame.source, ψ.frame.log⟩
  have single : ψ.frame.withQudits (R := ℝ) qs = .ok E := Frame.of_distinct qs _ _ once
  have rest : ψ.frame.withQudits (R := ℝ) N = .ok M := Frame.of_distinct N _ _ (List.nodup_append.mp picksAll.nodup).2.1
  refine ⟨E, M, t, (Frame.exact_of _ _ _ _ single).1, (Frame.exact_of _ _ _ _ rest).1, rfl, perm, ?_,
    fun σ within => wave_permute picksAll all _ σ within, permute_norm picksAll all perm ψ.amplitudes whole, fun validate tolerance => ?_⟩
  · rw [← size_append]
    exact (permute_full picksAll ψ.amplitudes).trans (congrArg size (Qudit.dims_append qs N))
  · have length : ψ.frame.qudits.length = ψ.frame.dims.length := (Qudit.dims_length _).symm
    have others : ψ.frame.withQudits (R := ℝ)
        (((List.range ψ.frame.qudits.length).filter fun a => !axes.contains a).map fun a => ψ.frame.qudits.getD a default) = .ok M := by
      rw [length]
      exact rest
    rw [DenseState.factor, found]
    simp only [bind, Except.bind, single, others]
    rw [length]
    rfl

namespace Cut

variable {ψ single rest : DenseState ℝ} {qs : List Qudit} {E M : Frame} {t : Amplitudes ℝ} (cut : Cut ψ qs E M t)

include cut

theorem parts {validate : Bool} {tolerance : ℝ} (done : ψ.factor qs validate tolerance = .ok (single, rest)) :
    ∃ pivot, Dense.pivot? t.probabilities = some pivot
      ∧ single = ofLive E (splitAt (size E.dims) (size M.dims) pivot t).1
      ∧ rest = ofLive M (splitAt (size E.dims) (size M.dims) pivot t).2
      ∧ (validate = true → Dense.distance single.amplitudes rest.amplitudes t ≤ tolerance) := by
  rw [cut.factor] at done
  cases found : Dense.pivot? t.probabilities with
  | none =>
      rw [found] at done
      cases done
  | some pivot =>
      rw [found] at done
      dsimp only at done
      split at done
      · cases done
      · rename_i near
        cases done
        refine ⟨pivot, rfl, rfl, rfl, fun validated => ?_⟩
        rw [validated, Bool.true_and, decide_eq_true_eq, not_lt] at near
        exact near

theorem sound (pivot : ℕ) (found : Dense.pivot? t.probabilities = some pivot) :
    Sound (ofLive E (splitAt (size E.dims) (size M.dims) pivot t).1)
      ∧ Sound (ofLive M (splitAt (size E.dims) (size M.dims) pivot t).2) := by
  obtain ⟨inside, some⟩ := pivot_amp t pivot found
  rw [cut.full] at inside
  have sizes := splitAt_size (size E.dims) (size M.dims) pivot t
  have norms := splitAt_norm (size E.dims) (size M.dims) pivot t inside some
  exact ⟨⟨cut.first, sizes.1, norms.1⟩, ⟨cut.second, sizes.2, norms.2⟩⟩

theorem entry (valid : Sound ψ) (x y : ℕ) (first : x < size E.dims) (second : y < size M.dims) :
    ∃ σ, Within ψ.frame.qudits σ ∧ index E.qudits σ = x ∧ index M.qudits σ = y
      ∧ (t.amp (x * size M.dims + y)).toComplex = ψ.wave σ := by
  have once : (E.qudits ++ M.qudits).Nodup := cut.all.nodup_iff.mpr valid.exact.distinct
  have bound : x * size M.dims + y < size (Qudit.dims (E.qudits ++ M.qudits)) := by
    rw [Qudit.dims_append, size_append]
    exact flat_lt first second
  obtain ⟨σ, within, place⟩ :=
    exists_index _ _ once (fun q member => valid.positive q (cut.all.mem_iff.mp member)) bound
  have here : index M.qudits σ < size M.dims := index_lt _ _ fun q member => within q (List.mem_append_right _ member)
  have split := place
  rw [index_append] at split
  obtain ⟨row, column⟩ := flat_inj here second split
  refine ⟨σ, fun q member => within q (cut.all.mem_iff.mpr member), row, column, ?_⟩
  rw [← cut.same σ within, Dense.wave, place]

theorem rankOne (valid : Sound ψ) (separable : ψ.Separable qs) (pivot : ℕ) (found : Dense.pivot? t.probabilities = some pivot) :
    RankOne (size E.dims) (size M.dims) pivot t := by
  obtain ⟨inside, nonzero⟩ := pivot_amp t pivot found
  refine ⟨cut.full, nonzero, fun x first y second => ?_, cut.norm.trans valid.norm⟩
  obtain ⟨g, h, near, far, split⟩ := separable
  have left (σ τ : Assignment) (one : Within ψ.frame.qudits σ) (other : Within ψ.frame.qudits τ)
      (same : index E.qudits σ = index E.qudits τ) : g σ = g τ :=
    depends_index (cut.named.symm ▸ near) σ τ (fun q member => one q (cut.all.mem_iff.mp (List.mem_append_left _ member)))
      (fun q member => other q (cut.all.mem_iff.mp (List.mem_append_left _ member))) same
  have rest : DependsOn M.qudits h := fun σ τ same => far σ τ fun q member => by
    obtain ⟨listed, apart⟩ := (mem_others _ _ q).mp member
    rw [← cut.named] at apart
    exact same q ((List.mem_append.mp (cut.all.mem_iff.mpr listed)).resolve_left apart)
  have right (σ τ : Assignment) (one : Within ψ.frame.qudits σ) (other : Within ψ.frame.qudits τ)
      (same : index M.qudits σ = index M.qudits τ) : h σ = h τ :=
    depends_index rest σ τ (fun q member => one q (cut.all.mem_iff.mp (List.mem_append_right _ member)))
      (fun q member => other q (cut.all.mem_iff.mp (List.mem_append_right _ member))) same
  -- The four corners of a rectangle with the pivot.
  rw [cut.full] at inside
  have pivotRow : pivot / size M.dims < size E.dims := Nat.div_lt_of_lt_mul (by rwa [Nat.mul_comm])
  have pivotColumn : pivot % size M.dims < size M.dims := Nat.mod_lt _ (Nat.zero_lt_of_lt second)
  have pivotPlace : pivot / size M.dims * size M.dims + pivot % size M.dims = pivot := Nat.div_add_mod' pivot _
  obtain ⟨σ₁, within₁, row₁, column₁, value₁⟩ := cut.entry valid x _ first pivotColumn
  obtain ⟨σ₂, within₂, row₂, column₂, value₂⟩ := cut.entry valid _ y pivotRow second
  obtain ⟨σ₃, within₃, row₃, column₃, value₃⟩ := cut.entry valid x y first second
  obtain ⟨σ₄, within₄, row₄, column₄, value₄⟩ := cut.entry valid _ _ pivotRow pivotColumn
  rw [pivotPlace] at value₄
  rw [value₁, value₂, value₃, value₄, split σ₁ within₁, split σ₂ within₂, split σ₃ within₃, split σ₄ within₄,
    left σ₁ σ₃ within₁ within₃ (row₁.trans row₃.symm), left σ₂ σ₄ within₂ within₄ (row₂.trans row₄.symm),
    right σ₁ σ₄ within₁ within₄ (column₁.trans column₄.symm), right σ₂ σ₃ within₂ within₃ (column₂.trans column₃.symm)]
  ring

theorem value (σ : Assignment) (within : Within ψ.frame.qudits σ) : index E.qudits σ < size E.dims ∧ index M.qudits σ < size M.dims
    ∧ (t.amp (index E.qudits σ * size M.dims + index M.qudits σ)).toComplex = ψ.wave σ := by
  have both : Within (E.qudits ++ M.qudits) σ := fun q member => within q (cut.all.mem_iff.mp member)
  refine ⟨index_lt _ _ fun q member => both q (List.mem_append_left _ member),
    index_lt _ _ fun q member => both q (List.mem_append_right _ member), ?_⟩
  rw [← cut.same σ both, Dense.wave, index_append]
  rfl

end Cut

theorem factor_separable (ψ : DenseState ℝ) (valid : Sound ψ) (qs : List Qudit) (once : qs.Nodup) (inside : qs ⊆ ψ.frame.qudits)
    (separable : ψ.Separable qs) (validate : Bool) (tolerance : ℝ) (allowed : validate = true → 0 ≤ tolerance) :
    ∃ single rest, ψ.factor qs validate tolerance = .ok (single, rest) ∧ Sound single ∧ Sound rest
      ∧ (single.frame.qudits ++ rest.frame.qudits).Perm ψ.frame.qudits
      ∧ ∀ σ, Within ψ.frame.qudits σ → ψ.wave σ = single.wave σ * rest.wave σ := by
  obtain ⟨E, M, t, cut⟩ := cut ψ valid.exact valid.full qs once inside
  obtain ⟨pivot, found⟩ := pivot_found t (cut.norm.trans valid.norm)
  have rankOne := cut.rankOne valid separable pivot found
  obtain ⟨first, second⟩ := cut.sound pivot found
  obtain ⟨rows, columns⟩ := splitAt_size (size E.dims) (size M.dims) pivot t
  have close : Dense.distance (splitAt (size E.dims) (size M.dims) pivot t).1 (splitAt (size E.dims) (size M.dims) pivot t).2 t ≤ 0 := by
    refine (distance_le _ _ _ (by rw [rows, columns, cut.full]) 0).mpr ⟨le_rfl, fun x left y right => ?_⟩
    rw [rows] at left
    rw [columns] at right ⊢
    rw [rankOne.product x y left right, sub_self, norm_zero]
  refine ⟨_, _, ?_, first, second, cut.all, fun σ within => ?_⟩
  · have passes : ¬(validate && decide (tolerance < Dense.distance (splitAt (size E.dims) (size M.dims) pivot t).1
        (splitAt (size E.dims) (size M.dims) pivot t).2 t)) = true := by
      intro refused
      obtain ⟨validated, far⟩ := Bool.and_eq_true_iff.mp refused
      exact absurd (of_decide_eq_true far) (not_lt.mpr (close.trans (allowed validated)))
    simp only [cut.factor, found]
    exact if_neg passes
  · obtain ⟨left, right, here⟩ := cut.value σ within
    exact here.symm.trans (rankOne.product _ _ left right).symm

theorem factor_validated (ψ single rest : DenseState ℝ) (valid : Sound ψ) (qs : List Qudit) (once : qs.Nodup)
    (inside : qs ⊆ ψ.frame.qudits) (tolerance : ℝ) (done : ψ.factor qs true tolerance = .ok (single, rest)) :
    Sound single ∧ Sound rest ∧ single.frame.qudits = qs ∧ (single.frame.qudits ++ rest.frame.qudits).Perm ψ.frame.qudits
      ∧ ∀ σ, Within ψ.frame.qudits σ → ‖single.wave σ * rest.wave σ - ψ.wave σ‖ ≤ tolerance := by
  obtain ⟨E, M, t, cut⟩ := cut ψ valid.exact valid.full qs once inside
  obtain ⟨pivot, found, rfl, rfl, near⟩ := cut.parts done
  obtain ⟨first, second⟩ := cut.sound pivot found
  refine ⟨first, second, cut.named, cut.all, fun σ within => ?_⟩
  obtain ⟨rows, columns⟩ := splitAt_size (size E.dims) (size M.dims) pivot t
  obtain ⟨left, right, here⟩ := cut.value σ within
  have close := ((distance_le _ _ t (by rw [first.full, second.full, cut.full]; rfl) tolerance).mp (near rfl)).2
  have bound := close (index E.qudits σ) (left.trans_eq rows.symm) (index M.qudits σ) (right.trans_eq columns.symm)
  rw [second.full] at bound
  rw [← here]
  exact bound

theorem separable_of_pinned (ψ : DenseState ℝ) (q : Qudit) (pinned : Pinned ψ.frame.qudits ψ.wave q) : ψ.Separable [q] := by
  obtain ⟨v, only⟩ := pinned
  refine ⟨fun σ => if σ q = v then 1 else 0, fun σ => ψ.wave (Function.update σ q v), fun σ τ same => ?_, fun σ τ same => ?_,
    fun σ within => ?_⟩
  · exact congrArg (fun x => if x = v then (1 : ℂ) else 0) (same q List.mem_cons_self)
  · refine Dense.wave_depends _ _ _ _ fun p listed => ?_
    by_cases here : p = q
    · rw [here, Function.update_self, Function.update_self]
    · rw [Function.update_of_ne here, Function.update_of_ne here]
      exact same p ((mem_others _ _ p).mpr ⟨listed, fun member => here (List.mem_singleton.mp member)⟩)
  · dsimp only
    by_cases here : σ q = v
    · rw [if_pos here, one_mul, ← here, Function.update_eq_self]
    · rw [if_neg here, zero_mul]
      by_contra nonzero
      exact here (only σ within nonzero)

theorem factor_pinned (ψ : DenseState ℝ) (sound : Sound ψ) (q : Qudit) (listed : q ∈ ψ.frame.qudits)
    (pinned : Pinned ψ.frame.qudits ψ.wave q) (tolerance : ℝ) :
    ∃ single rest, ψ.factor [q] false tolerance = .ok (single, rest) ∧ Sound single ∧ Sound rest
      ∧ ∀ σ, Within ψ.frame.qudits σ → ψ.wave σ = single.wave σ * rest.wave σ := by
  obtain ⟨single, rest, done, first, second, -, product⟩ := factor_separable ψ sound [q] (List.nodup_singleton q)
    (List.cons_subset.mpr ⟨listed, List.nil_subset _⟩) (separable_of_pinned ψ q pinned) false tolerance
    fun validated => absurd validated Bool.false_ne_true
  exact ⟨single, rest, done, first, second, product⟩

end DenseState

end QuantumRegister
