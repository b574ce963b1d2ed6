import QuantumRegister.Proofs.Dense.Factor
import QuantumRegister.Proofs.Dense.Likeness

/-!
Basis states, joint states, and states with their axes or their labels in another order.
-/

set_option autoImplicit false

namespace QuantumRegister.DenseState

open QuantumRegister.MixedRadix
open QuantumRegister.Assignment
open QuantumRegister.Dense
open QuantumRegister.Readable (Full)

theorem wave_depends (ψ : DenseState ℝ) : DependsOn ψ.frame.qudits ψ.wave := Dense.wave_depends _ _

/-! Products with unitary matrices. -/

theorem Multiplied.sound {ψ φ : DenseState ℝ} {qs : List Qudit} {m : Operator ℝ} (multiplied : Multiplied qs m ψ φ) (valid : Sound ψ)
    (unitary : m.Unitary) (rows : m.rows = size (Qudit.dims qs)) : Sound φ := by
  obtain ⟨-, ⟨axes, picks⟩, frame, full, moved⟩ := multiplied
  have norm : φ.amplitudes.normSq = 1 := by
    rw [normSq_weight ψ.frame.qudits _ valid.exact.distinct full, weight_congr _ _ _ valid.exact.distinct moved,
      weight_acted _ _ _ _ valid.exact.distinct picks.nodup picks.subset unitary rows,
      ← normSq_weight ψ.frame.qudits _ valid.exact.distinct valid.full, valid.norm]
  exact ⟨frame ▸ valid.exact, by rw [full, frame], norm⟩

/-! Joint states. -/

theorem kronecker_norm (a b : Amplitudes ℝ) : (a.kronecker b).normSq = a.normSq * b.normSq := by
  rw [normSq_range, normSq_range, normSq_range, kronecker_size, sum_rows, Finset.sum_mul_sum]
  refine Finset.sum_congr rfl fun x first => Finset.sum_congr rfl fun y second => ?_
  rw [kronecker_amp a b x y (Finset.mem_range.mp first) (Finset.mem_range.mp second), Cplx.toComplex_normSq, Cplx.toComplex_mul,
    Complex.normSq_mul]
  rfl

theorem kronecker_full (ψ φ : DenseState ℝ) (first : Full ψ) (second : Full φ) (once : (ψ.frame.qudits ++ φ.frame.qudits).Nodup) :
    ∃ χ, ψ.kronecker φ = .ok χ ∧ Full χ ∧ χ.frame.qudits = ψ.frame.qudits ++ φ.frame.qudits
      ∧ χ.amplitudes = ψ.amplitudes.kronecker φ.amplitudes
      ∧ ∀ σ, Within χ.frame.qudits σ → χ.wave σ = ψ.wave σ * φ.wave σ := by
  have joint := Frame.of_distinct (R := ℝ) _ ψ.frame.source ψ.frame.log once
  let f : Frame := ⟨ψ.frame.qudits ++ φ.frame.qudits, Frame.placesFrom 0 (ψ.frame.qudits ++ φ.frame.qudits) [], ψ.frame.source,
    ψ.frame.log⟩
  have size : (ψ.amplitudes.kronecker φ.amplitudes).size = size f.dims := by
    rw [kronecker_size, first.2, second.2]
    exact ((congrArg MixedRadix.size (Qudit.dims_append _ _)).trans (size_append _ _)).symm
  refine ⟨ofLive f (ψ.amplitudes.kronecker φ.amplitudes), ?_, ⟨(Frame.exact_of _ _ _ _ joint).1, size⟩, rfl, rfl, fun σ within => ?_⟩
  · rw [DenseState.kronecker, Frame.concat, Frame.withQudits, joint]
  · exact wave_kronecker _ _ _ _ first.2 second.2 σ within

theorem kronecker_sound (ψ φ : DenseState ℝ) (first : Sound ψ) (second : Sound φ)
    (once : (ψ.frame.qudits ++ φ.frame.qudits).Nodup) :
    ∃ χ, ψ.kronecker φ = .ok χ ∧ Sound χ ∧ χ.frame.qudits = ψ.frame.qudits ++ φ.frame.qudits
      ∧ ∀ σ, Within χ.frame.qudits σ → χ.wave σ = ψ.wave σ * φ.wave σ := by
  obtain ⟨χ, joined, full, listed, amplitudes, wave⟩ :=
    kronecker_full ψ φ ⟨first.exact, first.full⟩ ⟨second.exact, second.full⟩ once
  refine ⟨χ, joined, ⟨full.1, full.2, ?_⟩, listed, wave⟩
  rw [amplitudes, kronecker_norm, first.norm, second.norm, one_mul]

/-! Basis states. -/

theorem basis_norm (n i : ℕ) (inside : i < n) : (Amplitudes.basis n i : Amplitudes ℝ).normSq = 1 := by
  have size : (Amplitudes.basis n i : Amplitudes ℝ).size = n := Array.size_ofFn
  rw [normSq_range, size, Finset.sum_eq_single_of_mem i (Finset.mem_range.mpr inside)]
  · simp [Amplitudes.basis, Amplitudes.amp, inside, Cplx.toComplex_normSq]
  · intro j member other
    have bound := Finset.mem_range.mp member
    simp [Amplitudes.basis, Amplitudes.amp, bound, other, Cplx.toComplex_normSq]

theorem basisState_sound (qs : List Qudit) (i : ℕ) (source : SourceRef) (log : LogRef) (once : qs.Nodup)
    (positive : ∀ q ∈ qs, 0 < q.dim) (small : size (Qudit.dims qs) < wordSize) (inside : i < size (Qudit.dims qs)) :
    ∃ ψ : DenseState ℝ, basisState qs i source log = .ok ψ ∧ Sound ψ ∧ ψ.frame.qudits = qs ∧ ψ.frame.source = source
      ∧ ψ.frame.log = log ∧ ∀ σ, Within qs σ → ψ.wave σ = if index qs σ = i then 1 else 0 := by
  let f : Frame := ⟨qs, Frame.placesFrom 0 qs [], source, log⟩
  have framed : Frame.of (R := ℝ) qs source log = .ok f := Frame.of_distinct qs source log once
  have bounded := checkedSize_eq 1 (Qudit.dims qs) (Qudit.dims_positive qs positive) (by rwa [Nat.one_mul])
  rw [Nat.one_mul] at bounded
  refine ⟨ofLive f (Amplitudes.basis (size (Qudit.dims qs)) i), ?_, ⟨(Frame.exact_of _ _ _ _ framed).1, Array.size_ofFn,
    basis_norm _ i inside⟩, rfl, rfl, rfl, fun σ within => wave_basis qs i σ within⟩
  have sized : checkedSize 1 f.dims = some (size (Qudit.dims qs)) := bounded
  simp only [basisState, framed, sized]
  rw [if_neg (not_le.mpr inside)]

/-! Axes in another order. -/

theorem picks_all {L order : List Qudit} {axes : List ℕ} (picks : Picks L order axes) (length : order.length = L.length) :
    axes.Perm (List.range L.length) := by
  refine (List.subperm_of_subset picks.once fun k member => List.mem_range.mpr (picks.inside k member)).perm_of_length_le ?_
  have named := congrArg List.length picks.named
  rw [List.length_map, length] at named
  rw [List.length_range, named]

theorem transposed_sound (ψ : DenseState ℝ) (order : List Qudit) (exact : ψ.frame.Exact) (perm : order.Perm ψ.frame.qudits) :
    ∃ φ, ψ.transposed order = .ok φ ∧ ψ.frame.withQudits (R := ℝ) order = .ok φ.frame ∧ φ.frame.qudits = order
      ∧ φ.amplitudes.size = size (Qudit.dims order) ∧ ∀ σ, Within order σ → Dense.wave order φ.amplitudes σ = ψ.wave σ := by
  have once : order.Nodup := perm.nodup_iff.mpr exact.distinct
  obtain ⟨axes, found⟩ := exact.axes_found order once perm.subset
  have picks := exact.picks order axes found
  have all := picks_all picks perm.length_eq
  have framed := Frame.of_distinct (R := ℝ) order ψ.frame.source ψ.frame.log once
  refine ⟨ofLive ⟨order, Frame.placesFrom 0 order [], ψ.frame.source, ψ.frame.log⟩
    (Amplitudes.permute ψ.frame.dims axes ψ.amplitudes), ?_, framed, rfl, permute_full picks ψ.amplitudes, fun σ within => ?_⟩
  · have permuted : ψ.frame.permutation (R := ℝ) order = .ok axes := by
      rw [Frame.permutation, if_neg (not_not.mpr perm.length_eq), found]
    rw [transposed, permuted]
    simp only [bind, Except.bind, Frame.withQudits, framed]
    rfl
  · exact wave_permute picks all ψ.amplitudes σ within

/-! Other labels. -/

theorem relabelled (ψ φ : DenseState ℝ) (π : Qudit → Qudit) (same : φ.amplitudes = ψ.amplitudes)
    (listed : φ.frame.qudits = ψ.frame.qudits.map π) (flat : ∀ q ∈ ψ.frame.qudits, (π q).dim = q.dim) :
    φ.frame.dims = ψ.frame.dims ∧ ∀ σ, φ.wave σ = ψ.wave fun q => σ (π q) := by
  have dims : Qudit.dims φ.frame.qudits = Qudit.dims ψ.frame.qudits := by
    rw [listed, Qudit.dims, List.map_map]
    exact List.map_congr_left flat
  refine ⟨dims, fun σ => ?_⟩
  have position : index φ.frame.qudits σ = index ψ.frame.qudits fun q => σ (π q) := by
    rw [index, dims, listed, List.map_map]
    rfl
  rw [wave, wave, Dense.wave, Dense.wave, same, position]

end QuantumRegister.DenseState
