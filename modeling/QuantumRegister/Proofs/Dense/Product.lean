import QuantumRegister.Proofs.Dense.Sound

/-!
Factoring a state and joining its parts again. A product comes back as it was; whatever passes validation
comes back within the tolerance.
-/

set_option autoImplicit false

namespace QuantumRegister.DenseState

open QuantumRegister.MixedRadix
open QuantumRegister.Assignment
open QuantumRegister.Dense

theorem rejoined (ψ single rest : DenseState ℝ) (valid : Sound ψ) (first : Sound single) (second : Sound rest)
    (all : (single.frame.qudits ++ rest.frame.qudits).Perm ψ.frame.qudits) :
    ∃ joint back, single.kronecker rest = .ok joint ∧ joint.transposed ψ.frame.qudits = .ok back
      ∧ back.frame.qudits = ψ.frame.qudits ∧ back.amplitudes.size = size (Qudit.dims ψ.frame.qudits)
      ∧ ∀ σ, Within ψ.frame.qudits σ → Dense.wave ψ.frame.qudits back.amplitudes σ = single.wave σ * rest.wave σ := by
  obtain ⟨joint, joined, sound, listed, product⟩ :=
    kronecker_sound single rest first second (all.nodup_iff.mpr valid.exact.distinct)
  rw [← listed] at all
  obtain ⟨back, done, -, order, full, same⟩ := transposed_sound joint ψ.frame.qudits sound.exact all.symm
  refine ⟨joint, back, joined, done, order, full, fun σ within => ?_⟩
  rw [same σ within, product σ fun q member => within q (all.mem_iff.mp member)]

theorem factoring_rejoins (ψ : DenseState ℝ) (valid : Sound ψ) (qs : List Qudit) (once : qs.Nodup) (inside : qs ⊆ ψ.frame.qudits) :
    (ψ.Separable qs → ∀ (validate : Bool) (tolerance : ℝ), 0 ≤ tolerance → ∃ single rest joint back,
      ψ.factor qs validate tolerance = .ok (single, rest) ∧ single.normSq = 1 ∧ rest.normSq = 1
        ∧ single.kronecker rest = .ok joint ∧ joint.transposed ψ.frame.qudits = .ok back
        ∧ back.frame.qudits = ψ.frame.qudits ∧ back.amplitudes = ψ.amplitudes)
    ∧ (∀ (tolerance : ℝ) (single rest : DenseState ℝ), ψ.factor qs true tolerance = .ok (single, rest) → ∃ joint back,
      single.kronecker rest = .ok joint ∧ joint.transposed ψ.frame.qudits = .ok back
        ∧ back.frame.qudits = ψ.frame.qudits ∧ back.amplitudes.size = ψ.amplitudes.size
        ∧ ∀ i < ψ.amplitudes.size, ‖(back.amplitudes.amp i).toComplex - (ψ.amplitudes.amp i).toComplex‖ ≤ tolerance)
    ∧ ((∃ single rest, ψ.factor qs true 0 = .ok (single, rest)) → ψ.Separable qs) := by
  refine ⟨fun separable validate tolerance nonneg => ?_, fun tolerance single rest done => ?_, fun ⟨single, rest, done⟩ => ?_⟩
  · obtain ⟨single, rest, done, first, second, all, product⟩ :=
      factor_separable ψ valid qs once inside separable validate tolerance fun _ => nonneg
    obtain ⟨joint, back, joined, turned, order, full, same⟩ := rejoined ψ single rest valid first second all
    refine ⟨single, rest, joint, back, done, first.norm, second.norm, joined, turned, order, ?_⟩
    refine wave_injective ψ.frame.qudits _ _ valid.exact.distinct valid.positive full valid.full fun σ within => ?_
    rw [same σ within, ← product σ within, wave]
  · obtain ⟨first, second, -, all, close⟩ := factor_validated ψ single rest valid qs once inside tolerance done
    obtain ⟨joint, back, joined, turned, order, full, same⟩ := rejoined ψ single rest valid first second all
    refine ⟨joint, back, joined, turned, order, full.trans valid.full.symm, fun i bound => ?_⟩
    obtain ⟨σ, within, place⟩ := exists_index ψ.frame.qudits i valid.exact.distinct valid.positive (bound.trans_eq valid.full)
    have product := same σ within
    rw [Dense.wave, place] at product
    have own : (ψ.amplitudes.amp i).toComplex = ψ.wave σ := by rw [wave, Dense.wave, place]
    rw [product, own]
    exact close σ within
  · obtain ⟨-, -, named, all, close⟩ := factor_validated ψ single rest valid qs once inside 0 done
    refine ⟨single.wave, rest.wave, named ▸ wave_depends single, fun σ τ same => ?_, fun σ within => ?_⟩
    · refine wave_depends rest σ τ fun q listed => same q ((mem_others _ _ q).mpr ⟨?_, fun member => ?_⟩)
      · exact all.mem_iff.mp (List.mem_append_right _ listed)
      · have apart := (List.nodup_append.mp (all.nodup_iff.mpr valid.exact.distinct)).2.2
        exact apart q (named.symm ▸ member) q listed rfl
    · exact (sub_eq_zero.mp (norm_le_zero_iff.mp (close σ within))).symm

theorem factoring_rejoins_pair : ∃ ψ single rest joint back : DenseState ℝ,
    basisState [Qudit.qubit 0, Qudit.qubit 1] 1 ⟨0⟩ ⟨0⟩ = .ok ψ ∧ ψ.factor [Qudit.qubit 0] true 0 = .ok (single, rest)
      ∧ single.kronecker rest = .ok joint ∧ joint.transposed ψ.frame.qudits = .ok back ∧ back.amplitudes = ψ.amplitudes := by
  obtain ⟨ψ, made, sound, named, -, -, wave⟩ :=
    basisState_sound [Qudit.qubit 0, Qudit.qubit 1] 1 ⟨0⟩ ⟨0⟩ (by decide) (by decide) (by decide) (by decide)
  have pinned : Pinned ψ.frame.qudits ψ.wave (Qudit.qubit 0) := by
    rw [named]
    refine ⟨0, fun σ within nonzero => ?_⟩
    by_cases here : index [Qudit.qubit 0, Qudit.qubit 1] σ = 1
    · have two : size (Qudit.dims [Qudit.qubit 1]) = 2 := by decide
      rw [index_cons, two] at here
      omega
    · exact absurd ((wave σ within).trans (if_neg here)) nonzero
  obtain ⟨back, -, -⟩ := factoring_rejoins ψ sound [Qudit.qubit 0] (by decide) (by rw [named]; decide)
  obtain ⟨single, rest, joint, back, done, -, -, joined, turned, -, same⟩ :=
    back (separable_of_pinned ψ (Qudit.qubit 0) pinned) true 0 le_rfl
  exact ⟨ψ, single, rest, joint, back, made, done, joined, turned, same⟩

end QuantumRegister.DenseState
