import QuantumRegister.Proofs.Register.Exchanged
import QuantumRegister.Proofs.Register.Regroup

/-!
Exchanging two labels of one dimension does to a register what the matrix of the exchange does to the
single state that it stands for.
-/

set_option autoImplicit false

namespace QuantumRegister

open QuantumRegister.MixedRadix
open QuantumRegister.Assignment
open QuantumRegister.Dense
open QuantumRegister.DenseState (Sound)

namespace Assignment

def swapped (a b : Qudit) (σ : Assignment) : Assignment := fun q => σ (Equiv.swap a b q)

theorem within_swapped (a b : Qudit) (qs : List Qudit) (flat : a.dim = b.dim) (first : a ∈ qs) (second : b ∈ qs) (σ : Assignment)
    (within : Within qs σ) : Within qs (swapped a b σ) := by
  intro q listed
  rw [swapped, ← Qudit.dim_swap a b q flat]
  exact within _ (Register.mem_swap qs a b q first second listed)

end Assignment

/-! The matrix of an exchange. -/

namespace Dense

theorem entry_exchange (i j v w : ℕ) (iInside : i < 2) (jInside : j < 2) (vInside : v < 2) (wInside : w < 2) :
    ((Operator.exchange 4 1 2 : Operator ℝ).entry (i * 2 + j) (v * 2 + w)).toComplex = if v = j ∧ w = i then 1 else 0 := by
  rw [Operator.exchange, Operator.entry_tabulate _ _ _ _ _ (by omega) (by omega), Operator.toComplex_indicator]
  refine if_congr ?_ rfl rfl
  split
  · omega
  · split <;> omega

theorem acted_exchange (a b : Qudit) (different : a ≠ b) (first : a.dim = 2) (second : b.dim = 2) (F : Assignment → ℂ)
    (σ : Assignment) (aInside : σ a < 2) (bInside : σ b < 2) :
    acted [a, b] (Operator.exchange 4 1 2) F σ = F (swapped a b σ) := by
  have index_pair (τ : Assignment) : index [a, b] τ = τ a * 2 + τ b := by
    rw [index_cons, index_cons, Qudit.dims_cons, size_cons, second]
    exact congrArg (τ a * 2 + ·) (Nat.mul_one (τ b))
  have target : Function.update (Function.update σ a (σ b)) b (σ a) = swapped a b σ := by
    funext q
    rw [swapped]
    by_cases isSecond : q = b
    · rw [isSecond, Function.update_self, Equiv.swap_apply_right]
    · rw [Function.update_of_ne isSecond]
      by_cases isFirst : q = a
      · rw [isFirst, Function.update_self, Equiv.swap_apply_left]
      · rw [Function.update_of_ne isFirst, Equiv.swap_apply_of_ne_of_ne isFirst isSecond]
  have terms (v w : ℕ) (vInside : v < 2) (wInside : w < 2) :
      ((Operator.exchange 4 1 2 : Operator ℝ).entry (index [a, b] σ)
          (index [a, b] (Function.update (Function.update σ a v) b w))).toComplex
        * F (Function.update (Function.update σ a v) b w) = if v = σ b ∧ w = σ a then F (swapped a b σ) else 0 := by
    rw [index_pair, index_pair, Function.update_self, Function.update_of_ne different, Function.update_self,
      entry_exchange _ _ _ _ aInside bInside vInside wInside]
    by_cases here : v = σ b ∧ w = σ a
    · rw [if_pos here, if_pos here, one_mul, here.1, here.2, target]
    · rw [if_neg here, if_neg here, zero_mul]
  simp only [acted, sumOver, first, second]
  rw [Finset.sum_eq_single_of_mem (σ b) (Finset.mem_range.mpr bInside), Finset.sum_eq_single_of_mem (σ a) (Finset.mem_range.mpr aInside)]
  · rw [terms _ _ bInside aInside, if_pos ⟨rfl, rfl⟩]
  · intro w member other
    rw [terms _ _ bInside (Finset.mem_range.mp member), if_neg fun both => other both.2]
  · intro v member other
    refine Finset.sum_eq_zero fun w bound => ?_
    rw [terms _ _ (Finset.mem_range.mp member) (Finset.mem_range.mp bound), if_neg fun both => other both.1]

end Dense

namespace Register

variable {s : Settings ℝ} {r : Register ℝ (DenseState ℝ)} {Ψ Φ : DenseState ℝ}

-- The single state `Φ` is what the exchange makes of `Ψ`.
structure Swaps (r : Register ℝ (DenseState ℝ)) (a b : Qudit) (Ψ Φ : DenseState ℝ) : Prop where
  flat : a.dim = b.dim
  first : a ∈ r.qudits
  second : b ∈ r.qudits
  sound : Φ.Sound
  frame : Φ.frame = Ψ.frame
  wave : ∀ σ, Within r.qudits σ → Φ.wave σ = Ψ.wave (swapped a b σ)

-- The matrix fits only two qudits of two levels each, since their dimensions are equal.
theorem swaps_of (joint : Joint s r Ψ) (a b : Qudit) (different : a ≠ b) (flat : a.dim = b.dim)
    (applied : Ψ.applyMatrix [a, b] (Operator.exchange 4 1 2) = .ok Φ) : Swaps r a b Ψ Φ := by
  have whole := joint.whole
  have positive : ∀ q ∈ Ψ.frame.qudits, 0 < q.dim := joint.order ▸ joint.positive
  have small : size (Qudit.dims Ψ.frame.qudits) < wordSize := joint.order ▸ joint.small
  have multiplied := DenseState.multiplied_of Ψ Φ [a, b] _ whole.exact positive whole.full applied
  obtain ⟨axes, picks⟩ := multiplied.axes
  have rows := square_rows _ _ whole.exact.distinct picks.nodup picks.subset positive small _ multiplied.square
  have first : a.dim = 2 := by
    rw [Qudit.dims_cons, size_cons, Qudit.dims_cons, size_cons, ← flat] at rows
    have both : a.dim * (a.dim * 1) = 4 := rows.symm
    rw [Nat.mul_one] at both
    nlinarith
  have second : b.dim = 2 := flat ▸ first
  have aListed : a ∈ Ψ.frame.qudits := picks.subset List.mem_cons_self
  have bListed : b ∈ Ψ.frame.qudits := picks.subset (List.mem_cons_of_mem a List.mem_cons_self)
  have sound := multiplied.sound whole (Operator.unitary_exchange 4 1 2 (by omega) (by omega)) rows
  refine ⟨flat, joint.order ▸ aListed, joint.order ▸ bListed, sound, multiplied.frame, fun σ within => ?_⟩
  rw [← joint.order] at within
  rw [DenseState.wave, multiplied.frame, multiplied.wave σ within]
  exact acted_exchange a b different first second _ σ (first ▸ within a aListed) (second ▸ within b bListed)

theorem Exchanged.waves {r' : Register ℝ (DenseState ℝ)} {a b : Qudit} (exchanged : Exchanged a b r r') (flat : a.dim = b.dim) (j : ℕ)
    (u : DenseState ℝ) (here : r'.slots.get? j = some u) :
    ∃ t, r.slots.get? j = some t ∧ u.amplitudes = t.amplitudes ∧ u.frame.dims = t.frame.dims
      ∧ ∀ σ, u.wave σ = t.wave (swapped a b σ) := by
  obtain ⟨t, there, labels, listed⟩ := exchanged.before j u here
  replace listed : u.frame.qudits = t.frame.qudits.map (Equiv.swap a b) := listed
  have amplitudes : u.amplitudes = t.amplitudes := by
    rcases labels with rfl | ⟨f, rfl⟩
    · rfl
    · rfl
  obtain ⟨dims, wave⟩ := DenseState.relabelled t u (Equiv.swap a b) amplitudes listed fun q _ => Qudit.dim_swap a b q flat
  exact ⟨t, there, amplitudes, dims, wave⟩

-- The product after an exchange reads the assignment with both values exchanged.
theorem Exchanged.joint {r' : Register ℝ (DenseState ℝ)} {a b : Qudit} (exchanged : Exchanged a b r r') (flat : a.dim = b.dim)
    (σ : Assignment) : r'.slots.joint σ = r.slots.joint (swapped a b σ) := by
  refine exchanged.product (fun u => u.wave σ) (fun t => t.wave (swapped a b σ)) fun j t u before here => ?_
  obtain ⟨t', there, -, -, wave⟩ := exchanged.waves flat j u here
  rw [before] at there
  cases there
  exact wave σ

theorem Joint.exchange (joint : Joint s r Ψ) {a b : Qudit} (different : a ≠ b) (flat : a.dim = b.dim)
    (applied : Ψ.applyMatrix [a, b] (Operator.exchange 4 1 2) = .ok Φ) : ∃ r', r.exchange a b = .ok r' ∧ Joint s r' Φ := by
  have swaps := swaps_of joint a b different flat applied
  obtain ⟨r', done⟩ := joint.arena.exchange_done a b flat swaps.first swaps.second
  have arena := (joint.arena.exchange a b).2 r' done
  have exchanged := joint.arena.exchanged a b done
  obtain ⟨source, log, -⟩ := exchange_kept done
  have qudits := exchanged.qudits
  refine ⟨r', done, arena, qudits ▸ joint.positive, qudits ▸ joint.small, fun j u here => ?_, swaps.sound, ?_, ?_, fun σ within => ?_⟩
  · obtain ⟨t, there, amplitudes, dims, -⟩ := exchanged.waves flat j u here
    have sound := joint.sound j t there
    exact ⟨arena.exact j u here, by rw [amplitudes, dims, sound.full], by rw [amplitudes, sound.norm]⟩
  · rw [swaps.frame, qudits, joint.order]
  · rw [swaps.frame, source, log]
    exact joint.wired
  · rw [qudits] at within
    rw [swaps.wave σ within, joint.wave _ (within_swapped a b r.qudits flat swaps.first swaps.second σ within), exchanged.joint flat]

end Register

end QuantumRegister
