import QuantumRegister.Proofs.Dense.Choice
import QuantumRegister.Proofs.Dense.Fragment
import QuantumRegister.Proofs.Dense.Sound

/-!
Measuring a dense state: the outcome in whose share the draw falls, and the part of the state that agrees
with it. A second measurement finds the same, and changes nothing.
-/

set_option autoImplicit false

namespace QuantumRegister.DenseState

open QuantumRegister.MixedRadix
open QuantumRegister.Assignment
open QuantumRegister.Dense
open QuantumRegister.Random (Source drawUnit)

noncomputable def chance (ψ : DenseState ℝ) (qs : List Qudit) (k : ℕ) : ℝ :=
  weight ψ.frame.qudits fun σ => if index qs σ = k then ψ.wave σ else 0

noncomputable def observedAt (ψ : DenseState ℝ) (qs : List Qudit) (u : ℝ) : Except (SimError ℝ) (List ℕ × DenseState ℝ) :=
  match ψ.frame.axes qs with
  | .error e => .error e
  | .ok axes =>
    let k := pick (ψ.marginal axes) u
    .ok (digits (Qudit.dims qs) k, ψ.collapsed axes (Qudit.dims qs) k ((ψ.marginal axes).getD k 0))

theorem observe_at (qs : List Qudit) (b : Bench (DenseState ℝ)) :
    (observe qs : Step ℝ (DenseState ℝ) (List ℕ)) b = match b.state.observedAt qs (drawUnit b.source).1 with
      | .error e => (.error e, b)
      | .ok (values, φ) => (.ok values, ⟨(drawUnit b.source : ℝ × Source).2, b.log, φ⟩) := by
  have begun : (observe qs : Step ℝ (DenseState ℝ) (List ℕ)) b = (Step.ofExcept (b.state.frame.axes (R := ℝ) qs) >>= fun axes =>
      Step.draw (drawPick (b.state.marginal axes)) >>= fun k =>
      Step.setState (b.state.collapsed axes (Qudit.dims qs) k ((b.state.marginal axes).getD k 0)) >>= fun _ =>
      pure (digits (Qudit.dims qs) k) : Step ℝ (DenseState ℝ) (List ℕ)) b := rfl
  rw [begun, observedAt]
  cases b.state.frame.axes (R := ℝ) qs with
  | error e => rfl
  | ok axes => rfl

section Chances

variable (ψ : DenseState ℝ) (exact : ψ.frame.Exact) (qs : List Qudit)

include exact

theorem chance_nonneg (k : ℕ) : 0 ≤ ψ.chance qs k := weight_nonneg _ _ exact.distinct

theorem chances_total (full : ψ.amplitudes.size = size ψ.frame.dims) (inside : qs ⊆ ψ.frame.qudits) :
    ∑ k ∈ Finset.range (size (Qudit.dims qs)), ψ.chance qs k = ψ.normSq :=
  (weight_outcomes ψ.frame.qudits qs ψ.wave exact.distinct inside).trans (normSq_weight _ _ exact.distinct full).symm

end Chances

structure Found (ψ : DenseState ℝ) (qs : List Qudit) (u : ℝ) (k : ℕ) (φ : DenseState ℝ) : Prop where
  bound : k < size (Qudit.dims qs)
  falls : Falls (ψ.chance qs) (u * ∑ j ∈ Finset.range (size (Qudit.dims qs)), ψ.chance qs j) k
  frame : φ.frame = ψ.frame
  sound : Sound φ
  wave : ∀ σ, Within ψ.frame.qudits σ →
    φ.wave σ = if qs.map σ = digits (Qudit.dims qs) k then ψ.wave σ / (√(ψ.chance qs k) : ℝ) else 0

theorem observedAt_found (ψ : DenseState ℝ) (exact : ψ.frame.Exact) (full : ψ.amplitudes.size = size ψ.frame.dims)
    (some : ψ.normSq ≠ 0) (qs : List Qudit) (once : qs.Nodup) (inside : qs ⊆ ψ.frame.qudits) (u : ℝ) (low : 0 ≤ u) (high : u < 1) :
    ∃ k φ, ψ.observedAt qs u = .ok (digits (Qudit.dims qs) k, φ) ∧ Found ψ qs u k φ := by
  obtain ⟨axes, found⟩ := exact.axes_found (R := ℝ) qs once inside
  have picks := exact.picks qs axes found
  have chances : ψ.marginal axes = (List.range (size (Qudit.dims qs))).map (ψ.chance qs) := marginal_eq picks ψ.amplitudes full
  have total := chances_total ψ exact qs full inside
  have positive : 0 < ∑ j ∈ Finset.range (size (Qudit.dims qs)), ψ.chance qs j := by
    refine lt_of_le_of_ne (Finset.sum_nonneg fun j _ => chance_nonneg ψ exact qs j) ?_
    rw [total]
    exact some.symm
  obtain ⟨bound, falls⟩ := pick_falls (size (Qudit.dims qs)) (ψ.chance qs) (chance_nonneg ψ exact qs) positive u low high
  rw [← chances] at bound falls
  set k := pick (ψ.marginal axes) u with chosen
  have own : (ψ.marginal axes).getD k 0 = ψ.chance qs k := by
    rw [chances]
    simp [bound]
  have norm := project_norm picks ψ.amplitudes full k (falls.positive.trans_eq own.symm)
  refine ⟨k, ψ.collapsed axes (Qudit.dims qs) k ((ψ.marginal axes).getD k 0), ?_, bound, falls, rfl, ⟨exact, ?_, norm⟩, ?_⟩
  · rw [observedAt, found]
  · exact Array.size_ofFn.trans full
  · intro σ within
    have length : (digits (Qudit.dims qs) k).length = qs.length := by rw [digits_length, Qudit.dims_length]
    have projected := wave_project picks (digits (Qudit.dims qs) k) (ψ.chance qs k) ψ.amplitudes full length σ within
    rw [own]
    refine projected.trans ?_
    rw [Complex.ofReal_div, Complex.ofReal_one, mul_one_div]
    rfl

variable {ψ φ : DenseState ℝ} {qs : List Qudit} {u : ℝ} {k : ℕ}

theorem Found.settled (found : Found ψ qs u k φ) (inside : qs ⊆ ψ.frame.qudits) (j : ℕ) (positive : 0 < φ.chance qs j) : j = k := by
  obtain ⟨σ, within, nonzero⟩ := weight_support _ _ found.sound.exact.distinct positive.ne'
  rw [found.frame] at within
  by_cases here : index qs σ = j
  · rw [if_pos here, found.wave σ within] at nonzero
    by_cases agrees : qs.map σ = digits (Qudit.dims qs) k
    · exact here.symm.trans ((map_digits qs σ (fun q listed => within q (inside listed)) k found.bound).mp agrees)
    · exact absurd (if_neg agrees) nonzero
  · exact absurd (if_neg here) nonzero

theorem Found.certain (found : Found ψ qs u k φ) (inside : qs ⊆ ψ.frame.qudits) : φ.chance qs k = 1 := by
  have total : weight φ.frame.qudits φ.wave = 1 :=
    (normSq_weight _ _ found.sound.exact.distinct found.sound.full).symm.trans found.sound.norm
  rw [chance, ← total]
  refine weight_congr _ _ _ found.sound.exact.distinct fun σ within => ?_
  rw [found.frame] at within
  by_cases here : index qs σ = k
  · rw [if_pos here]
  · have differs : ¬qs.map σ = digits (Qudit.dims qs) k := fun same =>
      here ((map_digits qs σ (fun q listed => within q (inside listed)) k found.bound).mp same)
    rw [if_neg here, found.wave σ within, if_neg differs]

theorem Found.again (found : Found ψ qs u k φ) (once : qs.Nodup) (inside : qs ⊆ ψ.frame.qudits) (v : ℝ) (low : 0 ≤ v) (high : v < 1) :
    ∃ χ, φ.observedAt qs v = .ok (digits (Qudit.dims qs) k, χ) ∧ χ.frame = φ.frame ∧ χ.amplitudes = φ.amplitudes := by
  have nonzero : φ.normSq ≠ 0 := ne_of_eq_of_ne found.sound.norm one_ne_zero
  have owned : qs ⊆ φ.frame.qudits := found.frame ▸ inside
  obtain ⟨j, χ, done, second⟩ :=
    observedAt_found φ found.sound.exact found.sound.full nonzero qs once owned v low high
  obtain rfl := found.settled inside j second.falls.positive
  refine ⟨χ, done, second.frame, ?_⟩
  have full : χ.amplitudes.size = size φ.frame.dims := second.sound.full.trans (congrArg (fun f => size f.dims) second.frame)
  refine wave_injective φ.frame.qudits _ _ found.sound.exact.distinct found.sound.positive full found.sound.full fun σ within => ?_
  have own : Dense.wave φ.frame.qudits χ.amplitudes σ = χ.wave σ := by rw [DenseState.wave, second.frame]
  rw [own, second.wave σ within, found.certain inside, Real.sqrt_one, Complex.ofReal_one, div_one]
  by_cases agrees : qs.map σ = digits (Qudit.dims qs) j
  · rw [if_pos agrees]
    rfl
  · have gone := found.wave σ (found.frame ▸ within)
    rw [if_neg agrees] at gone ⊢
    exact gone.symm

theorem observation_born (ψ : DenseState ℝ) (exact : ψ.frame.Exact) (full : ψ.amplitudes.size = size ψ.frame.dims)
    (some : ψ.normSq ≠ 0) (qs : List Qudit) (once : qs.Nodup) (inside : qs ⊆ ψ.frame.qudits) :
    (∀ b : Bench (DenseState ℝ), 0 ≤ (drawUnit b.source : ℝ × Source).1 ∧ (drawUnit b.source : ℝ × Source).1 < 1
      ∧ ∀ values φ, b.state.observedAt qs (drawUnit b.source).1 = .ok (values, φ) →
        (observe qs : Step ℝ (DenseState ℝ) (List ℕ)) b = (.ok values, ⟨(drawUnit b.source : ℝ × Source).2, b.log, φ⟩))
    ∧ ∀ u : ℝ, 0 ≤ u → u < 1 → ∃ k φ, ψ.observedAt qs u = .ok (digits (Qudit.dims qs) k, φ)
      ∧ (∀ j, Falls (ψ.chance qs) (u * ∑ i ∈ Finset.range (size (Qudit.dims qs)), ψ.chance qs i) j ↔ j = k)
      ∧ 0 < ψ.chance qs k ∧ φ.frame = ψ.frame ∧ φ.amplitudes.size = ψ.amplitudes.size ∧ φ.normSq = 1
      ∧ (∀ σ, Within ψ.frame.qudits σ →
        φ.wave σ = if qs.map σ = digits (Qudit.dims qs) k then ψ.wave σ / (√(ψ.chance qs k) : ℝ) else 0)
      ∧ ∀ v : ℝ, 0 ≤ v → v < 1 →
        ∃ χ, φ.observedAt qs v = .ok (digits (Qudit.dims qs) k, χ) ∧ χ.frame = φ.frame ∧ χ.amplitudes = φ.amplitudes := by
  refine ⟨fun b => ?_, fun u low high => ?_⟩
  · obtain ⟨low, high⟩ := Random.drawUnit_bounds b.source
    refine ⟨low, high, fun values φ done => ?_⟩
    rw [observe_at, done]
  · obtain ⟨k, φ, done, found⟩ := observedAt_found ψ exact full some qs once inside u low high
    have size : φ.amplitudes.size = ψ.amplitudes.size := by rw [found.sound.full, full, found.frame]
    refine ⟨k, φ, done, fun j => ⟨fun falls => ?_, ?_⟩, found.falls.positive, found.frame, size, found.sound.norm, found.wave,
      fun v => found.again once inside v⟩
    · exact falls.unique (chance_nonneg ψ exact qs) found.falls
    · rintro rfl
      exact found.falls

theorem observation_born_pair : ∃ (ψ φ χ : DenseState ℝ) (values : List ℕ),
    basisState [Qudit.qubit 0, Qudit.qubit 1] 1 ⟨0⟩ ⟨0⟩ = .ok ψ ∧ ψ.observedAt [Qudit.qubit 1] 0 = .ok (values, φ)
      ∧ φ.normSq = 1 ∧ φ.observedAt [Qudit.qubit 1] 0 = .ok (values, χ) ∧ χ.amplitudes = φ.amplitudes := by
  obtain ⟨ψ, made, sound, named, -⟩ :=
    basisState_sound [Qudit.qubit 0, Qudit.qubit 1] 1 ⟨0⟩ ⟨0⟩ (by decide) (by decide) (by decide) (by decide)
  have nonzero : ψ.normSq ≠ 0 := ne_of_eq_of_ne sound.norm one_ne_zero
  obtain ⟨-, each⟩ := observation_born ψ sound.exact sound.full nonzero [Qudit.qubit 1] (by decide) (by rw [named]; decide)
  obtain ⟨k, φ, done, -, -, -, -, norm, -, again⟩ := each 0 le_rfl one_pos
  obtain ⟨χ, done', -, same⟩ := again 0 le_rfl one_pos
  exact ⟨ψ, φ, χ, _, made, done, norm, done', same⟩

end QuantumRegister.DenseState
