import QuantumRegister.Proofs.Channel
import QuantumRegister.Proofs.Dense.Born
import QuantumRegister.Proofs.Dense.Kraus
import QuantumRegister.Proofs.Emptied

/-!
Resetting a qudit of a dense state: what was found is carried to the lowest level. Measuring and exchanging
does the same as the channel whose operators carry one level each.
-/

set_option autoImplicit false

namespace QuantumRegister

open QuantumRegister.MixedRadix
open QuantumRegister.Assignment
open QuantumRegister.Dense
open QuantumRegister.Random (Source drawUnit)
open QuantumRegister.Selection (Chosen)

/-! A matrix on a single qudit. -/

namespace Dense

theorem acted_single (q : Qudit) (m : Operator ℝ) (F : Assignment → ℂ) (σ : Assignment) : acted [q] m F σ
    = ∑ v ∈ Finset.range q.dim, (m.entry (σ q) v).toComplex * F (Function.update σ q v) := by
  simp only [acted, sumOver, index_single, Function.update_self]

theorem acted_transition (q : Qudit) (k : ℕ) (F : Assignment → ℂ) (σ : Assignment) (within : σ q < q.dim) (inside : k < q.dim) :
    acted [q] (Operator.transition q.dim 0 k) F σ = if σ q = 0 then F (Function.update σ q k) else 0 := by
  rw [acted_single, Finset.sum_eq_single_of_mem k (Finset.mem_range.mpr inside) fun v member other => ?_]
  · rw [Operator.entry_transition _ _ _ _ _ within inside]
    simp
  · rw [Operator.entry_transition _ _ _ _ _ within (Finset.mem_range.mp member), if_neg fun both => other both.2, zero_mul]

theorem swap_lt {d k v : ℕ} (inside : k < d) (bound : v < d) : Equiv.swap 0 k v < d := by
  rw [Equiv.swap_apply_def]
  split
  · exact inside
  · split
    · exact Nat.zero_lt_of_lt inside
    · exact bound

theorem acted_exchanged (q : Qudit) (k : ℕ) (F : Assignment → ℂ) (σ : Assignment) (within : σ q < q.dim) (inside : k < q.dim) :
    acted [q] (Operator.exchange q.dim 0 k) F σ = F (Function.update σ q (Equiv.swap 0 k (σ q))) := by
  have entries (v : ℕ) (bound : v < q.dim) : ((Operator.exchange q.dim 0 k : Operator ℝ).entry (σ q) v).toComplex
      = if v = Equiv.swap 0 k (σ q) then 1 else 0 := by
    rw [Operator.exchange, Operator.entry_tabulate _ _ _ _ _ within bound, Operator.toComplex_indicator, ← Equiv.swap_apply_def]
    refine if_congr ⟨fun same => ?_, fun same => ?_⟩ rfl rfl
    · rw [same, Equiv.swap_apply_self]
    · rw [same, Equiv.swap_apply_self]
  have bound := swap_lt inside within
  rw [acted_single, Finset.sum_eq_single_of_mem _ (Finset.mem_range.mpr bound) fun v member other => ?_]
  · rw [entries _ bound, if_pos rfl, one_mul]
  · rw [entries _ (Finset.mem_range.mp member), if_neg other, zero_mul]

theorem weight_transition (L : List Qudit) (q : Qudit) (k : ℕ) (F : Assignment → ℂ) (once : L.Nodup) (listed : q ∈ L)
    (inside : k < q.dim) :
    weight L (acted [q] (Operator.transition q.dim 0 k) F) = weight L fun σ => if index [q] σ = k then F σ else 0 := by
  rw [weight_congr L _ _ once fun σ within => acted_transition q k F σ (within q listed) inside,
    weight_carried L q k F once listed inside]
  simp only [index_single]

end Dense

theorem MixedRadix.digits_single {q : Qudit} {k : ℕ} (inside : k < q.dim) : digits (Qudit.dims [q]) k = [k] := by
  rw [Qudit.dims_cons, digits_cons]
  exact congrArg (fun v => [v]) ((congrArg (· % q.dim) (Nat.div_one k)).trans (Nat.mod_eq_of_lt inside))

namespace DenseState

/-! One qudit. -/

-- What resetting a qudit leaves of `ψ` if it was found with the value `k`.
structure Cleared (ψ : DenseState ℝ) (q : Qudit) (k : ℕ) (φ : DenseState ℝ) : Prop where
  frame : φ.frame = ψ.frame
  full : φ.amplitudes.size = size ψ.frame.dims
  wave : ∀ σ, Within ψ.frame.qudits σ →
    φ.wave σ = if σ q = 0 then ψ.wave (Function.update σ q k) / (√(ψ.chance [q] k) : ℝ) else 0

theorem Cleared.unique {ψ φ χ : DenseState ℝ} {q : Qudit} {k : ℕ} (valid : Sound ψ) (first : Cleared ψ q k φ)
    (second : Cleared ψ q k χ) : φ.frame = χ.frame ∧ φ.amplitudes = χ.amplitudes := by
  refine ⟨first.frame.trans second.frame.symm, ?_⟩
  refine wave_injective ψ.frame.qudits _ _ valid.exact.distinct valid.positive first.full second.full fun σ within => ?_
  have left := first.wave σ within
  have right := second.wave σ within
  rw [DenseState.wave, first.frame] at left
  rw [DenseState.wave, second.frame] at right
  exact left.trans right.symm

theorem Found.cleared {ψ φ χ : DenseState ℝ} {q : Qudit} {u : ℝ} {k : ℕ} (found : Found ψ [q] u k φ) (owned : q ∈ ψ.frame.qudits)
    (inside : k < q.dim) (frame : χ.frame = ψ.frame) (full : χ.amplitudes.size = size ψ.frame.dims)
    (moved : ∀ σ, Within ψ.frame.qudits σ → χ.wave σ = φ.wave (Function.update σ q (Equiv.swap 0 k (σ q)))) : Cleared ψ q k χ := by
  refine ⟨frame, full, fun σ within => ?_⟩
  have bound := swap_lt inside (within q owned)
  rw [moved σ within, found.wave _ (within_update _ _ _ _ bound within), digits_single inside, List.map_singleton, Function.update_self]
  by_cases here : σ q = 0
  · rw [here, Equiv.swap_apply_left, if_pos rfl, if_pos rfl]
  · have other : Equiv.swap 0 k (σ q) ≠ k := fun same => here <| (Equiv.swap 0 k).injective (same.trans (Equiv.swap_apply_left 0 k).symm)
    rw [if_neg fun same => other (List.cons.inj same).1, if_neg here]

section One

variable {ψ : DenseState ℝ} (proper : Proper ψ) {q : Qudit} (owned : q ∈ ψ.frame.qudits)

include proper owned

theorem single_dim : Qudit.jointDim [q] = q.dim := by
  have joint := jointDim_eq ψ.frame.qudits [q] proper.exact.distinct (List.nodup_singleton q)
    (List.cons_subset.mpr ⟨owned, List.nil_subset _⟩) proper.positive proper.small
  exact joint.trans (Nat.mul_one q.dim)

theorem exchanged {k : ℕ} (inside : k < q.dim) : ∃ φ, ψ.applyMatrix [q] (Operator.exchange q.dim 0 k) = .ok φ ∧ φ.frame = ψ.frame
    ∧ Sound φ ∧ ∀ σ, Within ψ.frame.qudits σ → φ.wave σ = ψ.wave (Function.update σ q (Equiv.swap 0 k (σ q))) := by
  have single : [q] ⊆ ψ.frame.qudits := List.cons_subset.mpr ⟨owned, List.nil_subset _⟩
  have square : Operator.checkSquare [q] (Operator.exchange q.dim 0 k : Operator ℝ) = .ok () :=
    (Operator.checkSquare_ok _ _).mpr ⟨(single_dim proper owned).symm, (single_dim proper owned).symm⟩
  obtain ⟨φ, applied⟩ := applyMatrix_done ψ [q] _ proper.exact (List.nodup_singleton q) single square
  have multiplied := multiplied_of ψ φ [q] _ proper.exact proper.positive proper.full applied
  have unitary := Operator.unitary_exchange q.dim 0 k (Nat.zero_lt_of_lt inside) inside
  refine ⟨φ, applied, multiplied.frame, multiplied.sound proper.toSound unitary (Nat.mul_one q.dim).symm, fun σ within => ?_⟩
  rw [DenseState.wave, multiplied.frame, multiplied.wave σ within, acted_exchanged q k _ σ (within q owned) inside]
  rfl

theorem resetOne_done (b : Bench (DenseState ℝ)) (held : b.state = ψ) : ∃ k φ, k < q.dim
    ∧ (observe [q] b).1 = .ok [k] ∧ Falls (ψ.chance [q]) (drawUnit b.source).1 k
    ∧ resetOne q b = (.ok (), ⟨(drawUnit b.source : ℝ × Source).2, b.log, φ⟩) ∧ Cleared ψ q k φ ∧ Sound φ := by
  subst held
  have single : [q] ⊆ b.state.frame.qudits := List.cons_subset.mpr ⟨owned, List.nil_subset _⟩
  have unit : b.state.normSq = 1 := proper.norm
  obtain ⟨low, high⟩ := Random.drawUnit_bounds b.source
  obtain ⟨k, φ, observed, found⟩ := observedAt_found b.state proper.exact proper.full (ne_of_eq_of_ne unit one_ne_zero) [q]
    (List.nodup_singleton q) single _ low high
  have inside : k < q.dim := found.bound.trans_eq (Nat.mul_one q.dim)
  rw [digits_single inside] at observed
  have seen : observe [q] b = (.ok [k], ⟨(drawUnit b.source : ℝ × Source).2, b.log, φ⟩) := by rw [observe_at, observed]
  have falls := found.falls
  rw [chances_total b.state proper.exact [q] proper.full single, unit, mul_one] at falls
  have measured : resetOne q b = (if k ≠ 0 then (get >>= fun c : Bench (DenseState ℝ) =>
      Step.ofExcept (c.state.applyMatrix [q] (Operator.exchange q.dim 0 k)) >>= fun χ => Step.setState χ)
      else pure () : Step ℝ (DenseState ℝ) Unit) ⟨(drawUnit b.source : ℝ × Source).2, b.log, φ⟩ := by
    rw [resetOne, Step.bind_apply, seen]
    rfl
  by_cases lowest : k = 0
  · subst lowest
    have cleared := found.cleared owned inside found.frame (found.frame ▸ found.sound.full) fun σ _ => by
      rw [Equiv.swap_self, Equiv.refl_apply, Function.update_eq_self]
    exact ⟨0, φ, inside, congrArg Prod.fst seen, falls, measured, cleared, found.sound⟩
  · have kept : Proper φ := ⟨found.sound, by rw [found.frame]; exact proper.small⟩
    obtain ⟨χ, applied, frame, sound, moved⟩ := exchanged kept (by rw [found.frame]; exact owned) inside
    rw [found.frame] at frame moved
    refine ⟨k, χ, inside, congrArg Prod.fst seen, falls, ?_, found.cleared owned inside frame (frame ▸ sound.full) moved, sound⟩
    rw [measured, if_pos lowest]
    exact congrArg (fun r => (Step.ofExcept r >>= fun χ => Step.setState χ : Step ℝ (DenseState ℝ) Unit)
      ⟨(drawUnit b.source : ℝ × Source).2, b.log, φ⟩) applied

/-! As a channel. -/

theorem branchChance_lowering {k : ℕ} (inside : k < q.dim) :
    branchChance ψ.frame [q] (Operator.lowerings q.dim) ψ.amplitudes k = ψ.chance [q] k := by
  have branch : (Operator.lowerings q.dim).getD k (Operator.identity 0) = Operator.transition q.dim 0 k := by
    simp [Operator.lowerings, inside]
  rw [branchChance, branch]
  exact weight_transition ψ.frame.qudits q k _ proper.exact.distinct owned inside

theorem channel_cleared {k : ℕ} (inside : k < q.dim) (b : Bench (DenseState ℝ)) (held : b.state = ψ)
    (falls : Falls (ψ.chance [q]) (drawUnit b.source).1 k) : ∃ χ, Cleared ψ q k χ
      ∧ applyChannel [q] (Operator.lowerings q.dim) none b = (.ok (), ⟨(drawUnit b.source : ℝ × Source).2, b.log, χ⟩) := by
  subst held
  have single : [q] ⊆ b.state.frame.qudits := List.cons_subset.mpr ⟨owned, List.nil_subset _⟩
  obtain ⟨low, high⟩ := Random.drawUnit_bounds b.source
  obtain ⟨axes, listed⟩ := proper.exact.axes_found (R := ℝ) [q] (List.nodup_singleton q) single
  have picks := proper.exact.picks [q] axes listed
  have found : b.state.layout [q] = .ok (Layout.of b.state.frame.dims axes) := by rw [layout, listed]
  have fits := Operator.lowerings_fit q (single_dim proper owned)
  have some : Operator.lowerings q.dim ≠ [] := by simp [Operator.lowerings, (Nat.zero_lt_of_lt inside).ne']
  have complete : Operator.Complete (size (Qudit.dims [q])) (Operator.lowerings q.dim) := by
    rw [Qudit.dims_cons, size_cons]
    exact (Nat.mul_one q.dim).symm ▸ Operator.lowerings_complete q.dim
  have total := branchChance_total proper.toSound _ (List.nodup_singleton q) single complete
  obtain ⟨sel, c, selected, live, written, chosen⟩ := branchState_chosen proper.toSound picks _ some _ low
  obtain ⟨direct, share⟩ := chosen_falls chosen low (high.trans_eq total.symm)
  have bound := chosen.inside.trans_eq (Operator.lowerings_length q.dim)
  have same : sel.index = k := by
    have own := share.congr fun j le => branchChance_lowering proper owned (le.trans_lt bound)
    exact own.unique (chance_nonneg b.state proper.exact [q]) falls
  subst same
  have weight : sel.weight = b.state.chance [q] sel.index :=
    (congrArg Selection.weight direct).trans (branchChance_lowering proper owned inside)
  have positive : 0 < sel.weight := falls.positive.trans_eq weight.symm
  have ran := applyChannel_branchAt some fits none b found
  rw [branchAt_eq _ _ none _ { b with source := (drawUnit b.source : ℝ × Source).2 } sel c selected, if_neg (not_le.mpr positive)] at ran
  obtain ⟨full, wave⟩ := written.normalized sel.weight
  refine ⟨b.state.setBuffers (normalized c sel.weight), ⟨rfl, full, fun σ within => ?_⟩, ran⟩
  have branch : (Operator.lowerings q.dim).getD sel.index (Operator.identity 0) = Operator.transition q.dim 0 sel.index := by
    simp [Operator.lowerings, inside]
  refine (wave σ within).trans ?_
  rw [branch, acted_transition q sel.index _ σ (within q owned) inside, weight]
  by_cases here : σ q = 0
  · rw [if_pos here, if_pos here]
  · rw [if_neg here, if_neg here, zero_div]

end One

/-! Both ways of resetting a qudit. -/

theorem perform_reset (qs : List Qudit) :
    (Representation.perform (Operation.reset qs) : Step ℝ (DenseState ℝ) Unit) = reset qs := by
  rw [Representation.perform, Operation.reset, Representation.performAs]
  rfl

theorem perform_channel (c : KrausChannel ℝ) :
    (Representation.perform c.operation : Step ℝ (DenseState ℝ) Unit) = applyChannel c.qudits c.ops c.key := by
  rw [Representation.perform, KrausChannel.operation, Representation.performAs]
  rfl

theorem reset_loop (qs : List Qudit) (b : Bench (DenseState ℝ)) (exact : b.state.frame.Exact) (once : qs.Nodup)
    (inside : qs ⊆ b.state.frame.qudits) : reset qs b = (qs.forM resetOne : Step ℝ (DenseState ℝ) Unit) b := by
  obtain ⟨axes, found⟩ := exact.axes_found (R := ℝ) qs once inside
  have begun : reset qs b = (Step.ofExcept (b.state.frame.axes (R := ℝ) qs) >>= fun _ => qs.forM resetOne :
      Step ℝ (DenseState ℝ) Unit) b := rfl
  rw [begun, found]
  rfl

theorem reset_single (q : Qudit) (b : Bench (DenseState ℝ)) (exact : b.state.frame.Exact) (owned : q ∈ b.state.frame.qudits) :
    reset [q] b = (resetOne q : Step ℝ (DenseState ℝ) Unit) b := by
  have once : [q].forM resetOne = (resetOne q >>= fun _ => pure () : Step ℝ (DenseState ℝ) Unit) := rfl
  rw [reset_loop [q] b exact (List.nodup_singleton q) (List.cons_subset.mpr ⟨owned, List.nil_subset _⟩), once, bind_pure_unit]

theorem reset_as_channel (ψ : DenseState ℝ) (proper : Proper ψ) (q : Qudit) (owned : q ∈ ψ.frame.qudits) :
    ∃ c : KrausChannel ℝ, KrausChannel.reset q = .ok c ∧ ∀ b : Bench (DenseState ℝ), b.state = ψ → ∃ s φ χ,
      Representation.perform (Operation.reset [q]) b = (.ok (), ⟨s, b.log, φ⟩)
        ∧ Representation.perform c.operation b = (.ok (), ⟨s, b.log, χ⟩) ∧ φ.frame = χ.frame ∧ φ.amplitudes = χ.amplitudes := by
  have some : 0 < q.dim := proper.positive q owned
  refine ⟨_, KrausChannel.reset_made q some (single_dim proper owned), ?_⟩
  rintro b rfl
  obtain ⟨k, φ, inside, -, falls, ran, cleared, -⟩ := resetOne_done proper owned b rfl
  obtain ⟨χ, other, channel⟩ := channel_cleared proper owned inside b rfl falls
  refine ⟨(drawUnit b.source : ℝ × Source).2, φ, χ, ?_, ?_, cleared.unique proper.toSound other⟩
  · rw [perform_reset, reset_single q b proper.exact owned]
    exact ran
  · rw [perform_channel]
    exact channel

theorem reset_as_channel_qutrit : ∃ (ψ φ χ : DenseState ℝ) (c : KrausChannel ℝ) (s : Source),
    basisState [Qudit.qubit 0, ⟨1, 3⟩] 5 ⟨0⟩ ⟨0⟩ = .ok ψ ∧ KrausChannel.reset ⟨1, 3⟩ = .ok c
      ∧ Representation.perform (Operation.reset [⟨1, 3⟩]) ⟨default, {}, ψ⟩ = (.ok (), ⟨s, {}, φ⟩)
      ∧ Representation.perform c.operation ⟨default, {}, ψ⟩ = (.ok (), ⟨s, {}, χ⟩) ∧ φ.amplitudes = χ.amplitudes := by
  obtain ⟨ψ, given, sound, named, -⟩ :=
    basisState_sound [Qudit.qubit 0, ⟨1, 3⟩] 5 ⟨0⟩ ⟨0⟩ (by decide) (by decide) (by decide) (by decide)
  have small : size ψ.frame.dims < wordSize := by rw [Frame.dims, named]; decide
  obtain ⟨c, made, each⟩ := reset_as_channel ψ ⟨sound, small⟩ ⟨1, 3⟩ (by rw [named]; decide)
  obtain ⟨s, φ, χ, reset, channel, -, same⟩ := each ⟨default, {}, ψ⟩ rfl
  exact ⟨ψ, φ, χ, c, s, given, made, reset, channel, same⟩

/-! Several qudits. -/

theorem Cleared.emptied {ψ φ : DenseState ℝ} {q : Qudit} {k : ℕ} (cleared : Cleared ψ q k φ) (valid : Sound ψ) (sound : Sound φ)
    (owned : q ∈ ψ.frame.qudits) (inside : k < q.dim) (positive : 0 < ψ.chance [q] k) :
    Emptied ψ.frame.qudits [q] [k] ψ.wave φ.wave := by
  have norm : weight ψ.frame.qudits φ.wave = 1 := by
    rw [DenseState.wave, cleared.frame, ← normSq_weight _ _ valid.exact.distinct cleared.full]
    exact sound.norm
  refine emptied_single _ q k ψ.wave φ.wave (1 / √(ψ.chance [q] k)) valid.exact.distinct owned inside
    (one_div_pos.mpr (Real.sqrt_pos.mpr positive)) norm fun σ within => ?_
  rw [cleared.wave σ within, Complex.ofReal_div, Complex.ofReal_one, mul_one_div]
  by_cases here : σ q = 0
  · rw [if_pos here, if_pos here]
  · rw [if_neg here, if_neg here, zero_div]

theorem dense_empties : Empties Proper DenseState.wave := by
  refine ⟨fun ψ proper => proper.exact.distinct, fun ψ proper => ?_, fun b proper => ?_, fun b q qs proper once inside => ?_,
    fun b q proper owned => ?_⟩
  · exact (normSq_weight _ _ proper.exact.distinct proper.full).symm.trans proper.norm
  · exact reset_loop [] b proper.exact List.nodup_nil (List.nil_subset _)
  · obtain ⟨owned, later⟩ := List.cons_subset.mp inside
    obtain ⟨k, φ, -, -, -, ran, cleared, sound⟩ := resetOne_done proper owned b rfl
    have loop : (q :: qs).forM resetOne = (resetOne q >>= fun _ => qs.forM resetOne : Step ℝ (DenseState ℝ) Unit) := rfl
    have first : Representation.reset [q] b = resetOne q b := reset_single q b proper.exact owned
    have rest := reset_loop qs ⟨(drawUnit b.source : ℝ × Source).2, b.log, φ⟩ sound.exact (List.nodup_cons.mp once).2
      (cleared.frame.symm ▸ later)
    refine (reset_loop (q :: qs) b proper.exact once inside).trans ?_
    rw [loop, Step.bind_apply, Step.bind_apply, first, ran]
    exact rest.symm
  · obtain ⟨k, φ, inside, seen, falls, ran, cleared, sound⟩ := resetOne_done proper owned b rfl
    have kept : Proper φ := ⟨sound, cleared.frame.symm ▸ proper.small⟩
    exact ⟨k, _, φ, seen, (reset_single q b proper.exact owned).trans ran, kept, cleared.frame,
      cleared.emptied proper.toSound sound owned inside falls.positive⟩

end DenseState

end QuantumRegister
