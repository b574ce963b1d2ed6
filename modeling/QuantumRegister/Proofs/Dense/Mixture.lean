import QuantumRegister.Proofs.Channel
import QuantumRegister.Proofs.Dense.Kraus

/-!
Drawing among unitary matrices by their weights is the Kraus channel of the same matrices, each times the
root of its weight: in a state of norm one their chances are the weights, and scaling to norm one takes the
roots out again.
-/

set_option autoImplicit false

namespace QuantumRegister

open QuantumRegister.MixedRadix
open QuantumRegister.Assignment
open QuantumRegister.Dense
open QuantumRegister.Random (Source Weighted drawUnit)
open QuantumRegister.Selection (Chosen)

/-! Scaled matrices. -/

theorem Operator.entry_scale (m : Operator ℝ) (z : Cplx ℝ) (i j : ℕ) :
    ((m.scale z).entry i j).toComplex = (m.entry i j).toComplex * z.toComplex := by
  rw [← Cplx.toComplex_mul]
  refine congrArg Cplx.toComplex ?_
  have empty : (0 : Cplx ℝ) = 0 * z := Cplx.toComplex_injective (by simp)
  by_cases inside : i * m.cols + j < m.cells.size
  · simp [Operator.scale, Operator.entry, Grid.map, Grid.getD, inside]
  · simpa [Operator.scale, Operator.entry, Grid.map, Grid.getD, inside] using empty

theorem Dense.acted_scale (qs : List Qudit) (m : Operator ℝ) (z : Cplx ℝ) (F : Assignment → ℂ) (σ : Assignment) :
    acted qs (m.scale z) F σ = acted qs m F σ * z.toComplex := by
  rw [acted, acted, mul_comm, ← sumOver_mul_left]
  refine congrArg (fun G => sumOver qs G σ) (funext fun τ => ?_)
  rw [Operator.entry_scale]
  ring

/-! Weights that can be drawn from. -/

theorem sum_getD (ws : List ℝ) : ∑ i ∈ Finset.range ws.length, ws.getD i 0 = ws.sum := by
  rw [Finset.sum_range, ← Fin.sum_univ_getElem]
  exact Finset.sum_congr rfl fun i _ => List.getD_eq_getElem _ _ i.isLt

theorem Random.boundaries_total (acc : ℝ) (ws : List ℝ) : (Random.boundaries acc ws).2 = acc + ws.sum := by
  induction ws generalizing acc with
  | nil => exact (add_zero acc).symm
  | cons w ws ih => rw [Random.boundaries, ih, List.sum_cons, add_assoc]

theorem Random.Weighted.of_positive (ws : List ℝ) (nonneg : ∀ w ∈ ws, 0 ≤ w) (positive : 0 < ws.sum) :
    ∃ d, Weighted.of ws = .ok d := by
  cases ws with
  | nil => exact absurd positive (lt_irrefl 0)
  | cons w ws =>
      have valid : ((w :: ws).any fun x => !decide (0 ≤ x)) = false :=
        List.any_eq_false.mpr fun x member => by simpa using nonneg x member
      have total := Random.boundaries_total w ws
      rw [← List.sum_cons] at total
      have some : Scalar.isZero (Random.boundaries w ws).2 = false := by
        rw [total, Scalar.isZero, decide_eq_false (not_le.mpr positive), Bool.false_and]
      have finite : Scalar.isFinite (Random.boundaries w ws).2 = true := decide_eq_true (sub_self _).le
      refine ⟨⟨(Random.boundaries w ws).1, (Random.boundaries w ws).2⟩, ?_⟩
      simp only [Weighted.of, valid, some, finite, Bool.false_eq_true, if_false, Bool.not_true]

namespace Mixture

structure Checked (qs : List Qudit) (branches : List (ℝ × Operator ℝ)) (m : Mixture ℝ) : Prop where
  some : branches ≠ []
  nonneg : ∀ b ∈ branches, 0 ≤ b.1
  fits : Operator.checkAll qs (branches.map Prod.snd) = .ok ()
  kraus : m.kraus = branches.map fun b => b.2.scale (Cplx.ofReal √b.1)

theorem checked_of {name : String} {qs : List Qudit} {branches : List (ℝ × Operator ℝ)} {m : Mixture ℝ}
    (made : Mixture.of name qs branches = .ok m) : Checked qs branches m := by
  obtain ⟨filled, weighed, -, fits, rfl⟩ := (Mixture.of_ok name qs branches m).mp made
  exact ⟨filled, fun b member => not_lt.mp (weighed b member).2, fits, rfl⟩

end Mixture

namespace DenseState

variable {qs : List Qudit} {branches : List (ℝ × Operator ℝ)} {key : Option String}

-- What a mixture does once it has drawn branch `k`.
noncomputable def mixtureAt (qs : List Qudit) (branches : List (ℝ × Operator ℝ)) (key : Option String) (k : ℕ) :
    Step ℝ (DenseState ℝ) Unit := do
  Step.ofExcept (Operator.checkAll qs (branches.map Prod.snd))
  let l ← Step.ofExcept ((← get).state.layout qs)
  let ψ := (← get).state
  Step.setState (ψ.setBuffers (ψ.buffers.prepare l ((branches.map Prod.snd).getD k (Operator.identity 0))).swap)
  Step.recordBranch key k

section Steps

variable (fits : Operator.checkAll qs (branches.map Prod.snd) = .ok ()) (b : Bench (DenseState ℝ)) {l : Layout}
  (found : b.state.layout qs = .ok l)

include fits found

theorem mixtureAt_eq (k : ℕ) : mixtureAt qs branches key k b = (.ok (), ⟨b.source, key.elim b.log (b.log.recordBranch · k),
    b.state.setBuffers (b.state.buffers.prepare l ((branches.map Prod.snd).getD k (Operator.identity 0))).swap⟩) := by
  rw [mixtureAt, fits]
  refine (layout_read b found _).trans ?_
  cases key with
  | none => rfl
  | some k => rfl

theorem applyMixture_mixtureAt (d : Weighted ℝ) (made : Weighted.of (branches.map Prod.fst) = .ok d) :
    applyMixture qs branches key b = mixtureAt qs branches key (d.draw b.source).1 { b with source := (d.draw b.source).2 } := by
  rw [mixtureAt_eq fits { b with source := (d.draw b.source).2 } found, applyMixture, fits]
  refine (layout_read b found _).trans ?_
  rw [made]
  cases key with
  | none => rfl
  | some k => rfl

end Steps

/-! Chances. -/

section Branches

variable {m : Mixture ℝ} (checked : m.Checked qs branches) {k : ℕ} {ψ : DenseState ℝ}

include checked

theorem kraus_branch (inside : k < branches.length) :
    m.kraus.getD k (Operator.identity 0) = branches[k].2.scale (Cplx.ofReal √branches[k].1) := by
  simp [checked.kraus, inside]

theorem branchChance_mixture (inside : k < branches.length) (proper : Proper ψ) (once : qs.Nodup) (owned : qs ⊆ ψ.frame.qudits)
    (unitary : ∀ b ∈ branches, b.2.Unitary) :
    branchChance ψ.frame qs m.kraus ψ.amplitudes k = (branches.map Prod.fst).getD k 0 := by
  have member := List.getElem_mem inside
  have fits := (Operator.checkAll_ok qs _).mp checked.fits branches[k].2 (List.mem_map.mpr ⟨_, member, rfl⟩)
  have rows := square_rows ψ.frame.qudits qs proper.exact.distinct once owned proper.positive proper.small _ fits
  have norm := normSq_weight ψ.frame.qudits ψ.amplitudes proper.exact.distinct proper.full
  have unit : weight ψ.frame.qudits (Dense.wave ψ.frame.qudits ψ.amplitudes) = 1 := norm.symm.trans proper.norm
  have scaled : acted qs (m.kraus.getD k (Operator.identity 0)) (Dense.wave ψ.frame.qudits ψ.amplitudes)
      = fun σ => acted qs branches[k].2 (Dense.wave ψ.frame.qudits ψ.amplitudes) σ * (√branches[k].1 : ℝ) := by
    funext σ
    rw [kraus_branch checked inside, acted_scale, Cplx.toComplex_ofReal]
  rw [branchChance, scaled, weight_scale, Real.mul_self_sqrt (checked.nonneg _ member),
    weight_acted _ qs _ _ proper.exact.distinct once owned (unitary _ member) rows, unit, mul_one]
  simp [inside]

theorem chosen_mixture (proper : Proper ψ) (once : qs.Nodup) (owned : qs ⊆ ψ.frame.qudits)
    (unitary : ∀ b ∈ branches, b.2.Unitary) (total : (branches.map Prod.fst).sum = 1) {p : ℝ} (low : 0 ≤ p) (high : p < 1)
    {sel : Selection ℝ} (chosen : Chosen (branchChance ψ.frame qs m.kraus ψ.amplitudes) m.kraus.length p sel) :
    sel.index < branches.length ∧ sel = ⟨sel.index, (branches.map Prod.fst).getD sel.index 0, sel.index, none⟩
      ∧ Falls (fun i => (branches.map Prod.fst).getD i 0) p sel.index := by
  have length : m.kraus.length = branches.length := by rw [checked.kraus, List.length_map]
  have inside := chosen.inside
  rw [length] at inside
  have chances (j : ℕ) (bound : j < branches.length) := branchChance_mixture checked bound proper once owned unitary
  have shares : ∑ j ∈ Finset.range m.kraus.length, branchChance ψ.frame qs m.kraus ψ.amplitudes j = 1 := by
    rw [length, Finset.sum_congr rfl fun j member => chances j (Finset.mem_range.mp member), ← total, ← sum_getD, List.length_map]
  obtain ⟨direct, falls⟩ := chosen_falls chosen low (high.trans_eq shares.symm)
  rw [chances sel.index inside] at direct
  exact ⟨inside, direct, falls.congr fun j le => chances j (le.trans_lt inside)⟩

-- Scaling to norm one undoes the root of the weight.
theorem normalized_mixture (inside : k < branches.length) (sound : Sound ψ) {axes : List ℕ}
    (picks : Picks ψ.frame.qudits qs axes) {c : Dense.Buffers (Cplx ℝ)} (live : c.live = ψ.amplitudes)
    (written : Written ψ qs m.kraus k c.spare) (positive : 0 < branches[k].1) :
    normalized c branches[k].1 = (ψ.buffers.prepare (Layout.of ψ.frame.dims axes) branches[k].2).swap := by
  obtain ⟨full, wave⟩ := written.normalized branches[k].1
  have fits := ψ.buffers.scratch_size.trans sound.full
  have same : (normalized c branches[k].1).live
      = (Layout.of ψ.frame.dims axes).contract branches[k].2 ψ.amplitudes ψ.buffers.scratch := by
    refine wave_injective ψ.frame.qudits _ _ sound.exact.distinct sound.positive full
      ((Layout.contract_size ..).trans fits) fun σ within => ?_
    have root : ((√branches[k].1 : ℝ) : ℂ) ≠ 0 := Complex.ofReal_ne_zero.mpr (Real.sqrt_pos.mpr positive).ne'
    rw [wave σ within, kraus_branch checked inside, acted_scale, Cplx.toComplex_ofReal, mul_div_cancel_right₀ _ root]
    exact (wave_contract picks sound.positive branches[k].2 ψ.amplitudes ψ.buffers.scratch fits σ within).symm
  calc normalized c branches[k].1 = ⟨(normalized c branches[k].1).live, c.live⟩ := rfl
    _ = (ψ.buffers.prepare (Layout.of ψ.frame.dims axes) branches[k].2).swap := by
      rw [same, live]
      rfl

theorem checkAll_kraus : Operator.checkAll qs m.kraus = .ok () := by
  refine (Operator.checkAll_ok qs _).mpr fun x member => ?_
  rw [checked.kraus] at member
  obtain ⟨b, listed, rfl⟩ := List.mem_map.mp member
  exact (Operator.checkAll_ok qs _).mp checked.fits b.2 (List.mem_map_of_mem listed)

theorem weight_positive (w : ℝ) (member : w ∈ branches.map Prod.fst) : 0 ≤ w := by
  obtain ⟨b, listed, rfl⟩ := List.mem_map.mp member
  exact checked.nonneg b listed

theorem weights_nonneg (i : ℕ) : 0 ≤ (branches.map Prod.fst).getD i 0 := by
  rcases lt_or_ge i (branches.map Prod.fst).length with bound | beyond
  · rw [List.getD_eq_getElem _ _ bound]
    exact weight_positive checked _ (List.getElem_mem bound)
  · rw [List.getD_eq_default _ _ beyond]

theorem channelAt_mixtureAt (some : m.kraus ≠ []) (inside : k < branches.length) (key : Option String) (b : Bench (DenseState ℝ))
    (sound : Sound b.state) {axes : List ℕ} (picks : Picks b.state.frame.qudits qs axes)
    (found : b.state.layout qs = .ok (Layout.of b.state.frame.dims axes)) (p : ℝ) {c : Dense.Buffers (Cplx ℝ)}
    (selected : branchState (Layout.of b.state.frame.dims axes) m.kraus b.state.buffers p = (⟨k, branches[k].1, k, none⟩, c))
    (live : c.live = b.state.amplitudes) (written : Written b.state qs m.kraus k c.spare) (positive : 0 < branches[k].1) :
    channelAt qs m.kraus key p b = mixtureAt qs branches key k b := by
  have branch : (branches.map Prod.snd).getD k (Operator.identity 0) = branches[k].2 := by simp [inside]
  rw [channelAt_branchAt some (checkAll_kraus checked) key b found p, branchAt_eq _ _ key p b _ c selected,
    if_neg (not_le.mpr positive), normalized_mixture checked inside sound picks live written positive,
    mixtureAt_eq checked.fits b found k, branch]

end Branches

theorem mixture_as_channel (ψ : DenseState ℝ) (proper : Proper ψ) (name : String) (qs : List Qudit) (once : qs.Nodup)
    (owned : qs ⊆ ψ.frame.qudits) (branches : List (ℝ × Operator ℝ)) (m : Mixture ℝ) (made : Mixture.of name qs branches = .ok m)
    (unitary : ∀ b ∈ branches, b.2.Unitary) (total : (branches.map Prod.fst).sum = 1) (key : Option String) :
    (∀ b : Bench (DenseState ℝ), b.state = ψ → 0 ≤ (drawUnit b.source : ℝ × Source).1 ∧ (drawUnit b.source : ℝ × Source).1 < 1
      ∧ applyChannel qs m.kraus key b
        = channelAt qs m.kraus key (drawUnit b.source).1 { b with source := (drawUnit b.source : ℝ × Source).2 })
    ∧ (∃ d, Weighted.of (branches.map Prod.fst) = .ok d ∧ ∀ b : Bench (DenseState ℝ), b.state = ψ →
      applyMixture qs branches key b = mixtureAt qs branches key (d.draw b.source).1 { b with source := (d.draw b.source).2 })
    ∧ ∃ l, ψ.layout qs = .ok l ∧ ∀ p : ℝ, 0 ≤ p → p < 1 → ∃ k < branches.length,
      (∀ j, Falls (fun i => (branches.map Prod.fst).getD i 0) p j ↔ j = k) ∧ 0 < (branches.map Prod.fst).getD k 0
      ∧ (branchState l m.kraus ψ.buffers p).1 = ⟨k, (branches.map Prod.fst).getD k 0, k, none⟩
      ∧ ∀ b : Bench (DenseState ℝ), b.state = ψ → ∃ φ,
        channelAt qs m.kraus key p b = (.ok (), ⟨b.source, key.elim b.log (b.log.recordBranch · k), φ⟩)
          ∧ mixtureAt qs branches key k b = (.ok (), ⟨b.source, key.elim b.log (b.log.recordBranch · k), φ⟩) := by
  have checked := Mixture.checked_of made
  have krausFits := checkAll_kraus checked
  have some : m.kraus ≠ [] := fun none => checked.some (List.map_eq_nil_iff.mp (checked.kraus.symm.trans none))
  obtain ⟨axes, listed⟩ := proper.exact.axes_found (R := ℝ) qs once owned
  have picks := proper.exact.picks qs axes listed
  have found : ψ.layout qs = .ok (Layout.of ψ.frame.dims axes) := by rw [layout, listed]
  refine ⟨?_, ?_, Layout.of ψ.frame.dims axes, found, fun p low high => ?_⟩
  · rintro b rfl
    obtain ⟨low, high⟩ := Random.drawUnit_bounds b.source
    refine ⟨low, high, ?_⟩
    rw [applyChannel_branchAt some krausFits key b found]
    exact (channelAt_branchAt some krausFits key { b with source := (drawUnit b.source : ℝ × Source).2 } found _).symm
  · obtain ⟨d, drawn⟩ := Weighted.of_positive _ (weight_positive checked) (one_pos.trans_eq total.symm)
    refine ⟨d, drawn, ?_⟩
    rintro b rfl
    exact applyMixture_mixtureAt checked.fits b found d drawn
  · obtain ⟨sel, c, selected, live, written, chosen⟩ := branchState_chosen proper.toSound picks m.kraus some p low
    obtain ⟨inside, direct, falls⟩ := chosen_mixture checked proper once owned unitary total low high chosen
    have own : (branches.map Prod.fst).getD sel.index 0 = branches[sel.index].1 := by simp [inside]
    refine ⟨sel.index, inside, fun j => ⟨fun other => other.unique (weights_nonneg checked) falls, ?_⟩, falls.positive,
      (congrArg Prod.fst selected).trans direct, ?_⟩
    · rintro rfl
      exact falls
    · rintro b rfl
      rw [direct, own] at selected
      have agree := channelAt_mixtureAt checked some inside key b proper.toSound picks found p selected live written
        (falls.positive.trans_eq own)
      have left : mixtureAt qs branches key sel.index b = _ := mixtureAt_eq checked.fits b found sel.index
      exact ⟨_, agree.trans left, left⟩

theorem mixture_as_channel_flipped : ∃ (ψ φ : DenseState ℝ) (m : Mixture ℝ),
    basisState [Qudit.qubit 0, Qudit.qubit 1] 1 ⟨0⟩ ⟨0⟩ = .ok ψ
      ∧ Mixture.of "flip" [Qudit.qubit 0] [(2⁻¹, Operator.identity 2), (0, Gate.pauliY), (2⁻¹, Gate.pauliX)] = .ok m
      ∧ channelAt [Qudit.qubit 0] m.kraus (some "flip") 2⁻¹ ⟨default, {}, ψ⟩
        = (.ok (), ⟨default, ({} : Log).recordBranch "flip" 2, φ⟩)
      ∧ mixtureAt [Qudit.qubit 0] [(2⁻¹, Operator.identity 2), (0, Gate.pauliY), (2⁻¹, Gate.pauliX)] (some "flip") 2 ⟨default, {}, ψ⟩
        = (.ok (), ⟨default, ({} : Log).recordBranch "flip" 2, φ⟩) := by
  obtain ⟨ψ, given, sound, named, -⟩ :=
    basisState_sound [Qudit.qubit 0, Qudit.qubit 1] 1 ⟨0⟩ ⟨0⟩ (by decide) (by decide) (by decide) (by decide)
  have small : size ψ.frame.dims < wordSize := by rw [Frame.dims, named]; decide
  let branches : List (ℝ × Operator ℝ) := [(2⁻¹, Operator.identity 2), (0, Gate.pauliY), (2⁻¹, Gate.pauliX)]
  have made : Mixture.of "flip" [Qudit.qubit 0] branches = .ok ⟨"flip", [Qudit.qubit 0], branches, none⟩ := by
    have joint : Qudit.jointDim [Qudit.qubit 0] = 2 := by decide
    have square (m : Operator ℝ) (rows : m.rows = 2) (cols : m.cols = 2) : Operator.checkSquare [Qudit.qubit 0] m = .ok () :=
      (Operator.checkSquare_ok _ m).mpr ⟨rows.trans joint.symm, cols.trans joint.symm⟩
    have fits : Operator.checkAll [Qudit.qubit 0] (branches.map Prod.snd) = .ok () := by
      simp only [branches, List.map, Operator.checkAll, square (Operator.identity 2) rfl rfl, square Gate.pauliY rfl rfl,
        square Gate.pauliX rfl rfl]
    have total : ¬ (channelTolerance : ℝ) < Scalar.magnitude (Scalar.sum (branches.map Prod.fst) - 1) := by
      norm_num [channelTolerance, Scalar.magnitude, Scalar.sum, branches]
    have weighed : ∀ b ∈ branches, Scalar.isFinite b.1 = true ∧ ¬b.1 < 0 := by
      norm_num [branches, Scalar.isFinite]
    exact (Mixture.of_ok _ _ branches _).mpr ⟨List.cons_ne_nil _ _, weighed, total, fits, rfl⟩
  have unitary : ∀ b ∈ branches, b.2.Unitary := by
    intro b member
    simp only [branches, List.mem_cons, List.not_mem_nil, or_false] at member
    rcases member with rfl | rfl | rfl
    · exact Operator.unitary_identity 2
    · exact Gate.unitary_pauliY
    · exact Gate.unitary_pauliX
  obtain ⟨-, -, l, -, each⟩ := mixture_as_channel ψ ⟨sound, small⟩ "flip" [Qudit.qubit 0] (by decide) (by rw [named]; decide) branches _
    made unitary (by norm_num [branches]) (some "flip")
  obtain ⟨k, -, falls, -, -, ran⟩ := each 2⁻¹ (by norm_num) (by norm_num)
  obtain rfl : 2 = k := (falls 2).mp (by norm_num [Falls, branches, Finset.sum_range_succ])
  obtain ⟨φ, channel, mixture⟩ := ran ⟨default, {}, ψ⟩ rfl
  exact ⟨ψ, φ, _, given, made, channel, mixture⟩

end DenseState

end QuantumRegister
