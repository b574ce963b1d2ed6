import QuantumRegister.Proofs.Dense.Algebra
import QuantumRegister.Proofs.Dense.Norm

/-!
Kraus channels on a dense state: the operator that is selected is the one whose image becomes the state,
whichever was the last to be written into the scratch array.
-/

set_option autoImplicit false

namespace QuantumRegister.DenseState

open QuantumRegister.MixedRadix
open QuantumRegister.Assignment
open QuantumRegister.Dense
open QuantumRegister.Operator (Acts Complete)
open QuantumRegister.Random (Source drawUnit)
open QuantumRegister.Selection (Chosen)

/-! A channel for a given draw. -/

noncomputable def branchAt (l : Layout) (ops : List (Operator ℝ)) (key : Option String) (p : ℝ) : Step ℝ (DenseState ℝ) Unit := do
  let ψ := (← get).state
  let (sel, b) := branchState l ops ψ.buffers p
  Step.setState (ψ.setBuffers b)
  if sel.weight ≤ 0 then throw (.invalidChannel .branchWithoutWeight)
  Step.setState (ψ.setBuffers (normalized b sel.weight))
  Step.recordBranch key sel.index

noncomputable def channelAt (qs : List Qudit) (ops : List (Operator ℝ)) (key : Option String) (p : ℝ) :
    Step ℝ (DenseState ℝ) Unit := do
  if ops.isEmpty then throw (.invalidChannel .noOperators)
  Step.ofExcept (Operator.checkAll qs ops)
  let l ← Step.ofExcept ((← get).state.layout qs)
  branchAt l ops key p

section Steps

variable {qs : List Qudit} {ops : List (Operator ℝ)} (some : ops ≠ []) (fits : Operator.checkAll qs ops = .ok ())
  (key : Option String) (b : Bench (DenseState ℝ)) {l : Layout} (found : b.state.layout qs = .ok l)

include found

theorem layout_read {α : Type} (next : Layout → Step ℝ (DenseState ℝ) α) :
    (get >>= fun c : Bench (DenseState ℝ) => Step.ofExcept (c.state.layout qs) >>= next) b = next l b := by
  have read : (get >>= fun c : Bench (DenseState ℝ) => Step.ofExcept (c.state.layout qs) >>= next) b
      = (Step.ofExcept (b.state.layout qs) >>= next) b := rfl
  rw [read, found]
  rfl

include some fits

theorem channelAt_branchAt (p : ℝ) : channelAt qs ops key p b = branchAt l ops key p b := by
  have filled : ops.isEmpty = false := by simpa using some
  rw [channelAt, filled, fits]
  exact layout_read b found fun l => branchAt l ops key p

theorem applyChannel_branchAt : applyChannel qs ops key b
    = branchAt l ops key (drawUnit b.source).1 { b with source := (drawUnit b.source : ℝ × Source).2 } := by
  have filled : ops.isEmpty = false := by simpa using some
  rw [applyChannel, filled, fits]
  exact layout_read b found fun l => Step.draw drawUnit >>= branchAt l ops key

end Steps

theorem branchAt_eq (l : Layout) (ops : List (Operator ℝ)) (key : Option String) (p : ℝ) (b : Bench (DenseState ℝ)) (sel : Selection ℝ)
    (c : Dense.Buffers (Cplx ℝ)) (selected : branchState l ops b.state.buffers p = (sel, c)) :
    branchAt l ops key p b = if sel.weight ≤ 0
      then (.error (SimError.invalidChannel .branchWithoutWeight), { b with state := b.state.setBuffers c })
      else (.ok (), ⟨b.source, key.elim b.log (b.log.recordBranch · sel.index), b.state.setBuffers (normalized c sel.weight)⟩) := by
  let rest (sel : Selection ℝ) (c : Dense.Buffers (Cplx ℝ)) : Step ℝ (DenseState ℝ) Unit := do
    Step.setState (b.state.setBuffers c)
    if sel.weight ≤ 0 then throw (.invalidChannel .branchWithoutWeight)
    Step.setState (b.state.setBuffers (normalized c sel.weight))
    Step.recordBranch key sel.index
  have begun : branchAt l ops key p b = rest (branchState l ops b.state.buffers p).1 (branchState l ops b.state.buffers p).2 b := rfl
  rw [begun, selected]
  dsimp only [rest]
  by_cases none : sel.weight ≤ 0
  · rw [if_pos none, if_pos none]
    rfl
  · rw [if_neg none, if_neg none]
    cases key with
    | none => rfl
    | some k => rfl

/-! The selected branch. -/

-- What the scratch array holds after operator `k` was asked for.
structure Written (ψ : DenseState ℝ) (qs : List Qudit) (ops : List (Operator ℝ)) (k : ℕ) (spare : Amplitudes ℝ) : Prop where
  full : spare.size = size ψ.frame.dims
  wave : ∀ σ, Within ψ.frame.qudits σ →
    Dense.wave ψ.frame.qudits spare σ = acted qs (ops.getD k (Operator.identity 0)) ψ.wave σ

section Branches

variable {ψ : DenseState ℝ} {qs : List Qudit} {axes : List ℕ} (valid : Sound ψ) (picks : Picks ψ.frame.qudits qs axes)
  (ops : List (Operator ℝ))

include valid picks

theorem branches_given : Selection.Alike (branchWeight (Layout.of ψ.frame.dims axes) ops)
    (fun (u : Unit) k => (branchChance ψ.frame qs ops ψ.amplitudes k, u)) (branchChance ψ.frame qs ops ψ.amplitudes)
    (fun b _ => b.live = ψ.amplitudes) (fun k b _ => Written ψ qs ops k b.spare) := by
  have scratch (b : Dense.Buffers (Cplx ℝ)) (live : b.live = ψ.amplitudes) : b.scratch.size = size ψ.frame.dims := by
    rw [b.scratch_size, live, valid.full]
  refine ⟨fun b _ k live => ?_, fun _ _ _ _ => rfl, fun _ _ _ live => live, fun b _ k live => ⟨?_, fun σ within => ?_⟩⟩
  · rw [branchChance, ← live]
    exact contract_weight picks b.live _ _ valid.positive (scratch b live)
  · exact (Layout.contract_size _ _ _ _).trans (scratch b live)
  · rw [DenseState.wave, ← live]
    exact wave_contract picks valid.positive _ b.live _ (scratch b live) σ within

theorem branchState_chosen (some : ops ≠ []) (p : ℝ) (low : 0 ≤ p) :
    ∃ sel c, branchState (Layout.of ψ.frame.dims axes) ops ψ.buffers p = (sel, c) ∧ c.live = ψ.amplitudes
      ∧ Written ψ qs ops sel.index c.spare ∧ Chosen (branchChance ψ.frame qs ops ψ.amplitudes) ops.length p sel := by
  have alike := branches_given valid picks ops
  have branches := List.length_pos_of_ne_nil some
  obtain ⟨sel, c, u, near, far, held, last, -⟩ := alike.ofDraw p ops.length branches ψ.buffers () rfl
  have chosen : Chosen (branchChance ψ.frame qs ops ψ.amplitudes) ops.length p sel := by
    obtain ⟨sel', drawn, chosen⟩ := Selection.ofDraw_chosen (fun u _ => u) (fun k _ => weight_nonneg _ _ picks.distinct) low branches ()
    have same : sel = sel' := congrArg Prod.fst (far.symm.trans drawn)
    rw [same]
    exact chosen
  simp only [branchState, near]
  by_cases again : sel.needsReevaluation
  · rw [if_pos again]
    exact ⟨sel, _, rfl, alike.keeps c () sel.index held, alike.asks c () sel.index held, chosen⟩
  · rw [if_neg again]
    have same : sel.index = sel.lastEvaluated := by simpa [Selection.needsReevaluation] using again
    exact ⟨sel, c, rfl, held, same ▸ last, chosen⟩

omit picks in
theorem branchChance_total (once : qs.Nodup) (inside : qs ⊆ ψ.frame.qudits) (complete : Complete (size (Qudit.dims qs)) ops) :
    ∑ k ∈ Finset.range ops.length, branchChance ψ.frame qs ops ψ.amplitudes k = 1 := by
  have norm : weight ψ.frame.qudits ψ.wave = 1 := (normSq_weight _ _ valid.exact.distinct valid.full).symm.trans valid.norm
  rw [Finset.sum_range, ← norm, ← weight_complete _ qs ops ψ.wave valid.exact.distinct once inside complete, ← Fin.sum_univ_fun_getElem]
  refine Finset.sum_congr rfl fun k _ => ?_
  rw [branchChance, List.getD_eq_getElem _ _ k.isLt]
  rfl

end Branches

theorem chosen_falls {w : ℕ → ℝ} {n : ℕ} {p : ℝ} {sel : Selection ℝ} (chosen : Chosen w n p sel) (low : 0 ≤ p)
    (total : p < ∑ i ∈ Finset.range n, w i) : sel = ⟨sel.index, w sel.index, sel.index, none⟩ ∧ Falls w p sel.index := by
  have direct := chosen.direct total
  cases chosen with
  | reached k inside before beyond => exact ⟨rfl, Selection.sum_passed low before, beyond⟩
  | exhausted => cases direct

theorem Written.normalized {ψ : DenseState ℝ} {qs : List Qudit} {ops : List (Operator ℝ)} {k : ℕ} {c : Dense.Buffers (Cplx ℝ)}
    (written : Written ψ qs ops k c.spare) (x : ℝ) :
    (DenseState.normalized c x).live.size = size ψ.frame.dims ∧ ∀ σ, Within ψ.frame.qudits σ →
      Dense.wave ψ.frame.qudits (DenseState.normalized c x).live σ
        = acted qs (ops.getD k (Operator.identity 0)) ψ.wave σ / (√x : ℝ) := by
  refine ⟨?_, fun σ within => ?_⟩
  · exact (Array.size_map).trans written.full
  · have scaled := wave_rescale ψ.frame.qudits c.spare (Scalar.reciprocal (Scalar.sqrt x)) σ
    refine scaled.trans ?_
    rw [written.wave σ within, div_eq_mul_one_div]
    congr 1
    exact Complex.ofReal_div 1 (√x)

theorem channel_faithful (ψ : DenseState ℝ) (proper : Proper ψ) (qs : List Qudit) (once : qs.Nodup) (inside : qs ⊆ ψ.frame.qudits)
    (ops : List (Operator ℝ)) (some : ops ≠ []) (acts : ∀ m ∈ ops, Acts qs m) (key : Option String) :
    (∀ b : Bench (DenseState ℝ), b.state = ψ → 0 ≤ (drawUnit b.source : ℝ × Source).1 ∧ (drawUnit b.source : ℝ × Source).1 < 1
      ∧ applyChannel qs ops key b = channelAt qs ops key (drawUnit b.source).1 { b with source := (drawUnit b.source : ℝ × Source).2 })
    ∧ ∀ p : ℝ, 0 ≤ p → p < 1 → ∀ b : Bench (DenseState ℝ), b.state = ψ →
      ((∃ k < ops.length, 0 < branchChance ψ.frame qs ops ψ.amplitudes k) → ∃ sel φ,
        Chosen (branchChance ψ.frame qs ops ψ.amplitudes) ops.length p sel
          ∧ channelAt qs ops key p b = (.ok (), ⟨b.source, key.elim b.log (b.log.recordBranch · sel.index), φ⟩)
          ∧ φ.frame = ψ.frame ∧ φ.amplitudes.size = ψ.amplitudes.size ∧ ∀ σ, Within ψ.frame.qudits σ →
            φ.wave σ = acted qs (ops.getD sel.index (Operator.identity 0)) ψ.wave σ
              / (√(branchChance ψ.frame qs ops ψ.amplitudes sel.index) : ℝ))
      ∧ (Complete (size (Qudit.dims qs)) ops → (∃ k < ops.length, 0 < branchChance ψ.frame qs ops ψ.amplitudes k)
        ∧ ∀ sel, Chosen (branchChance ψ.frame qs ops ψ.amplitudes) ops.length p sel → sel.fallback = none)
      ∧ ((∀ k < ops.length, branchChance ψ.frame qs ops ψ.amplitudes k = 0) → ∃ φ,
        channelAt qs ops key p b = (.error (.invalidChannel .branchWithoutWeight), ⟨b.source, b.log, φ⟩)
          ∧ φ.frame = ψ.frame ∧ φ.amplitudes = ψ.amplitudes) := by
  have joint := jointDim_eq ψ.frame.qudits qs proper.exact.distinct once inside proper.positive proper.small
  have fits := (Operator.checkAll_ok qs ops).mpr fun m member => (acts m member).square joint
  obtain ⟨axes, listed⟩ := proper.exact.axes_found (R := ℝ) qs once inside
  have picks := proper.exact.picks qs axes listed
  have found : ψ.layout qs = .ok (Layout.of ψ.frame.dims axes) := by rw [layout, listed]
  refine ⟨?_, ?_⟩
  · rintro b rfl
    obtain ⟨low, high⟩ := Random.drawUnit_bounds b.source
    refine ⟨low, high, ?_⟩
    rw [applyChannel_branchAt some fits key b found]
    exact (channelAt_branchAt some fits key { b with source := (drawUnit b.source : ℝ × Source).2 } found _).symm
  · rintro p low high b rfl
    obtain ⟨sel, c, selected, live, written, chosen⟩ := branchState_chosen proper.toSound picks ops some p low
    have ran := channelAt_branchAt some fits key b found p
    rw [branchAt_eq _ ops key p b sel c selected] at ran
    refine ⟨fun heavy => ?_, fun complete => ?_, fun empty => ?_⟩
    · have positive : 0 < sel.weight := (chosen.positive low heavy).trans_eq chosen.weight_eq.symm
      rw [if_neg (not_le.mpr positive)] at ran
      obtain ⟨full, wave⟩ := written.normalized sel.weight
      refine ⟨sel, _, chosen, ran, rfl, full.trans proper.full.symm, fun σ within => ?_⟩
      rw [← chosen.weight_eq]
      exact wave σ within
    · have total := branchChance_total proper.toSound ops once inside complete
      obtain ⟨k, member, nonzero⟩ := Finset.exists_ne_zero_of_sum_ne_zero (total.trans_ne one_ne_zero)
      have nonneg : 0 ≤ branchChance b.state.frame qs ops b.state.amplitudes k := weight_nonneg _ _ picks.distinct
      refine ⟨⟨k, Finset.mem_range.mp member, lt_of_le_of_ne nonneg nonzero.symm⟩, fun sel chosen => chosen.direct ?_⟩
      rwa [total]
    · have none : sel.weight ≤ 0 := (chosen.weight_eq.trans (empty sel.index chosen.inside)).le
      rw [if_pos none] at ran
      exact ⟨_, ran, rfl, live⟩

theorem channel_faithful_dephased : ∃ (ψ φ : DenseState ℝ) (sel : Selection ℝ),
    basisState [Qudit.qubit 0, Qudit.qubit 1] 1 ⟨0⟩ ⟨0⟩ = .ok ψ
      ∧ channelAt [Qudit.qubit 0] [Operator.ofList 2 [1, 0, 0, 0], Operator.ofList 2 [0, 0, 0, 1]] (some "value") 0 ⟨default, {}, ψ⟩
        = (.ok (), ⟨default, ({} : Log).recordBranch "value" sel.index, φ⟩)
      ∧ sel.fallback = none := by
  obtain ⟨ψ, made, sound, named, -⟩ :=
    basisState_sound [Qudit.qubit 0, Qudit.qubit 1] 1 ⟨0⟩ ⟨0⟩ (by decide) (by decide) (by decide) (by decide)
  have small : size ψ.frame.dims < wordSize := by rw [Frame.dims, named]; decide
  let ops : List (Operator ℝ) := [Operator.ofList 2 [1, 0, 0, 0], Operator.ofList 2 [0, 0, 0, 1]]
  have acts : ∀ m ∈ ops, Acts [Qudit.qubit 0] m := by
    intro m member
    simp only [ops, List.mem_cons, List.not_mem_nil, or_false] at member
    rcases member with rfl | rfl
    · exact ⟨rfl, rfl⟩
    · exact ⟨rfl, rfl⟩
  have complete : Complete (size (Qudit.dims [Qudit.qubit 0])) ops := by
    have two : size (Qudit.dims [Qudit.qubit 0]) = 2 := by decide
    rw [two]
    intro j first k second
    interval_cases j <;> interval_cases k <;>
      simp [ops, Finset.sum_range_succ, Operator.entry, Operator.ofList, Grid.getD]
  obtain ⟨-, each⟩ := channel_faithful ψ ⟨sound, small⟩ [Qudit.qubit 0] (by decide) (by rw [named]; decide) ops (List.cons_ne_nil _ _) acts
    (some "value")
  obtain ⟨done, never, -⟩ := each 0 le_rfl one_pos ⟨default, {}, ψ⟩ rfl
  obtain ⟨heavy, direct⟩ := never complete
  obtain ⟨sel, φ, chosen, ran, -⟩ := done heavy
  exact ⟨ψ, φ, sel, made, ran, direct sel chosen⟩

end QuantumRegister.DenseState
