import QuantumRegister.Proofs.Dense.Choice
import QuantumRegister.Proofs.Dense.Fragment
import QuantumRegister.Proofs.Selection
import QuantumRegister.Proofs.Tracks

/-!
A step on a factor of a state follows the same step on the whole state: it draws the same numbers,
makes the same records, and leaves a factor of what the other leaves.
-/

set_option autoImplicit false

namespace QuantumRegister.DenseState

open QuantumRegister.MixedRadix
open QuantumRegister.Assignment
open QuantumRegister.Dense
open QuantumRegister.Step

structure Aside (f F : Frame) (ρ : Assignment → ℂ) : Prop where
  near : f.Exact
  far : F.Exact
  spectator : Spectator f.qudits F.qudits ρ

structure Fragment (f F : Frame) (ρ : Assignment → ℂ) (ψ Ψ : DenseState ℝ) : Prop where
  near : ψ.frame = f
  far : Ψ.frame = F
  joined : Joined f.qudits F.qudits ρ ψ.amplitudes Ψ.amplitudes
  norm : ψ.amplitudes.normSq = 1

variable {f F : Frame} {ρ : Assignment → ℂ} {ψ Ψ : DenseState ℝ}

theorem Aside.positive (aside : Aside f F ρ) : ∀ q ∈ f.qudits, 0 < q.dim := fun q listed =>
  aside.spectator.positive q (aside.spectator.inside listed)

theorem Aside.square (aside : Aside f F ρ) (qs : List Qudit) (once : qs.Nodup) (inside : qs ⊆ f.qudits) (m : Operator ℝ)
    (fits : Operator.checkSquare qs m = .ok ()) : m.rows = size (Qudit.dims qs) :=
  square_rows F.qudits qs aside.spectator.far once (fun _ listed => aside.spectator.inside (inside listed)) aside.spectator.positive
    aside.spectator.small m fits

/-! Layouts and products. -/

structure Layouts (f F : Frame) (qs : List Qudit) (axes Axes : List ℕ) : Prop where
  near : Picks f.qudits qs axes
  far : Picks F.qudits qs Axes

theorem Aside.axes (aside : Aside f F ρ) (qs : List Qudit) (inside : qs ⊆ f.qudits) (Axes : List ℕ)
    (found : F.axes (R := ℝ) qs = .ok Axes) : ∃ axes, f.axes (R := ℝ) qs = .ok axes ∧ Layouts f F qs axes Axes := by
  have far := aside.far.picks qs Axes found
  obtain ⟨axes, own⟩ := aside.near.axes_found qs far.nodup inside
  exact ⟨axes, own, aside.near.picks qs axes own, far⟩

theorem Aside.layout (aside : Aside f F ρ) (fragment : Fragment f F ρ ψ Ψ) (qs : List Qudit) (inside : qs ⊆ f.qudits)
    (L : Layout) (found : Ψ.layout qs = .ok L) :
    ∃ axes Axes, Layouts f F qs axes Axes ∧ ψ.layout qs = .ok (Layout.of f.dims axes) ∧ L = Layout.of F.dims Axes := by
  rw [DenseState.layout, fragment.far] at found
  cases listed : F.axes (R := ℝ) qs with
  | error e =>
      rw [listed] at found
      cases found
  | ok Axes =>
      rw [listed] at found
      cases found
      obtain ⟨axes, own, layouts⟩ := aside.axes qs inside Axes listed
      exact ⟨axes, Axes, layouts, by rw [DenseState.layout, fragment.near, own], rfl⟩

structure Paired (f F : Frame) (ρ : Assignment → ℂ) (b B : Dense.Buffers (Cplx ℝ)) : Prop where
  joined : Joined f.qudits F.qudits ρ b.live B.live
  norm : Amplitudes.normSq b.live = 1

section Products

variable {b B : Dense.Buffers (Cplx ℝ)} (aside : Aside f F ρ) {qs : List Qudit} {axes Axes : List ℕ}
  (layouts : Layouts f F qs axes Axes) (m : Operator ℝ)

include aside layouts

theorem Aside.prepare (joined : Joined f.qudits F.qudits ρ b.live B.live) :
    Joined f.qudits F.qudits ρ (b.prepare (Layout.of f.dims axes) m).spare (B.prepare (Layout.of F.dims Axes) m).spare :=
  joined.contract aside.spectator layouts.near layouts.far m _ _ (b.scratch_size.trans joined.near) (B.scratch_size.trans joined.far)

theorem Paired.unitary (paired : Paired f F ρ b B) (unitary : m.Unitary) (rows : m.rows = size (Qudit.dims qs)) :
    Paired f F ρ (b.prepare (Layout.of f.dims axes) m).swap (B.prepare (Layout.of F.dims Axes) m).swap := by
  refine ⟨aside.prepare layouts m paired.joined, ?_⟩
  exact (contract_norm layouts.near b.live paired.joined.near m _ aside.positive (b.scratch_size.trans paired.joined.near)
    unitary rows).trans paired.norm

end Products

theorem Fragment.paired (fragment : Fragment f F ρ ψ Ψ) : Paired f F ρ ψ.buffers Ψ.buffers := ⟨fragment.joined, fragment.norm⟩

theorem Fragment.setBuffers (fragment : Fragment f F ρ ψ Ψ) {b B : Dense.Buffers (Cplx ℝ)} (paired : Paired f F ρ b B) :
    Fragment f F ρ (ψ.setBuffers b) (Ψ.setBuffers B) := ⟨fragment.near, fragment.far, paired.joined, paired.norm⟩

theorem Aside.applyMatrix (aside : Aside f F ρ) (fragment : Fragment f F ρ ψ Ψ) (qs : List Qudit) (inside : qs ⊆ f.qudits)
    (m : Operator ℝ) (unitary : m.Unitary) (Φ : DenseState ℝ) (applied : Ψ.applyMatrix qs m = .ok Φ) :
    ∃ φ, ψ.applyMatrix qs m = .ok φ ∧ Fragment f F ρ φ Φ := by
  rw [DenseState.applyMatrix] at applied
  cases fits : Operator.checkSquare qs m with
  | error e =>
      rw [fits] at applied
      cases applied
  | ok u =>
      cases found : Ψ.layout qs with
      | error e =>
          rw [fits, found] at applied
          cases applied
      | ok L =>
          rw [fits, found] at applied
          cases applied
          obtain ⟨axes, Axes, layouts, own, rfl⟩ := aside.layout fragment qs inside L found
          have rows := aside.square qs layouts.near.nodup inside m fits
          refine ⟨ψ.setBuffers (ψ.buffers.prepare (Layout.of f.dims axes) m).swap, ?_, ?_⟩
          · rw [DenseState.applyMatrix, fits, own]
          · exact fragment.setBuffers (fragment.paired.unitary aside layouts m unitary rows)

variable (aside : Aside f F ρ)

include aside

theorem follows_applyMatrix (qs : List Qudit) (inside : qs ⊆ f.qudits) (m : Operator ℝ) (unitary : m.Unitary)
    (near far : Bench (DenseState ℝ)) (level : Level (Fragment f F ρ) near far) :
    Tracks (Fragment f F ρ) Eq (Step.ofExcept (near.state.applyMatrix qs m) >>= fun φ => setState φ)
      (Step.ofExcept (far.state.applyMatrix qs m) >>= fun φ => setState φ) := by
  refine tracks_bind _ _ (tracks_ofExcept _ _ fun Φ applied => aside.applyMatrix level.state qs inside m unitary Φ applied) ?_
  exact fun φ Φ fragment => tracks_setState φ Φ fragment

theorem follows_layout (qs : List Qudit) (inside : qs ⊆ f.qudits) (near far : Bench (DenseState ℝ))
    (level : Level (Fragment f F ρ) near far) :
    Tracks (Fragment f F ρ)
      (fun l L => ∃ axes Axes, Layouts f F qs axes Axes ∧ l = Layout.of f.dims axes ∧ L = Layout.of F.dims Axes)
      (Step.ofExcept (near.state.layout qs)) (Step.ofExcept (far.state.layout qs)) := by
  refine tracks_ofExcept _ _ fun L found => ?_
  obtain ⟨axes, Axes, layouts, own, rfl⟩ := aside.layout level.state qs inside L found
  exact ⟨_, own, axes, Axes, layouts, rfl, rfl⟩

theorem follows_axes (qs : List Qudit) (inside : qs ⊆ f.qudits) (near far : Bench (DenseState ℝ))
    (level : Level (Fragment f F ρ) near far) :
    Tracks (Fragment f F ρ) (fun axes Axes => Layouts f F qs axes Axes)
      (Step.ofExcept (near.state.frame.axes (R := ℝ) qs)) (Step.ofExcept (far.state.frame.axes (R := ℝ) qs)) := by
  rw [level.state.near, level.state.far]
  exact tracks_ofExcept _ _ fun Axes found => aside.axes qs inside Axes found

/-! Measuring and resetting. -/

theorem marginals (qs : List Qudit) (axes Axes : List ℕ) (layouts : Layouts f F qs axes Axes) (fragment : Fragment f F ρ ψ Ψ) :
    Ψ.marginal Axes = ψ.marginal axes := by
  rw [DenseState.marginal, DenseState.marginal, fragment.near, fragment.far]
  exact fragment.joined.marginal aside.spectator layouts.near layouts.far

theorem follows_observe (qs : List Qudit) (inside : qs ⊆ f.qudits) :
    Tracks (Fragment f F ρ) (fun u v => u = v ∧ ∃ k, v = digits (Qudit.dims qs) k)
      (observe qs : Step ℝ (DenseState ℝ) (List ℕ)) (observe qs) := by
  refine tracks_get _ _ fun near far level => ?_
  have fragment := level.state
  refine tracks_bind _ _ (follows_axes aside qs inside near far level) fun axes Axes layouts => ?_
  have same := marginals aside qs axes Axes layouts fragment
  have own : near.state.marginal axes = Amplitudes.marginal (Qudit.dims f.qudits) axes near.state.amplitudes := by
    rw [DenseState.marginal, fragment.near]
    rfl
  dsimp only
  rw [same]
  have chance : ∀ s, 0 < (near.state.marginal axes).getD (Dense.drawPick (near.state.marginal axes) s).1 0 := by
    intro s
    refine pick_positive _ _ ?_
    rw [own]
    exact marginal_some layouts.near _ fragment.joined.near fragment.norm
  refine tracks_bind _ _ (tracks_draw _ (fun k => 0 < (near.state.marginal axes).getD k 0) chance) fun k k' chosen => ?_
  obtain ⟨rfl, positive⟩ := chosen
  refine tracks_bind _ _ (tracks_setState _ _ ?_) fun _ _ _ => tracks_pure _ _ ⟨rfl, k, rfl⟩
  rw [own] at positive ⊢
  have length : (digits (Qudit.dims qs) k).length = qs.length := by rw [digits_length, Qudit.dims_length]
  have joined := fragment.joined.project aside.spectator layouts.near layouts.far (digits (Qudit.dims qs) k) length
    ((Amplitudes.marginal (Qudit.dims f.qudits) axes near.state.amplitudes).getD k 0)
  have norm := project_norm layouts.near near.state.amplitudes fragment.joined.near k positive
  rw [DenseState.collapsed, DenseState.collapsed, fragment.near, fragment.far]
  exact fragment.setBuffers ⟨joined, norm⟩

theorem follows_resetOne (q : Qudit) (inside : q ∈ f.qudits) :
    Tracks (Fragment f F ρ) Eq (resetOne q : Step ℝ (DenseState ℝ) Unit) (resetOne q) := by
  have single : [q] ⊆ f.qudits := List.cons_subset.mpr ⟨inside, List.nil_subset _⟩
  have positive := aside.positive q inside
  refine tracks_bind _ _ (follows_observe aside [q] single) fun u v found => ?_
  obtain ⟨rfl, k, rfl⟩ := found
  dsimp only
  have below : (digits (Qudit.dims [q]) k).headD 0 < q.dim := Nat.mod_lt _ positive
  split
  · exact tracks_get _ _ fun near far level =>
      follows_applyMatrix aside [q] single _ (Operator.unitary_exchange q.dim 0 _ positive below) near far level
  · exact tracks_pure () () rfl

theorem follows_reset (qs : List Qudit) (inside : qs ⊆ f.qudits) :
    Tracks (Fragment f F ρ) Eq (reset qs : Step ℝ (DenseState ℝ) Unit) (reset qs) := by
  have each : ∀ rest : List Qudit, rest ⊆ f.qudits →
      Tracks (Fragment f F ρ) Eq (rest.forM resetOne : Step ℝ (DenseState ℝ) Unit) (rest.forM resetOne) := by
    intro rest listed
    induction rest with
    | nil => exact tracks_pure () () rfl
    | cons q rest ih =>
        obtain ⟨first, later⟩ := List.cons_subset.mp listed
        exact tracks_bind _ _ (follows_resetOne aside q first) fun _ _ _ => ih later
  refine tracks_get _ _ fun near far level => ?_
  exact tracks_bind _ _ (follows_axes aside qs inside near far level) fun _ _ _ => each qs inside

/-! Random unitaries. -/

omit aside in
theorem boundaries_length (acc : ℝ) (ws : List ℝ) : (Random.boundaries acc ws).1.length = ws.length := by
  induction ws generalizing acc with
  | nil => rfl
  | cons w ws ih => simp only [Random.boundaries, List.length_cons, ih]

omit aside in
theorem draw_lt (ws : List ℝ) (d : Random.Weighted ℝ) (made : Random.Weighted.of ws = .ok d) (s : Random.Source) :
    (d.draw s).1 < ws.length := by
  cases ws with
  | nil => cases made
  | cons w ws =>
      have length : d.boundaries.length = ws.length := by
        simp only [Random.Weighted.of] at made
        split at made
        · cases made
        · split at made
          · cases made
          · split at made
            · cases made
            · cases made
              exact boundaries_length w ws
      have bound (c : ℝ) : d.indexAt c < (w :: ws).length := by
        rw [List.length_cons, ← length]
        exact Nat.lt_succ_of_le (List.takeWhile_prefix _).length_le
      exact bound _

theorem follows_mixture (qs : List Qudit) (inside : qs ⊆ f.qudits) (branches : List (ℝ × Operator ℝ)) (key : Option String)
    (unitary : ∀ b ∈ branches, b.2.Unitary) :
    Tracks (Fragment f F ρ) Eq (applyMixture qs branches key) (applyMixture qs branches key) := by
  refine tracks_bind _ _ (tracks_same _) fun _ _ checked => tracks_get _ _ fun near far level => ?_
  refine tracks_bind _ _ (follows_layout aside qs inside near far level) fun l L found => ?_
  obtain ⟨axes, Axes, layouts, rfl, rfl⟩ := found
  cases made : Random.Weighted.of (branches.map Prod.fst) with
  | error fault => exact tracks_throw _ _
  | ok d =>
      refine tracks_bind _ _ (tracks_draw d.draw (· < branches.length) fun s => ?_) fun k k' chosen => ?_
      · have bound := draw_lt _ d made s
        rwa [List.length_map] at bound
      · obtain ⟨rfl, bound⟩ := chosen
        refine tracks_get _ _ fun near far level => ?_
        refine tracks_bind _ _ (tracks_setState _ _ ?_) fun _ _ _ => tracks_recordBranch key k
        have branch : (branches.map Prod.snd).getD k (Operator.identity 0) = branches[k].2 := by simp [bound]
        have member := List.getElem_mem bound
        have fits := (Operator.checkAll_ok qs _).mp checked.2 branches[k].2 (List.mem_map.mpr ⟨_, member, rfl⟩)
        have rows := aside.square qs layouts.near.nodup inside _ fits
        rw [branch]
        exact level.state.setBuffers (level.state.paired.unitary aside layouts _ (unitary _ member) rows)

/-! Kraus operators. -/

section Channel

variable {qs : List Qudit} {axes Axes : List ℕ} (layouts : Layouts f F qs axes Axes) (ops : List (Operator ℝ))

noncomputable def branchChance (f : Frame) (qs : List Qudit) (ops : List (Operator ℝ)) (a : Amplitudes ℝ) (k : ℕ) : ℝ :=
  weight f.qudits (acted qs (ops.getD k (Operator.identity 0)) (Dense.wave f.qudits a))

include layouts

theorem branches_alike (a : Amplitudes ℝ) :
    Selection.Alike (branchWeight (Layout.of f.dims axes) ops) (branchWeight (Layout.of F.dims Axes) ops)
      (branchChance f qs ops a) (fun b B => b.live = a ∧ Joined f.qudits F.qudits ρ b.live B.live)
      (fun k b B => Joined f.qudits F.qudits ρ b.spare B.spare ∧ Amplitudes.normSq b.spare = branchChance f qs ops a k) := by
  have prepared (b B : Dense.Buffers (Cplx ℝ)) (k : ℕ) (held : b.live = a ∧ Joined f.qudits F.qudits ρ b.live B.live) :
      Joined f.qudits F.qudits ρ (branchWeight (Layout.of f.dims axes) ops b k).2.spare
        (branchWeight (Layout.of F.dims Axes) ops B k).2.spare
      ∧ Amplitudes.normSq (branchWeight (Layout.of f.dims axes) ops b k).2.spare = branchChance f qs ops a k := by
    obtain ⟨rfl, live⟩ := held
    have joined : Joined f.qudits F.qudits ρ (branchWeight (Layout.of f.dims axes) ops b k).2.spare
        (branchWeight (Layout.of F.dims Axes) ops B k).2.spare := aside.prepare layouts _ live
    exact ⟨joined, contract_weight layouts.near b.live _ _ aside.positive (b.scratch_size.trans live.near)⟩
  refine ⟨fun b B k held => (prepared b B k held).2, fun b B k held => ?_, fun b B k held => held, prepared⟩
  obtain ⟨joined, norm⟩ := prepared b B k held
  exact (joined.normSq aside.spectator).trans norm

theorem branchState_alike (some : ops ≠ []) (b B : Dense.Buffers (Cplx ℝ)) (joined : Joined f.qudits F.qudits ρ b.live B.live)
    (p : ℝ) :
    ∃ sel b' B', branchState (Layout.of f.dims axes) ops b p = (sel, b') ∧ branchState (Layout.of F.dims Axes) ops B p = (sel, B')
      ∧ b'.live = b.live ∧ Joined f.qudits F.qudits ρ b'.live B'.live ∧ Joined f.qudits F.qudits ρ b'.spare B'.spare
      ∧ (sel.weight = 0 ∨ sel.weight = Amplitudes.normSq b'.spare) := by
  have alike := branches_alike aside layouts ops b.live
  obtain ⟨sel, b', B', near, far, held, last, weight⟩ :=
    alike.ofDraw p ops.length (List.length_pos_of_ne_nil some) b B ⟨rfl, joined⟩
  simp only [branchState, near, far]
  by_cases again : sel.needsReevaluation
  · rw [if_pos again, if_pos again]
    have asked := alike.asks b' B' sel.index held
    have kept := alike.keeps b' B' sel.index held
    refine ⟨sel, _, _, rfl, rfl, kept.1, kept.2, asked.1, ?_⟩
    rwa [asked.2]
  · rw [if_neg again, if_neg again]
    have same : sel.index = sel.lastEvaluated := by simpa [Selection.needsReevaluation] using again
    refine ⟨sel, b', B', rfl, rfl, held.1, held.2, last.1, ?_⟩
    rwa [last.2, ← same]

end Channel

theorem Paired.normalized (b B : Dense.Buffers (Cplx ℝ)) (joined : Joined f.qudits F.qudits ρ b.spare B.spare)
    (positive : 0 < Amplitudes.normSq b.spare) :
    Paired f F ρ (DenseState.normalized b (Amplitudes.normSq b.spare)) (DenseState.normalized B (Amplitudes.normSq b.spare)) := by
  have scaled := joined.rescale (Scalar.reciprocal (Scalar.sqrt (Amplitudes.normSq b.spare)))
  refine ⟨scaled, ?_⟩
  have unit : (1 / √(Amplitudes.normSq b.spare)) * (1 / √(Amplitudes.normSq b.spare)) * Amplitudes.normSq b.spare = 1 := by
    rw [div_mul_div_comm, one_mul, Real.mul_self_sqrt positive.le, one_div_mul_cancel positive.ne']
  have size := scaled.near
  rw [DenseState.normalized, Buffers.swap, normSq_weight f.qudits _ aside.near.distinct size]
  refine Eq.trans ?_ unit
  rw [weight_congr f.qudits _ _ aside.near.distinct fun σ _ => wave_rescale f.qudits b.spare _ σ, weight_scale,
    ← normSq_weight f.qudits b.spare aside.near.distinct joined.near]
  rfl

theorem follows_channel (qs : List Qudit) (inside : qs ⊆ f.qudits) (ops : List (Operator ℝ)) (key : Option String) :
    Tracks (Fragment f F ρ) Eq (applyChannel qs ops key) (applyChannel qs ops key) := by
  refine tracks_guard _ _ _ _ _ _ id fun some => ?_
  have nonempty : ops ≠ [] := fun none => some (by rw [none]; rfl)
  refine tracks_bind _ _ (tracks_same _) fun _ _ _ => tracks_get _ _ fun near far level => ?_
  refine tracks_bind _ _ (follows_layout aside qs inside near far level) fun l L found => ?_
  obtain ⟨axes, Axes, layouts, rfl, rfl⟩ := found
  refine tracks_bind _ _ (tracks_draw _ (fun _ => True) fun _ => trivial) fun p p' drawn => ?_
  obtain ⟨rfl, -⟩ := drawn
  refine tracks_get _ _ fun near far level => ?_
  obtain ⟨sel, b, B, nearFound, farFound, kept, live, joined, weight⟩ :=
    branchState_alike aside layouts ops nonempty near.state.buffers far.state.buffers level.state.joined p
  have paired : Paired f F ρ b B := ⟨live, kept ▸ level.state.norm⟩
  simp only [nearFound, farFound]
  refine tracks_bind _ _ (tracks_setState _ _ (level.state.setBuffers paired)) fun _ _ _ => ?_
  refine tracks_guard _ _ _ _ _ _ id fun positive => ?_
  rw [not_le] at positive
  have own : sel.weight = Amplitudes.normSq b.spare := weight.resolve_left positive.ne'
  refine tracks_bind _ _ (tracks_setState _ _ ?_) fun _ _ _ => tracks_recordBranch key sel.index
  rw [own] at positive ⊢
  exact level.state.setBuffers (Paired.normalized aside b B joined positive)

end QuantumRegister.DenseState
