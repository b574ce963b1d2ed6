import QuantumRegister.Proofs.Dense.Sound

/-!
Whatever is done to a dense state of norm one, as long as it succeeds, leaves a state of norm one:
operations with all their parts and conditions, joint states, other orders of the axes, and the two
parts of any state that is factored.
-/

set_option autoImplicit false

namespace QuantumRegister

open QuantumRegister.MixedRadix
open QuantumRegister.Assignment
open QuantumRegister.Dense
open QuantumRegister.Step
open QuantumRegister.Representation (run performAs performAll)

-- Operations whatever qudits they name.
inductive Operation.Composed : Operation ℝ → Prop
  | gate (g : Gate ℝ) : Composed g.operation
  | measurement (m : Measurement ℝ) : Composed m.operation
  | reset (qs : List Qudit) : Composed (Operation.reset qs)
  | mixture (m : Mixture ℝ) (unitary : ∀ b ∈ m.branches, b.2.Unitary) : Composed m.operation
  | kraus (c : KrausChannel ℝ) : Composed c.operation
  | composite (name : String) (ops : List (Operation ℝ)) (parts : ∀ op ∈ ops, Composed op) :
      Composed (Operation.composite name ops)
  | controlled (key : String) (op : Operation ℝ) (inner : Composed op) : Composed (Operation.controlled key op)

namespace DenseState

open Operation (Composed)

-- Amplitudes for all joint values of the qudits, as many as a machine word can count.
structure Fits (ψ : DenseState ℝ) : Prop where
  exact : ψ.frame.Exact
  full : ψ.amplitudes.size = size ψ.frame.dims
  small : size ψ.frame.dims < wordSize

/-! A state is a factor of itself. -/

structure Whole (F : Frame) (ψ : DenseState ℝ) : Prop extends Sound ψ where
  frame : ψ.frame = F

section Steps

variable {α : Type} {P Q : DenseState ℝ → Prop} {F : Frame}

theorem aside_all {f : Frame} (near : f.Exact) (exact : F.Exact) (perm : F.qudits.Perm f.qudits) (positive : ∀ q ∈ F.qudits, 0 < q.dim)
    (small : size F.dims < wordSize) : Aside f F fun _ => 1 := by
  have none : others F.qudits f.qudits = [] := List.filter_eq_nil_iff.mpr fun q listed => by simp [perm.mem_iff.mp listed]
  have unit : weight [] (fun _ => 1) = 1 := map_one Complex.normSq
  exact ⟨near, exact, near.distinct, exact.distinct, fun _ listed => perm.mem_iff.mpr listed, positive, small, fun _ _ _ => rfl,
    by rw [none, unit]⟩

theorem aside_self (exact : F.Exact) (positive : ∀ q ∈ F.qudits, 0 < q.dim) (small : size F.dims < wordSize) :
    Aside F F fun _ => 1 := aside_all exact exact (.refl _) positive small

theorem Whole.fragment {ψ : DenseState ℝ} (whole : Whole F ψ) : Fragment F F (fun _ => 1) ψ ψ := by
  have full := whole.full
  rw [whole.frame] at full
  exact ⟨whole.frame, whole.frame, ⟨full, full, fun σ _ => (mul_one _).symm⟩, whole.norm⟩

theorem whole_of_fragment {ψ φ : DenseState ℝ} (exact : F.Exact) (fragment : Fragment F F (fun _ => 1) ψ φ) : Whole F ψ := by
  refine ⟨⟨?_, ?_, fragment.norm⟩, fragment.near⟩
  · rw [fragment.near]
    exact exact
  · rw [fragment.near]
    exact fragment.joined.near

theorem leaves_of_tracks (exact : F.Exact) {value : α → α → Prop} {step : Step ℝ (DenseState ℝ) α}
    (tracks : Tracks (Fragment F F fun _ => 1) value step step) : Leaves (Whole F) step (Whole F) := by
  intro b whole v found
  obtain ⟨-, -, -, after⟩ := tracks b b ⟨rfl, rfl, whole.fragment⟩ v found
  exact whole_of_fragment exact after.state

/-! Operations that succeed name distinct qudits of the state. -/

theorem leaves_const {p : Prop} (held : p) (step : Step ℝ (DenseState ℝ) α) : Leaves P step fun _ => p := fun _ _ _ _ => held

theorem leaves_guard (p : Prop) [Decidable p] (e : SimError ℝ) (next : Step ℝ (DenseState ℝ) α) (rest : Leaves P next Q) :
    Leaves P (if p then (throw e : Step ℝ (DenseState ℝ) Unit) >>= fun _ => next else next) Q := by
  split
  · intro b _ v found
    cases found
  · exact rest

theorem leaves_named {p : Prop} {step : Step ℝ (DenseState ℝ) α} (told : Leaves P step fun _ => p) (rest : p → Leaves P step Q) :
    Leaves P step Q := fun b before v found => rest (told b before v found) b before v found

theorem names_of_axes (exact : F.Exact) (ψ : DenseState ℝ) (whole : Whole F ψ) (qs : List Qudit) (axes : List ℕ)
    (found : ψ.frame.axes (R := ℝ) qs = .ok axes) : Names F.qudits qs := by
  rw [whole.frame] at found
  have picks := exact.picks qs axes found
  exact ⟨picks.nodup, picks.subset⟩

theorem names_of_layout (exact : F.Exact) (ψ : DenseState ℝ) (whole : Whole F ψ) (qs : List Qudit) (l : Layout)
    (found : ψ.layout qs = .ok l) : Names F.qudits qs := by
  rw [layout] at found
  cases listed : ψ.frame.axes (R := ℝ) qs with
  | error e =>
      rw [listed] at found
      cases found
  | ok axes => exact names_of_axes exact ψ whole qs axes listed

variable (exact : F.Exact) (positive : ∀ q ∈ F.qudits, 0 < q.dim) (small : size F.dims < wordSize)

include exact positive small

theorem whole_gate (g : Gate ℝ) (name : String) :
    Leaves (Whole F) (performAs name g.targets g.operation : Step ℝ (DenseState ℝ) Unit) (Whole F) := by
  rw [performAs_gate]
  split
  · exact leaves_pure ()
  · have told : Leaves (Whole F) (enact name g.targets (.unitary g.matrix)) fun _ => Names F.qudits g.targets := by
      refine leaves_get _ fun b whole => leaves_ofExcept _ _ fun φ applied => leaves_const ?_ _
      have own : ∀ q ∈ b.state.frame.qudits, 0 < q.dim := whole.positive
      obtain ⟨axes, picks⟩ := (multiplied_of b.state φ _ _ whole.exact own whole.full applied).axes
      rw [whole.frame] at picks
      exact ⟨picks.nodup, picks.subset⟩
    refine leaves_named told fun names => ?_
    have tracks : Tracks (Fragment F F fun _ => 1) Eq (enact name g.targets (.unitary g.matrix))
        (enact name g.targets (.unitary g.matrix)) := tracks_get _ _ fun near far level =>
      follows_applyMatrix (aside_self exact positive small) _ names.inside _ (Gate.unitary_matrix g) near far level
    exact leaves_of_tracks exact tracks

theorem whole_measure (m : Measurement ℝ) :
    Leaves (Whole F) (Representation.measure m : Step ℝ (DenseState ℝ) (List ℕ)) (Whole F) := by
  have told : Leaves (Whole F) (Representation.measure m : Step ℝ (DenseState ℝ) (List ℕ)) fun _ => Names F.qudits m.qudits :=
    leaves_get _ fun b whole => leaves_ofExcept _ _ fun axes found =>
      leaves_const (names_of_axes exact b.state whole m.qudits axes found) _
  exact leaves_named told fun names => leaves_of_tracks exact (follows_measure (aside_self exact positive small) m names.inside)

theorem whole_reset (qs : List Qudit) : Leaves (Whole F) (reset qs : Step ℝ (DenseState ℝ) Unit) (Whole F) := by
  have told : Leaves (Whole F) (reset qs : Step ℝ (DenseState ℝ) Unit) fun _ => Names F.qudits qs :=
    leaves_get _ fun b whole => leaves_ofExcept _ _ fun axes found =>
      leaves_const (names_of_axes exact b.state whole qs axes found) _
  exact leaves_named told fun names => leaves_of_tracks exact (follows_reset (aside_self exact positive small) qs names.inside)

theorem whole_mixture (qs : List Qudit) (branches : List (ℝ × Operator ℝ)) (key : Option String)
    (unitary : ∀ b ∈ branches, b.2.Unitary) : Leaves (Whole F) (applyMixture qs branches key) (Whole F) := by
  have told : Leaves (Whole F) (applyMixture qs branches key) fun _ => Names F.qudits qs :=
    leaves_ofExcept _ _ fun _ _ => leaves_get _ fun b whole => leaves_ofExcept _ _ fun l found =>
      leaves_const (names_of_layout exact b.state whole qs l found) _
  exact leaves_named told fun names =>
    leaves_of_tracks exact (follows_mixture (aside_self exact positive small) qs names.inside branches key unitary)

theorem whole_channel (qs : List Qudit) (ops : List (Operator ℝ)) (key : Option String) :
    Leaves (Whole F) (applyChannel qs ops key) (Whole F) := by
  have told : Leaves (Whole F) (applyChannel qs ops key) fun _ => Names F.qudits qs :=
    leaves_guard _ _ _ (leaves_ofExcept _ _ fun _ _ => leaves_get _ fun b whole => leaves_ofExcept _ _ fun l found =>
      leaves_const (names_of_layout exact b.state whole qs l found) _)
  exact leaves_named told fun names =>
    leaves_of_tracks exact (follows_channel (aside_self exact positive small) qs names.inside ops key)

theorem whole_performAs {op : Operation ℝ} (composed : Composed op) (name : String) :
    Leaves (Whole F) (performAs name op.qudits op : Step ℝ (DenseState ℝ) Unit) (Whole F) := by
  induction composed generalizing name with
  | gate g => exact whole_gate exact positive small g name
  | measurement m =>
      rw [Measurement.operation, performAs]
      exact leaves_bind (whole_measure exact positive small m) fun _ => leaves_pure ()
  | reset qs =>
      rw [Operation.reset, performAs]
      exact whole_reset exact positive small qs
  | mixture m unitary =>
      rw [Mixture.operation, performAs]
      exact whole_mixture exact positive small m.qudits m.branches m.key unitary
  | kraus c =>
      rw [KrausChannel.operation, performAs]
      exact whole_channel exact positive small c.qudits c.ops c.key
  | composite label ops parts ih =>
      have each : ∀ rest : List (Operation ℝ), (∀ op ∈ rest, op ∈ ops) →
          Leaves (Whole F) (performAll rest : Step ℝ (DenseState ℝ) Unit) (Whole F) := by
        intro rest listed
        induction rest with
        | nil => exact leaves_pure ()
        | cons op rest later =>
            rw [performAll]
            refine leaves_bind (ih op (listed op List.mem_cons_self) op.name) fun _ => ?_
            exact later fun other member => listed other (List.mem_cons_of_mem op member)
      rw [Operation.composite, performAs]
      exact each ops fun _ member => member
  | controlled key op inner ih =>
      rw [Operation.controlled, performAs]
      refine leaves_get _ fun b _ => ?_
      split
      · exact ih name
      · exact leaves_pure ()

end Steps

/-! States whose amplitudes a machine word can count, at norm one. -/

structure Proper (ψ : DenseState ℝ) : Prop extends Sound ψ where
  small : size ψ.frame.dims < wordSize

theorem Proper.perform {ψ φ : DenseState ℝ} (proper : Proper ψ) {op : Operation ℝ} (composed : Composed op) (c d : Cells)
    (done : run (Representation.perform op) ψ c = (.ok (), φ, d)) : Proper φ := by
  cases stepped : performAs op.name op.qudits op (Representation.bench ψ c) with
  | mk e b =>
      rw [Representation.run_of (Representation.perform op) ψ c e b stepped] at done
      cases done
      have whole := whole_performAs proper.exact proper.positive proper.small composed op.name (Representation.bench ψ c)
        ⟨proper.toSound, rfl⟩ () (congrArg Prod.fst stepped)
      rw [stepped] at whole
      refine ⟨whole.toSound, ?_⟩
      rw [whole.frame]
      exact proper.small

theorem Proper.kronecker {ψ χ φ : DenseState ℝ} (first : Proper ψ) (second : Proper χ) (done : ψ.kronecker χ = .ok φ)
    (small : size φ.frame.dims < wordSize) : Proper φ := by
  have once : (ψ.frame.qudits ++ χ.frame.qudits).Nodup := by
    rw [DenseState.kronecker] at done
    cases joint : ψ.frame.concat (R := ℝ) χ.frame with
    | error e =>
        rw [joint] at done
        cases done
    | ok f =>
        obtain ⟨exact, listed, -⟩ := Frame.exact_of _ _ _ _ joint
        rw [← listed]
        exact exact.distinct
  obtain ⟨φ', made, sound, -⟩ := kronecker_sound ψ χ first.toSound second.toSound once
  rw [done] at made
  cases made
  exact ⟨sound, small⟩

theorem Proper.transposed {ψ φ : DenseState ℝ} (proper : Proper ψ) (order : List Qudit) (done : ψ.transposed order = .ok φ) :
    Proper φ := by
  obtain ⟨axes, permuted, done⟩ := SimError.bind_ok done
  obtain ⟨f, framed, done⟩ := SimError.bind_ok done
  rw [Frame.permutation] at permuted
  split at permuted
  · cases permuted
  · rename_i length
    rw [not_not] at length
    have picks := proper.exact.picks order axes permuted
    have all := picks_all picks length
    have perm : order.Perm ψ.frame.qudits :=
      (List.subperm_of_subset picks.nodup picks.subset).perm_of_length_le length.ge
    obtain ⟨exact, listed, -⟩ := Frame.exact_of _ _ _ _ framed
    cases done
    have dims : f.dims = Qudit.dims order := congrArg Qudit.dims listed
    refine ⟨⟨exact, ?_, ?_⟩, ?_⟩
    · exact (permute_full picks ψ.amplitudes).trans (congrArg size dims.symm)
    · exact (permute_norm picks all perm ψ.amplitudes proper.full).trans proper.norm
    · exact (congrArg size dims).trans_lt ((size_perm _ _ (perm.map Qudit.dim)).trans_lt proper.small)

-- The parts have norm one even if the state has another norm, and if their product is another state.
theorem factor_proper (ψ single rest : DenseState ℝ) (fits : Fits ψ) (qs : List Qudit) (validate : Bool) (tolerance : ℝ)
    (done : ψ.factor qs validate tolerance = .ok (single, rest)) : Proper single ∧ Proper rest := by
  obtain ⟨axes, found, -⟩ := SimError.bind_ok done
  have picks := fits.exact.picks qs axes found
  obtain ⟨E, M, t, cut⟩ := cut ψ fits.exact fits.full qs picks.nodup picks.subset
  obtain ⟨pivot, pivoted, rfl, rfl, -⟩ := cut.parts done
  obtain ⟨first, second⟩ := cut.sound pivot pivoted
  have whole : size E.dims * size M.dims < wordSize := by
    rw [← size_append]
    refine Nat.lt_of_le_of_lt (Nat.le_of_eq ?_) fits.small
    exact (congrArg size (Qudit.dims_append _ _)).symm.trans (size_perm _ _ (cut.all.map Qudit.dim))
  have inside := (pivot_amp t pivot pivoted).1
  rw [cut.full] at inside
  have positive : 0 < size E.dims * size M.dims := Nat.zero_lt_of_lt inside
  exact ⟨⟨first, (Nat.le_mul_of_pos_right _ (Nat.pos_of_mul_pos_left positive)).trans_lt whole⟩,
    ⟨second, (Nat.le_mul_of_pos_left _ (Nat.pos_of_mul_pos_right positive)).trans_lt whole⟩⟩

/-! Whole runs. -/

-- States that come from states of norm one, whatever the cells hold when each operation begins.
inductive Evolved : DenseState ℝ → Prop
  | given (ψ : DenseState ℝ) (fits : Fits ψ) (norm : ψ.normSq = 1) : Evolved ψ
  | performed (ψ φ : DenseState ℝ) (before : Evolved ψ) (op : Operation ℝ) (composed : Composed op) (c d : Cells)
      (done : run (Representation.perform op) ψ c = (.ok (), φ, d)) : Evolved φ
  | joined (ψ χ φ : DenseState ℝ) (first : Evolved ψ) (second : Evolved χ) (done : ψ.kronecker χ = .ok φ)
      (small : size φ.frame.dims < wordSize) : Evolved φ
  | reordered (ψ φ : DenseState ℝ) (before : Evolved ψ) (order : List Qudit) (done : ψ.transposed order = .ok φ) : Evolved φ
  | factored (ψ single rest φ : DenseState ℝ) (fits : Fits ψ) (qs : List Qudit) (validate : Bool) (tolerance : ℝ)
      (done : ψ.factor qs validate tolerance = .ok (single, rest)) (either : φ = single ∨ φ = rest) : Evolved φ

theorem Evolved.proper {ψ : DenseState ℝ} (evolved : Evolved ψ) : Proper ψ := by
  induction evolved with
  | given ψ fits norm => exact ⟨⟨fits.exact, fits.full, norm⟩, fits.small⟩
  | performed ψ φ _ op composed c d done proper => exact proper.perform composed c d done
  | joined ψ χ φ _ _ done small first second => exact first.kronecker second done small
  | reordered ψ φ _ order done proper => exact proper.transposed order done
  | factored ψ single rest φ fits qs validate tolerance done either =>
      have parts := factor_proper ψ single rest fits qs validate tolerance done
      rcases either with rfl | rfl
      · exact parts.1
      · exact parts.2

theorem evolved_norm (ψ : DenseState ℝ) (evolved : Evolved ψ) : ψ.normSq = 1 := evolved.proper.norm

theorem evolved_norm_pair : ∃ first second joint turned : DenseState ℝ,
    basisState [Qudit.qubit 0] 0 ⟨0⟩ ⟨0⟩ = .ok first ∧ basisState [Qudit.qubit 1] 1 ⟨0⟩ ⟨0⟩ = .ok second
      ∧ first.kronecker second = .ok joint
      ∧ run (Representation.perform (Gate.h (Qudit.qubit 0)).operation) joint {} = (.ok (), turned, {}) ∧ turned.normSq = 1 := by
  obtain ⟨first, made, sound, named, -⟩ :=
    basisState_sound [Qudit.qubit 0] 0 ⟨0⟩ ⟨0⟩ (by decide) (by decide) (by decide) (by decide)
  obtain ⟨second, made', sound', named', -⟩ :=
    basisState_sound [Qudit.qubit 1] 1 ⟨0⟩ ⟨0⟩ (by decide) (by decide) (by decide) (by decide)
  have small : size first.frame.dims < wordSize := by rw [Frame.dims, named]; decide
  have small' : size second.frame.dims < wordSize := by rw [Frame.dims, named']; decide
  obtain ⟨joint, done, whole, order, -⟩ := kronecker_sound first second sound sound' (by rw [named, named']; decide)
  rw [named, named'] at order
  have counted : size joint.frame.dims < wordSize := by rw [Frame.dims, order]; decide
  have evolved : Evolved joint := .joined first second joint (.given first ⟨sound.exact, sound.full, small⟩ sound.norm)
    (.given second ⟨sound'.exact, sound'.full, small'⟩ sound'.norm) done counted
  obtain ⟨axes, found⟩ := whole.exact.axes_found [Qudit.qubit 0] (by decide) (by rw [order]; decide)
  have applied : ∃ turned, joint.applyMatrix [Qudit.qubit 0] (Gate.h (Qudit.qubit 0) : Gate ℝ).matrix = .ok turned := by
    have square : Operator.checkSquare [Qudit.qubit 0] (Gate.h (Qudit.qubit 0) : Gate ℝ).matrix = .ok () := by
      simp [Operator.checkSquare, Gate.matrix, Gate.hadamard, Operator.ofList, Qudit.jointDim, Qudit.dims, Qudit.qubit, size,
        wordSize]
    rw [applyMatrix, square, layout, found]
    exact ⟨_, rfl⟩
  obtain ⟨turned, applied⟩ := applied
  have ran : run (Representation.perform (Gate.h (Qudit.qubit 0)).operation) joint {} = (.ok (), turned, {}) := by
    have plain : (Gate.h (Qudit.qubit 0) : Gate ℝ).isIdentity = false := rfl
    rw [Representation.perform, performAs_gate, if_neg (by rw [plain]; exact Bool.false_ne_true)]
    exact (run_unitary _ [Qudit.qubit 0] _ joint {}).trans (by rw [applied])
  exact ⟨first, second, joint, turned, made, made', done, ran,
    evolved_norm turned (.performed joint turned evolved _ (.gate _) {} {} ran)⟩

end DenseState

end QuantumRegister
