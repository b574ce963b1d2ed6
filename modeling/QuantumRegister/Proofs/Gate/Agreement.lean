import QuantumRegister.Proofs.Gate.Views
import QuantumRegister.Proofs.Stabilizer.Reset
import QuantumRegister.Proofs.Stabilizer.Script

/-!
The descriptions of a gate agree on states. Its generators and its parts, applied one after the
other, leave the amplitudes that its matrix leaves, and so do its generators on a tableau.
-/

set_option autoImplicit false

namespace QuantumRegister

open QuantumRegister.Assignment
open QuantumRegister.Dense
open QuantumRegister.MixedRadix (size)
open QuantumRegister.Random (Source)
open QuantumRegister.Representation (perform performAll performAs)

theorem Bits.fill_bits (L : List Qudit) (σ : Assignment) (below : ∀ q ∈ L, σ q < 2) : fill L σ (bits σ) = σ := by
  funext q
  rw [fill]
  split
  · rename_i listed
    have bound := below q listed
    rw [bits]
    interval_cases σ q <;> rfl
  · rfl

namespace Gate

noncomputable def acts (gs : List (Gate ℝ)) (F : Assignment → ℂ) : Assignment → ℂ :=
  gs.foldl (fun F g => acted g.targets g.matrix F) F

structure Part (g h : Gate ℝ) : Prop extends Names g.targets h.targets where
  moving : h.isIdentity = false

theorem part_iff (g h : Gate ℝ) : g.Part h ↔ (h.targets.Nodup ∧ h.targets ⊆ g.targets) ∧ h.isIdentity = false :=
  ⟨fun part => ⟨⟨part.once, part.inside⟩, part.moving⟩, fun ⟨⟨once, inside⟩, moving⟩ => ⟨⟨once, inside⟩, moving⟩⟩

section Listed

variable (g : Gate ℝ) (once : g.targets.Nodup)

include once

theorem generators_parts (ks : List (Generator Qudit)) (listed : g.generators = some ks) :
    ∀ h ∈ ks.map Generator.gate, g.Part h := by
  cases g with
  | identity q =>
      cases listed
      exact List.forall_mem_nil _
  | h q | x q | y q | z q | s q | sInv q =>
      cases listed
      simp [part_iff, Generator.gate, targets, isIdentity]
  | cx a b | cy a b | cz a b | swap a b =>
      cases listed
      have different : a ≠ b := by simpa [targets] using once
      simp [part_iff, Generator.gate, targets, isIdentity, different, different.symm]
  | t q | tInv q | rx q _ | ry q _ | rz q _ | u q _ _ _ | ccx a b c => cases listed

theorem decomposition_parts (gs : List (Gate ℝ)) (listed : g.decomposition = some gs) : ∀ h ∈ gs, g.Part h := by
  cases g with
  | ccx a b c =>
      cases listed
      obtain ⟨different, apart, beside⟩ : a ≠ b ∧ a ≠ c ∧ b ≠ c := by simpa [targets, and_assoc] using once
      simp [part_iff, targets, isIdentity, different, apart, beside]
  | _ => cases listed

end Listed

theorem acts_matrix (g : Gate ℝ) (qubits : ∀ q ∈ g.targets, q.dim = 2) : Operator.Acts g.targets g.matrix := by
  have joint : size (Qudit.dims g.targets) = 2 ^ g.targets.length :=
    (Bits.index_fill g.targets 0 g.targets 0 (List.Subset.refl _) qubits).1
  have square : g.matrix.rows = 2 ^ g.targets.length ∧ g.matrix.cols = 2 ^ g.targets.length := by
    cases g with
    | identity q =>
        have two := qubits q List.mem_cons_self
        exact ⟨two, two⟩
    | _ => exact ⟨rfl, rfl⟩
  exact ⟨square.1.trans joint.symm, square.2.trans joint.symm⟩

theorem acts_fill (gs : List (Gate ℝ)) (L : List Qudit) (qubits : ∀ q ∈ L, q.dim = 2) (inside : ∀ h ∈ gs, h.targets ⊆ L)
    (F : Assignment → ℂ) (σ : Assignment) (β : Bits) :
    acts gs F (Bits.fill L σ β) = Bits.run gs (fun γ => F (Bits.fill L σ γ)) β := by
  induction gs generalizing F with
  | nil => rfl
  | cons h gs ih =>
      obtain ⟨first, later⟩ := List.forall_mem_cons.mp inside
      have step : (fun γ => acted h.targets h.matrix F (Bits.fill L σ γ)) = Bits.acted h.targets h.matrix fun γ => F (Bits.fill L σ γ) :=
        funext fun γ => Bits.acted_fill _ _ _ _ first (fun q listed => qubits q (first listed)) _ _
      rw [acts, List.foldl_cons, Bits.run, List.foldl_cons, ← step]
      exact ih later _

theorem acts_congr (Q : List Qudit) (gs : List (Gate ℝ)) (distinct : ∀ h ∈ gs, h.targets.Nodup) (F G : Assignment → ℂ)
    (same : ∀ σ, Within Q σ → F σ = G σ) (σ : Assignment) (within : Within Q σ) : acts gs F σ = acts gs G σ := by
  induction gs generalizing F G with
  | nil => exact same σ within
  | cons h gs ih =>
      obtain ⟨first, later⟩ := List.forall_mem_cons.mp distinct
      exact ih later _ _ fun τ inside => acted_congr Q h.targets h.matrix F G first same τ inside

structure Spelled (g : Gate ℝ) (gs : List (Gate ℝ)) : Prop where
  parts : ∀ h ∈ gs, g.Part h
  run : ∀ W, Bits.run gs W = Bits.acted g.targets g.matrix W

section Spelled

variable {g : Gate ℝ} (once : g.targets.Nodup) (qubits : ∀ q ∈ g.targets, q.dim = 2)

include once

theorem spelled_parts (gs : List (Gate ℝ)) (listed : g.decomposition = some gs) : g.Spelled gs :=
  ⟨g.decomposition_parts once gs listed, fun W => Bits.run_parts W g once gs listed⟩

include qubits

theorem spelled_generators (ks : List (Generator Qudit)) (listed : g.generators = some ks) : g.Spelled (ks.map Generator.gate) :=
  ⟨g.generators_parts once ks listed, fun W => Bits.run_view W g once qubits ks listed⟩

omit once in
theorem Spelled.acts {gs : List (Gate ℝ)} (spelled : g.Spelled gs) (F : Assignment → ℂ) (σ : Assignment)
    (within : Within g.targets σ) : acts gs F σ = acted g.targets g.matrix F σ := by
  have below : ∀ q ∈ g.targets, σ q < 2 := fun q listed => (within q listed).trans_eq (qubits q listed)
  rw [← Bits.fill_bits g.targets σ below, acts_fill gs g.targets qubits (fun h member => (spelled.parts h member).inside),
    spelled.run, Bits.acted_fill _ _ _ _ (List.Subset.refl _) qubits]

end Spelled

end Gate

namespace DenseState

noncomputable def applyGates (gs : List (Gate ℝ)) (ψ : DenseState ℝ) : Except (SimError ℝ) (DenseState ℝ) :=
  gs.foldlM (fun φ g => φ.applyMatrix g.targets g.matrix) ψ

theorem leads_gates (gs : List (Gate ℝ)) (ψ : DenseState ℝ) (fits : Fits ψ) (some : 0 < ψ.amplitudes.size)
    (names : ∀ h ∈ gs, Names ψ.frame.qudits h.targets) (square : ∀ h ∈ gs, Operator.Acts h.targets h.matrix) :
    Leads ψ (ψ.applyGates gs) (Gate.acts gs ψ.wave) := by
  induction gs generalizing ψ with
  | nil => exact ⟨ψ, rfl, rfl, fits.full, fun _ _ => rfl⟩
  | cons h gs ih =>
      obtain ⟨first, later⟩ := List.forall_mem_cons.mp names
      obtain ⟨here, rest⟩ := List.forall_mem_cons.mp square
      rw [applyGates, List.foldlM_cons]
      refine leads_bind fits some (leads_apply fits some h.targets first.once first.inside h.matrix here) _ fun φ held still frame wave => ?_
      refine (ih φ held still (by rwa [frame]) rest).congr fun σ within => ?_
      rw [DenseState.wave, frame]
      exact Gate.acts_congr ψ.frame.qudits gs (fun h member => (later h member).once) _ _ wave σ (frame ▸ within)

theorem performAll_gates (gs : List (Gate ℝ)) (moving : ∀ h ∈ gs, h.isIdentity = false) (ψ φ : DenseState ℝ)
    (applied : ψ.applyGates gs = .ok φ) (source : Source) (log : Log) :
    performAll (gs.map Gate.operation) ⟨source, log, ψ⟩ = (.ok (), ⟨source, log, φ⟩) := by
  induction gs generalizing ψ with
  | nil =>
      cases applied
      rfl
  | cons h gs ih =>
      obtain ⟨first, later⟩ := List.forall_mem_cons.mp moving
      rw [applyGates, List.foldlM_cons] at applied
      obtain ⟨χ, here, rest⟩ := SimError.bind_ok applied
      have once : performAs h.operation.name h.targets h.operation ⟨source, log, ψ⟩ = (.ok (), ⟨source, log, χ⟩) := by
        rw [performAs_gate, if_neg (by simp [first])]
        have read : enact h.operation.name h.targets (.unitary h.matrix) ⟨source, log, ψ⟩
            = (Step.ofExcept (ψ.applyMatrix h.targets h.matrix) >>= fun Φ => Step.setState Φ : Step ℝ (DenseState ℝ) Unit)
              ⟨source, log, ψ⟩ := rfl
        rw [read, here]
        rfl
      have named : h.operation.qudits = h.targets := rfl
      rw [List.map_cons, performAll, Step.bind_apply, named, once]
      exact ih later χ rest

def Agrees (ψ : DenseState ℝ) (g : Gate ℝ) (gs : List (Gate ℝ)) : Prop :=
  ∃ φ χ, ψ.applyGates gs = .ok φ ∧ (∀ source log, performAll (gs.map Gate.operation) ⟨source, log, ψ⟩ = (.ok (), ⟨source, log, φ⟩))
    ∧ ψ.applyMatrix g.targets g.matrix = .ok χ ∧ φ.frame = χ.frame ∧ φ.amplitudes = χ.amplitudes

theorem agrees_spelled (g : Gate ℝ) (gs : List (Gate ℝ)) (once : g.targets.Nodup) (qubits : ∀ q ∈ g.targets, q.dim = 2)
    (spelled : g.Spelled gs) (ψ : DenseState ℝ) (fits : Fits ψ) (some : 0 < ψ.amplitudes.size) (owned : g.targets ⊆ ψ.frame.qudits) :
    ψ.Agrees g gs := by
  have names : ∀ h ∈ gs, Names ψ.frame.qudits h.targets := fun h member =>
    (spelled.parts h member).toNames.mono owned
  have square : ∀ h ∈ gs, Operator.Acts h.targets h.matrix := fun h member =>
    h.acts_matrix fun q listed => qubits q ((spelled.parts h member).inside listed)
  have first := leads_gates gs ψ fits some names square
  have second := leads_apply fits some g.targets once owned g.matrix (g.acts_matrix qubits)
  obtain ⟨φ, χ, applied, multiplied, frames, amplitudes⟩ := same_of_leads fits some first second fun σ within =>
    spelled.acts qubits ψ.wave σ fun q listed => within q (owned listed)
  have performed := performAll_gates gs (fun h member => (spelled.parts h member).moving) ψ φ applied
  exact ⟨φ, χ, applied, performed, multiplied, frames, amplitudes⟩

end DenseState

namespace StabilizerState

theorem signal_fill (t : StabilizerState ℝ) (sound : t.Sound) (σ : Assignment) (β : Bits) :
    t.wave (Bits.fill t.frame.qudits σ β) = t.signal β := by
  rw [wave_signal t sound]
  refine Form.across_depends t.frame.qudits t.form fun q listed => ?_
  have read : Bits.fill t.frame.qudits σ β q = (β q).val := if_pos listed
  rw [bits, read]
  rcases Form.bit_cases (β q) with unset | set
  · rw [unset]
    rfl
  · rw [set]
    rfl

def Agrees (t : StabilizerState ℝ) (g : Gate ℝ) : Prop :=
  ∃ u : StabilizerState ℝ, u.frame = t.frame
    ∧ (∀ source log, perform g.operation ⟨source, log, t⟩ = (.ok (), ⟨source, log, u⟩))
    ∧ ∀ σ, Within t.frame.qudits σ → u.wave σ = acted g.targets g.matrix t.wave σ

theorem agrees_generators (g : Gate ℝ) (ks : List (Generator Qudit)) (once : g.targets.Nodup) (listed : g.generators = some ks)
    (t : StabilizerState ℝ) (sound : t.Sound) (qubits : ∀ q ∈ t.frame.qudits, q.dim = 2) (owned : g.targets ⊆ t.frame.qudits) :
    t.Agrees g := by
  have two : ∀ q ∈ g.targets, q.dim = 2 := fun q member => qubits q (owned member)
  have names : ∀ k ∈ ks, Names t.frame.qudits k.labels := fun k member => by
    have part := g.generators_parts once ks listed k.gate (List.mem_map_of_mem member)
    rw [← Generator.targets_gate (R := ℝ) k]
    exact part.toNames.mono owned
  have events : ∀ e ∈ ks.map Event.gate, Names t.frame.qudits e.labels := by simpa [Event.labels] using names
  obtain ⟨-, settled, acted⟩ := Event.replay_alone sound.exact.distinct sound.valid (ks.map .gate) events
  let u := t.setForm (Event.replay t.frame.qudits t.form (ks.map .gate))
  refine ⟨u, rfl, fun source log => ?_, fun σ within => ?_⟩
  · rw [perform, performAs_generators g ks listed]
    split
    · -- The identity has no generators, so that nothing is replayed either.
      have none : ks = [] := by
        cases g with
        | identity q => exact (Option.some.inj listed).symm
        | _ => contradiction
      simp only [u, none]
      rfl
    · exact gates_performed t sound.exact _ _ ks two names source log
  · have below : ∀ q ∈ t.frame.qudits, σ q < 2 := fun q member => (within q member).trans_eq (qubits q member)
    calc u.wave σ = u.signal (bits σ) := wave_signal u ⟨sound.exact, settled⟩ σ
      _ = Event.acts t.signal (ks.map .gate) (bits σ) := (congrFun acted (bits σ)).symm
      _ = Bits.acted g.targets g.matrix t.signal (bits σ) := by
          rw [← Bits.run_view t.signal g once two ks listed, Bits.run_generators t.signal ks fun k member => (names k member).once]
      _ = Dense.acted g.targets g.matrix t.wave (Bits.fill t.frame.qudits σ (bits σ)) := by
          rw [Bits.acted_fill _ _ _ _ owned two]
          exact congrArg (Bits.acted g.targets g.matrix · (bits σ)) (funext fun γ => (signal_fill t sound σ γ).symm)
      _ = _ := by rw [Bits.fill_bits t.frame.qudits σ below]

end StabilizerState

theorem gate_views_agree (g : Gate ℝ) (once : g.targets.Nodup) (qubits : ∀ q ∈ g.targets, q.dim = 2) :
    (∀ ψ : DenseState ℝ, ψ.Fits → 0 < ψ.amplitudes.size → g.targets ⊆ ψ.frame.qudits →
        (∀ ks, g.generators = some ks → ψ.Agrees g (ks.map Generator.gate))
          ∧ ∀ gs, g.decomposition = some gs → ψ.Agrees g gs)
      ∧ ∀ ks, g.generators = some ks → ∀ t : StabilizerState ℝ, t.Sound → (∀ q ∈ t.frame.qudits, q.dim = 2) →
        g.targets ⊆ t.frame.qudits → t.Agrees g := by
  refine ⟨fun ψ fits some owned => ⟨fun ks listed => ?_, fun gs listed => ?_⟩, fun ks listed t sound two owned => ?_⟩
  · exact ψ.agrees_spelled g _ once qubits (Gate.spelled_generators once qubits ks listed) fits some owned
  · exact ψ.agrees_spelled g gs once qubits (Gate.spelled_parts once gs listed) fits some owned
  · exact t.agrees_generators g ks once listed sound two owned

theorem gate_views_agree_pair :
    (∃ (ψ : DenseState ℝ) (gs : List (Gate ℝ)), DenseState.basisState [Qudit.qubit 2, Qudit.qubit 0, Qudit.qubit 1] 3 ⟨0⟩ ⟨0⟩ = .ok ψ
        ∧ gs.length = 15 ∧ ψ.Agrees (.ccx (Qudit.qubit 0) (Qudit.qubit 1) (Qudit.qubit 2)) gs)
      ∧ ∃ t : StabilizerState ℝ, StabilizerState.basisState [Qudit.qubit 1, Qudit.qubit 0] 1 ⟨0⟩ ⟨0⟩ = .ok t
        ∧ t.Agrees (.cy (Qudit.qubit 0) (Qudit.qubit 1)) := by
  constructor
  · obtain ⟨ψ, made, sound, named, -⟩ := DenseState.basisState_sound [Qudit.qubit 2, Qudit.qubit 0, Qudit.qubit 1] 3 ⟨0⟩ ⟨0⟩
      (by decide) (by decide) (by decide) (by decide)
    have small : size ψ.frame.dims < MixedRadix.wordSize := by rw [Frame.dims, named]; decide
    have some : 0 < ψ.amplitudes.size := by rw [sound.full, Frame.dims, named]; decide
    have views := (gate_views_agree (.ccx (Qudit.qubit 0) (Qudit.qubit 1) (Qudit.qubit 2)) (by decide) (by decide)).1 ψ
      ⟨sound.exact, sound.full, small⟩ some (by rw [named]; decide)
    exact ⟨ψ, _, made, rfl, views.2 _ rfl⟩
  · obtain ⟨t, made, proper, named⟩ :=
      StabilizerState.basisState_proper [Qudit.qubit 1, Qudit.qubit 0] 1 ⟨0⟩ ⟨0⟩ (by decide) (by decide) rfl
    have views := (gate_views_agree (.cy (Qudit.qubit 0) (Qudit.qubit 1)) (by decide) (by decide)).2 _ rfl t proper.toSound
    exact ⟨t, made, views (by rw [named]; decide) (by rw [named]; decide)⟩

end QuantumRegister
