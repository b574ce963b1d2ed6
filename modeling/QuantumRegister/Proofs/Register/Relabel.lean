import QuantumRegister.Proofs.Register.Durable
import QuantumRegister.Proofs.Register.Exchange
import QuantumRegister.Proofs.Stabilizer.Reset

/-!
Exchanging two labels is a swap. The joint state of the register afterwards has the amplitudes of the
one before with the values of the two qudits exchanged, as after the matrix or the three controlled
flips of a swap, while nothing moves between the slots of the register.
-/

set_option autoImplicit false

namespace QuantumRegister

open QuantumRegister.Assignment
open QuantumRegister.Dense
open QuantumRegister.Representation (performAll)

namespace Register

/-! What the register keeps. -/

section Bookkeeping

variable {R S : Type} [Scalar R] [Representation R S] {s : Settings R} {w : Workspace R S}

structure Relabelled (a b : Qudit) (w w' : Workspace R S) : Prop where
  cells : w'.cells = w.cells
  source : w'.register.source = w.register.source
  log : w'.register.log = w.register.log
  qudits : w'.register.qudits = w.register.qudits
  slots : w'.register.slots.map Representation.qudits
    = w.register.slots.map fun t => (Representation.qudits t).map (Equiv.swap a b)
  groups : w'.register.groups = w.register.groups.map (List.map (Equiv.swap a b))
  owner : ∀ q, w'.register.owner q = w.register.owner (Equiv.swap a b q)

theorem Reached.validated (reached : Reached s w) : ∃ qs, s.validate = .ok qs := by
  induction reached with
  | new r c c' made =>
      obtain ⟨qs, checked, -⟩ := SimError.bind_ok made
      exact ⟨qs, checked⟩
  | apply w op _ held => exact held
  | applyAll w ops _ held => exact held
  | copy w deep _ held => exact held
  | meanwhile w c _ held => exact held

variable [LawfulRepresentation R S]

theorem Reached.positive (reached : Reached s w) : ∀ q ∈ w.register.qudits, 0 < q.dim := by
  obtain ⟨qs, checked⟩ := reached.validated
  have valid := s.validate_ok qs checked
  have same : qs = w.register.qudits := Option.some.inj (valid.order.symm.trans reached.arena.order)
  exact same ▸ valid.positive

theorem Arena.apply_swap (valid : Arena s w.register) {a b : Qudit} (names : Names w.register.qudits [a, b]) (flat : a.dim = b.dim) :
    ∃ r', w.register.exchange a b = .ok r'
      ∧ Register.apply (Gate.swap a b : Gate R).operation w = (.ok (), { w with register := r' })
      ∧ Relabelled a b w { w with register := r' } := by
  obtain ⟨r', done⟩ := valid.exchange_done a b flat names.first names.second
  have exchanged := valid.exchanged a b done
  obtain ⟨source, log, free⟩ := exchange_kept done
  have slots := exchanged.labels free
  refine ⟨r', done, ?_, rfl, source, log, exchanged.qudits, slots, ?_, ?_⟩
  · rw [Register.apply_swap, act_bind_apply, change, valid.checkTargets_done [a, b] names]
    simp only [bind, Except.bind, pure, Except.pure, change, done]
  · have groups := congrArg Slots.live slots
    rw [Slots.live_map, Slots.live_map] at groups
    rw [Register.groups, Register.groups, List.map_map]
    exact groups
  · exact valid.swapped_owner ((valid.exchange a b).2 r' done) exchanged names.first names.second

end Bookkeeping

/-! Amplitudes. -/

theorem Reached.swapped_dense {s : Settings ℝ} {w : Workspace ℝ (DenseState ℝ)} {r' : Register ℝ (DenseState ℝ)}
    (reached : Reached s w) {a b : Qudit} (names : Names w.register.qudits [a, b]) (flat : a.dim = b.dim)
    (done : w.register.exchange a b = .ok r') : ∃ m m', w.register.merged = .ok m ∧ r'.merged = .ok m'
      ∧ Readable.Full m ∧ Readable.Full m' ∧ m.frame.qudits = w.register.qudits ∧ m'.frame.qudits = w.register.qudits
      ∧ ∀ σ, Within w.register.qudits σ → m'.wave σ = m.wave (swapped a b σ) := by
  have arena := reached.arena
  have each := reached.each DenseState.durable_full
  have exchanged := arena.exchanged a b done
  have after := (arena.exchange a b).2 r' done
  obtain ⟨m, merged, full, order, wave⟩ := DenseState.merges_full.merged arena each.get
  obtain ⟨m', merged', full', order', wave'⟩ :=
    DenseState.merges_full.merged after (each_exchange DenseState.durable_full each a b done).get
  rw [exchanged.qudits] at order' wave'
  refine ⟨m, m', merged, merged', full, full', order, order', fun σ within => ?_⟩
  rw [wave' σ within, wave _ (within_swapped a b _ flat names.first names.second σ within)]
  exact exchanged.joint flat σ

theorem Reached.swapped_stabilizer {s : Settings ℝ} {w : Workspace ℝ (StabilizerState ℝ)} {r' : Register ℝ (StabilizerState ℝ)}
    (reached : Reached s w) {a b : Qudit} (done : w.register.exchange a b = .ok r') :
    ∃ m m', w.register.merged = .ok m ∧ r'.merged = .ok m' ∧ m.Sound ∧ m'.Sound ∧ m.frame.qudits = w.register.qudits
      ∧ m'.frame.qudits = w.register.qudits ∧ ∀ β, m'.signal β = m.signal (β ∘ Equiv.swap a b) := by
  have arena := reached.arena
  have each := reached.each StabilizerState.durable_sound
  have exchanged := arena.exchanged a b done
  have after := (arena.exchange a b).2 r' done
  obtain ⟨m, merged, sound, order, signal⟩ := StabilizerState.merges_signal.merged arena each.get
  obtain ⟨m', merged', sound', order', signal'⟩ :=
    StabilizerState.merges_signal.merged after (each_exchange StabilizerState.durable_sound each a b done).get
  refine ⟨m, m', merged, merged', sound, sound', order, order'.trans exchanged.qudits, fun β => ?_⟩
  rw [signal' β trivial, signal _ trivial, ← Slots.whole_at, ← Slots.whole_at]
  exact exchanged.whole β

end Register

/-! The swap as a matrix, and as three controlled flips. -/

theorem DenseState.exchange_multiplied (ψ χ : DenseState ℝ) (a b : Qudit) (full : Readable.Full ψ) (full' : Readable.Full χ)
    (same : χ.frame.qudits = ψ.frame.qudits) (positive : ∀ q ∈ ψ.frame.qudits, 0 < q.dim) (names : Names ψ.frame.qudits [a, b])
    (first : a.dim = 2) (second : b.dim = 2)
    (swaps : ∀ σ, Within ψ.frame.qudits σ → χ.wave σ = ψ.wave (swapped a b σ)) :
    ∃ φ, ψ.applyMatrix [a, b] (Gate.swap a b).matrix = .ok φ ∧ φ.amplitudes = χ.amplitudes := by
  have joint : Qudit.jointDim [a, b] = 4 := by
    rw [Qudit.jointDim, Qudit.dims, List.map_cons, List.map_singleton, first, second]
    rfl
  have square := (Operator.checkSquare_ok [a, b] (Operator.exchange 4 1 2 : Operator ℝ)).mpr ⟨joint.symm, joint.symm⟩
  obtain ⟨φ, applied⟩ := applyMatrix_done ψ [a, b] _ full.1 names.once names.inside square
  have multiplied := multiplied_of ψ φ [a, b] _ full.1 positive full.2 applied
  refine ⟨φ, applied, wave_injective ψ.frame.qudits _ _ full.1.distinct positive multiplied.full ?_ fun σ within => ?_⟩
  · exact full'.2.trans (congrArg (fun L => MixedRadix.size (Qudit.dims L)) same)
  · have aInside := within a names.first
    have bInside := within b names.second
    rw [multiplied.wave σ within, acted_exchange a b names.different first second _ σ (first ▸ aInside) (second ▸ bInside)]
    have there := swaps σ within
    rw [DenseState.wave, same] at there
    exact there.symm

namespace StabilizerState

def flips {R : Type} [Scalar R] (a b : Qudit) : List (Operation R) :=
  [(Gate.cx a b).operation, (Gate.cx b a).operation, (Gate.cx a b).operation]

theorem performAll_flips (t : StabilizerState ℝ) (exact : t.frame.Exact) (source : Random.Source) (log : Log) (pairs : List (Qudit × Qudit))
    (own : ∀ p ∈ pairs, Names t.frame.qudits [p.1, p.2] ∧ p.1.dim = 2 ∧ p.2.dim = 2) :
    performAll (pairs.map fun p => (Gate.cx p.1 p.2).operation) ⟨source, log, t⟩
      = (.ok (), ⟨source, log, t.setForm (Event.replay t.frame.qudits t.form (pairs.map fun p => .gate (.cx p.1 p.2)))⟩) := by
  induction pairs generalizing t with
  | nil => rfl
  | cons p pairs ih =>
      obtain ⟨⟨names, first, second⟩, later⟩ := List.forall_mem_cons.mp own
      have once := gates_performed t exact (Gate.cx p.1 p.2 : Gate ℝ).operation.name (Gate.cx p.1 p.2 : Gate ℝ).operation.qudits
        [.cx p.1 p.2] (List.forall_mem_cons.mpr ⟨first, List.forall_mem_singleton.mpr second⟩)
        (List.forall_mem_singleton.mpr names) source log
      have moving : ¬(Gate.cx p.1 p.2 : Gate ℝ).isIdentity = true := Bool.false_ne_true
      rw [List.map_cons, performAll, Step.bind_apply, performAs_generators _ _ rfl, if_neg moving, once]
      exact ih (t.setForm _) exact later

theorem flips_performed (t : StabilizerState ℝ) (exact : t.frame.Exact) (a b : Qudit) (names : Names t.frame.qudits [a, b])
    (first : a.dim = 2) (second : b.dim = 2) (source : Random.Source) (log : Log) : performAll (flips a b) ⟨source, log, t⟩
      = (.ok (), ⟨source, log, t.setForm (Event.replay t.frame.qudits t.form (Register.exchangeScript a b))⟩) := by
  refine performAll_flips t exact source log [(a, b), (b, a), (a, b)] ?_
  exact List.forall_mem_cons.mpr ⟨⟨names, first, second⟩,
    List.forall_mem_cons.mpr ⟨⟨names.turned, second, first⟩, List.forall_mem_singleton.mpr ⟨names, first, second⟩⟩⟩

theorem exchange_flipped (t u : StabilizerState ℝ) (a b : Qudit) (sound : t.Sound) (sound' : u.Sound)
    (same : u.frame.qudits = t.frame.qudits) (names : Names t.frame.qudits [a, b]) (first : a.dim = 2) (second : b.dim = 2)
    (swaps : ∀ β, u.signal β = t.signal (β ∘ Equiv.swap a b)) :
    ∃ φ : StabilizerState ℝ, (∀ source log, performAll (flips a b) ⟨source, log, t⟩ = (.ok (), ⟨source, log, φ⟩))
      ∧ ∀ bits, φ.form.amplitude? bits = u.form.amplitude? bits := by
  obtain ⟨-, settled, acted⟩ := Event.replay_alone sound.exact.distinct sound.valid _ (Register.exchangeScript_names names)
  refine ⟨_, flips_performed t sound.exact a b names first second, ?_⟩
  refine Register.amplitude_across t.frame.qudits sound.exact.distinct _ _ settled (same ▸ sound'.valid) (funext fun β => ?_)
  have moved := congrFun acted β
  rw [Register.exchangeScript, Event.acts_exchange _ a b names.different] at moved
  have there := swaps β
  rw [signal, same] at there
  exact moved.symm.trans there.symm

end StabilizerState

open Register (Reached Relabelled)

structure Exchangeable {R S : Type} [Scalar R] [Representation R S] (s : Settings R) (w : Workspace R S) (a b : Qudit) : Prop where
  reached : Reached s w
  different : a ≠ b
  first : a ∈ w.register.qudits
  second : b ∈ w.register.qudits
  flat : a.dim = b.dim

theorem Exchangeable.names {R S : Type} [Scalar R] [Representation R S] {s : Settings R} {w : Workspace R S} {a b : Qudit}
    (pair : Exchangeable s w a b) : Names w.register.qudits [a, b] :=
  ⟨by simpa using pair.different, List.cons_subset.mpr ⟨pair.first, List.cons_subset.mpr ⟨pair.second, List.nil_subset _⟩⟩⟩

theorem relabelling_swaps :
    (∀ (R S : Type) [Scalar R] [Representation R S] [LawfulRepresentation R S] (s : Settings R) (w : Workspace R S) (a b : Qudit),
        Exchangeable s w a b → ∃ w', Register.apply (Gate.swap a b).operation w = (.ok (), w') ∧ Relabelled a b w w')
      ∧ (∀ (s : Settings ℝ) (w : Workspace ℝ (DenseState ℝ)) (a b : Qudit), Exchangeable s w a b →
        ∃ w' m m', Register.apply (Gate.swap a b).operation w = (.ok (), w')
          ∧ w.register.merged = .ok m ∧ m.frame.qudits = w.register.qudits
          ∧ w'.register.merged = .ok m' ∧ m'.frame.qudits = w.register.qudits
          ∧ (∀ σ, Within w.register.qudits σ → m'.wave σ = m.wave (swapped a b σ))
          ∧ (a.dim = 2 → ∃ φ, m.applyMatrix [a, b] (Gate.swap a b).matrix = .ok φ ∧ φ.amplitudes = m'.amplitudes))
      ∧ ∀ (s : Settings ℝ) (w : Workspace ℝ (StabilizerState ℝ)) (a b : Qudit), Exchangeable s w a b →
        ∃ w' m m', Register.apply (Gate.swap a b).operation w = (.ok (), w')
          ∧ w.register.merged = .ok m ∧ m.frame.qudits = w.register.qudits
          ∧ w'.register.merged = .ok m' ∧ m'.frame.qudits = w.register.qudits
          ∧ (∀ σ, Within w.register.qudits σ → m'.wave σ = m.wave (swapped a b σ))
          ∧ (a.dim = 2 → ∃ φ, (∀ source log, performAll (StabilizerState.flips a b) ⟨source, log, m⟩ = (.ok (), ⟨source, log, φ⟩))
            ∧ ∀ bits, φ.form.amplitude? bits = m'.form.amplitude? bits) := by
  refine ⟨fun R S _ _ _ s w a b pair => ?_, fun s w a b pair => ?_, fun s w a b pair => ?_⟩
  · obtain ⟨r', -, applied, kept⟩ := pair.reached.arena.apply_swap pair.names pair.flat
    exact ⟨_, applied, kept⟩
  · obtain ⟨r', done, applied, -⟩ := pair.reached.arena.apply_swap pair.names pair.flat
    obtain ⟨m, m', merged, merged', full, full', order, order', swaps⟩ := pair.reached.swapped_dense pair.names pair.flat done
    refine ⟨_, m, m', applied, merged, order, merged', order', swaps, fun two => ?_⟩
    rw [← order] at swaps
    exact m.exchange_multiplied m' a b full full' (order'.trans order.symm) (order ▸ pair.reached.positive) (order ▸ pair.names) two
      (pair.flat ▸ two) swaps
  · obtain ⟨r', done, applied, -⟩ := pair.reached.arena.apply_swap pair.names pair.flat
    obtain ⟨m, m', merged, merged', sound, sound', order, order', swaps⟩ := pair.reached.swapped_stabilizer done
    refine ⟨_, m, m', applied, merged, order, merged', order', fun σ _ => ?_, fun two => ?_⟩
    · rw [StabilizerState.wave_signal m' sound', StabilizerState.wave_signal m sound, swaps]
      rfl
    · exact m.exchange_flipped m' a b sound sound' (order'.trans order.symm) (order ▸ pair.names) two (pair.flat ▸ two) swaps

theorem pair_exchangeable {S : Type} [Representation ℝ S] [LawfulRepresentation ℝ S] {w : Workspace ℝ S}
    (reached : Reached pairSettings w) : Exchangeable pairSettings w (Qudit.qubit 0) (Qudit.qubit 1) := by
  have listed : w.register.qudits = [Qudit.qubit 0, Qudit.qubit 1] := Option.some.inj reached.arena.order.symm
  exact ⟨reached, by decide, listed ▸ List.mem_cons_self, listed ▸ List.mem_cons_of_mem _ List.mem_cons_self, rfl⟩

theorem relabelling_swaps_pair :
    (∃ (w w' : Workspace ℝ (DenseState ℝ)) (m m' φ : DenseState ℝ), Exchangeable pairSettings w (Qudit.qubit 0) (Qudit.qubit 1)
        ∧ Relabelled (Qudit.qubit 0) (Qudit.qubit 1) w w' ∧ w.register.merged = .ok m ∧ w'.register.merged = .ok m'
        ∧ m.applyMatrix [Qudit.qubit 0, Qudit.qubit 1] (Operator.exchange 4 1 2) = .ok φ ∧ φ.amplitudes = m'.amplitudes)
      ∧ ∃ (w w' : Workspace ℝ (StabilizerState ℝ)) (m m' φ : StabilizerState ℝ),
        Exchangeable pairSettings w (Qudit.qubit 0) (Qudit.qubit 1) ∧ Relabelled (Qudit.qubit 0) (Qudit.qubit 1) w w'
        ∧ w.register.merged = .ok m ∧ w'.register.merged = .ok m'
        ∧ (∀ source log, performAll (StabilizerState.flips (Qudit.qubit 0) (Qudit.qubit 1)) ⟨source, log, m⟩ = (.ok (), ⟨source, log, φ⟩))
        ∧ ∀ bits, φ.form.amplitude? bits = m'.form.amplitude? bits := by
  obtain ⟨r, c, made⟩ := pair_dense
  have dense := pair_exchangeable (Reached.apply _ (Gate.h (Qudit.qubit 0)).operation (.new r {} c made))
  have stabilizer := pair_exchangeable (Reached.apply _ (Gate.h (Qudit.qubit 0)).operation (.new _ {} _ pairRegister_new))
  obtain ⟨kept, multiplied, flipped⟩ := relabelling_swaps
  refine ⟨?_, ?_⟩
  · obtain ⟨w', applied, relabelled⟩ := kept _ _ _ _ _ _ dense
    obtain ⟨v, m, m', applied', merged, -, merged', -, -, matrix⟩ := multiplied _ _ _ _ dense
    obtain ⟨φ, done, same⟩ := matrix rfl
    cases applied.symm.trans applied'
    exact ⟨_, w', m, m', φ, dense, relabelled, merged, merged', done, same⟩
  · obtain ⟨w', applied, relabelled⟩ := kept _ _ _ _ _ _ stabilizer
    obtain ⟨v, m, m', applied', merged, -, merged', -, -, flips⟩ := flipped _ _ _ _ stabilizer
    obtain ⟨φ, done, same⟩ := flips rfl
    cases applied.symm.trans applied'
    exact ⟨_, w', m, m', φ, stabilizer, relabelled, merged, merged', done, same⟩

end QuantumRegister
