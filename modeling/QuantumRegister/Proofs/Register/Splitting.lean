import QuantumRegister.Proofs.Register.Reached
import QuantumRegister.Proofs.Register.Shadow

/-!
Splitting is invisible: a register that holds its qudits apart and a single state of all of them go
through the same sequence of operations with the same draws, records and amplitudes.
-/

set_option autoImplicit false

namespace QuantumRegister

open QuantumRegister.MixedRadix
open QuantumRegister.Assignment
open QuantumRegister.Dense
open QuantumRegister.DenseState (Sound)
open QuantumRegister.Operation (Built)

theorem Slots.joint_ofList (states : List (DenseState ℝ)) (σ : Assignment) :
    (Slots.ofList states).joint σ = (states.map fun t => t.wave σ).prod := whole_ofList states

namespace DenseState

noncomputable def fresh (s : Settings ℝ) (qs : List Qudit) (c : Cells) : Except (SimError ℝ) (DenseState ℝ × Cells) := do
  let (source, c) := c.newSource (Random.Source.ofSeed s.seed)
  let (log, c) := c.newLog Log.empty
  let Ψ ← basisState qs s.initial source log
  return (Ψ, c)

end DenseState

theorem Settings.Valid.initial_lt {s : Settings ℝ} {qs : List Qudit} (valid : s.Valid qs)
    (small : size (Qudit.dims qs) < wordSize) : s.initial < size (Qudit.dims qs) := by
  have inRange := valid.inRange
  have bounded := checkedSize_eq 1 (Qudit.dims qs) (Qudit.dims_positive qs valid.positive) (by rwa [Nat.one_mul])
  rw [Settings.inRange, bounded, Nat.one_mul] at inRange
  exact of_decide_eq_true inRange

namespace Register

/-! New registers. -/

theorem singles_sound (source : SourceRef) (log : LogRef) (qs : List Qudit) (values : List ℕ)
    (below : List.Forall₂ (fun v (q : Qudit) => v < q.dim) values qs) (positive : ∀ q ∈ qs, 0 < q.dim)
    (small : size (Qudit.dims qs) < wordSize) :
    ∃ states : List (DenseState ℝ), singles source log (qs.zip values) = .ok states ∧ (∀ t ∈ states, t.Sound)
      ∧ ∀ σ, Within qs σ → (states.map fun t => t.wave σ).prod = if qs.map σ = values then 1 else 0 := by
  induction below with
  | nil => exact ⟨[], rfl, fun t member => (List.not_mem_nil member).elim, fun σ _ => rfl⟩
  | @cons v q values qs bound below ih =>
      have others : ∀ p ∈ qs, 0 < p.dim := fun p listed => positive p (List.mem_cons_of_mem q listed)
      have own := positive q List.mem_cons_self
      have rest := size_pos _ (Qudit.dims_positive qs others)
      rw [Qudit.dims_cons, size_cons] at small
      have alone : size (Qudit.dims [q]) = q.dim := Nat.mul_one q.dim
      obtain ⟨t, made, sound, listed, -, -, wave⟩ := DenseState.basisState_sound [q] v source log (List.nodup_singleton q)
        (fun p member => List.mem_singleton.mp member ▸ own) (by rw [alone]; exact (Nat.le_mul_of_pos_right _ rest).trans_lt small)
        (by rw [alone]; exact bound)
      obtain ⟨states, later, sounds, waves⟩ := ih others ((Nat.le_mul_of_pos_left _ own).trans_lt small)
      refine ⟨t :: states, ?_, fun u member => ?_, fun σ within => ?_⟩
      · have first : Representation.basisState [q] v source log = .ok t := made
        simp only [List.zip_cons_cons, singles, first, later, bind, Except.bind]
        rfl
      · rcases List.mem_cons.mp member with rfl | other
        · exact sound
        · exact sounds u other
      · have mine : Within [q] σ := fun p member => List.mem_singleton.mp member ▸ within q List.mem_cons_self
        rw [List.map_cons, List.prod_cons, wave σ mine, waves σ fun p member => within p (List.mem_cons_of_mem q member),
          index_single, List.map_cons]
        by_cases here : σ q = v
        · by_cases later : qs.map σ = values
          · rw [if_pos here, if_pos later, if_pos (by rw [here, later]), one_mul]
          · rw [if_neg later, mul_zero, if_neg fun same => later (List.cons.inj same).2]
        · rw [if_neg here, zero_mul, if_neg fun same => here (List.cons.inj same).1]

theorem initialStates_sound (s : Settings ℝ) (qs : List Qudit) (valid : s.Valid qs) (small : size (Qudit.dims qs) < wordSize)
    (source : SourceRef) (log : LogRef) :
    ∃ states : List (DenseState ℝ), initialStates s qs source log = .ok states ∧ (∀ t ∈ states, t.Sound)
      ∧ ∀ σ, Within qs σ → (Slots.ofList states).joint σ = if index qs σ = s.initial then 1 else 0 := by
  have inside : s.initial < size (Qudit.dims qs) := valid.initial_lt small
  cases mode : s.split with
  | false =>
      obtain ⟨t, made, sound, -, -, -, wave⟩ := DenseState.basisState_sound qs s.initial source log valid.canonical valid.positive
        small inside
      have first : Representation.basisState qs s.initial source log = .ok t := made
      refine ⟨[t], ?_, fun u member => List.mem_singleton.mp member ▸ sound, fun σ within => ?_⟩
      · simp only [initialStates, mode, Bool.false_eq_true, if_false, first, bind, Except.bind]
        rfl
      · rw [Slots.joint_ofList, List.map_singleton, List.prod_singleton, wave σ within]
  | true =>
      have below := digits_below (Qudit.dims qs) s.initial (Qudit.dims_positive qs valid.positive)
      rw [Qudit.dims, List.forall₂_map_right_iff] at below
      obtain ⟨states, made, sounds, waves⟩ := singles_sound source log qs _ below valid.positive small
      obtain ⟨t, last, sound, -, -, -, wave⟩ := DenseState.basisState_sound [] 0 source log List.nodup_nil
        (fun q member => (List.not_mem_nil member).elim) (by decide) Nat.zero_lt_one
      have final : Representation.basisState [] 0 source log = .ok t := last
      refine ⟨states ++ [t], ?_, fun u member => ?_, fun σ within => ?_⟩
      · have each : singles source log (qs.zip (digits (Qudit.dims qs) s.initial)) = .ok states := made
        simp only [initialStates, mode, if_true, each, final, bind, Except.bind]
        rfl
      · rcases List.mem_append.mp member with single | empty
        · exact sounds u single
        · exact List.mem_singleton.mp empty ▸ sound
      · have nothing : t.wave σ = 1 := (wave σ fun q member => (List.not_mem_nil member).elim).trans (if_pos rfl)
        rw [Slots.joint_ofList, List.map_append, List.prod_append, waves σ within, List.map_singleton, List.prod_singleton, nothing,
          mul_one]
        refine if_congr ⟨fun same => ?_, fun same => ?_⟩ rfl rfl
        · rw [index, same]
          exact value_digits _ _ inside
        · rw [← same]
          exact (digits_index qs σ within).symm

theorem new_joint (s : Settings ℝ) (qs : List Qudit) (c : Cells) (checked : s.validate = .ok qs)
    (small : size (Qudit.dims qs) < wordSize) :
    ∃ r Ψ d, Register.new s c = .ok (r, d) ∧ DenseState.fresh s qs c = .ok (Ψ, d) ∧ r.qudits = qs ∧ Joint s r Ψ := by
  have valid := s.validate_ok qs checked
  let source : SourceRef := (c.newSource (Random.Source.ofSeed s.seed)).1
  let log : LogRef := ((c.newSource (Random.Source.ofSeed s.seed)).2.newLog Log.empty).1
  let d : Cells := ((c.newSource (Random.Source.ofSeed s.seed)).2.newLog Log.empty).2
  obtain ⟨states, started, sounds, waves⟩ := initialStates_sound s qs valid small source log
  obtain ⟨Ψ, made, sound, listed, ownSource, ownLog, wave⟩ := DenseState.basisState_sound qs s.initial source log valid.canonical
    valid.positive small (valid.initial_lt small)
  let r : Register ℝ (DenseState ℝ) :=
    { slots := Slots.ofList states
      owners := if s.split then qs.zip (List.range qs.length) else qs.map (·, 0)
      home := if s.split then qs.length else 0
      qudits := qs
      split := s.split
      tolerance := s.tolerance
      source := source
      log := log }
  have new : Register.new s c = .ok (r, d) := by
    have begun : initialStates s qs (c.newSource (Random.Source.ofSeed s.seed)).1
        ((c.newSource (Random.Source.ofSeed s.seed)).2.newLog Log.empty).1 = .ok states := started
    simp only [Register.new, checked, bind, Except.bind, begun]
    rfl
  have fresh : DenseState.fresh s qs c = .ok (Ψ, d) := by
    have begun : DenseState.basisState qs s.initial (c.newSource (Random.Source.ofSeed s.seed)).1
        ((c.newSource (Random.Source.ofSeed s.seed)).2.newLog Log.empty).1 = .ok Ψ := made
    simp only [DenseState.fresh, bind, Except.bind, begun]
    rfl
  refine ⟨r, Ψ, d, new, fresh, rfl, new_arena c d new, valid.positive, small, fun h t live => ?_, sound, listed, ⟨ownSource, ownLog⟩,
    fun σ within => ?_⟩
  · have found : states[h]? = some t := (get?_ofList states h).symm.trans live
    exact sounds t (List.mem_of_getElem? found)
  · exact (wave σ within).trans (waves σ within).symm

/-! The joint state of all qudits. -/

variable {s : Settings ℝ} {r : Register ℝ (DenseState ℝ)} {Ψ : DenseState ℝ}

theorem Joint.merged (joint : Joint s r Ψ) :
    ∃ m, r.merged = .ok m ∧ m.frame.qudits = r.qudits ∧ m.amplitudes = Ψ.amplitudes := by
  have full : ∀ h t, r.slots.get? h = some t → Readable.Full t := fun h t live =>
    ⟨(joint.sound h t live).exact, (joint.sound h t live).full⟩
  obtain ⟨m, merged, fits, order, same⟩ := DenseState.merges_full.merged joint.arena full
  replace order : m.frame.qudits = r.qudits := order
  refine ⟨m, merged, order, wave_injective r.qudits _ _ joint.arena.canonical joint.positive ?_ ?_ fun σ within => ?_⟩
  · exact order ▸ fits.2
  · exact joint.order ▸ joint.whole.full
  · have product : Ψ.wave σ = r.slots.whole fun t => t.wave σ := joint.wave σ within
    rw [DenseState.wave, joint.order] at product
    rw [product, ← same σ within, DenseState.wave, order]

end Register

/-! Whole runs. -/

open Register

-- A register carries out operations for as long as a single state does, and nothing tells the two apart after any of them.
def Unnoticed (s : Settings ℝ) (qs : List Qudit) (c : Cells) (ops : List (Operation ℝ)) : Prop :=
  ∃ (r : Register ℝ (DenseState ℝ)) (Ψ : DenseState ℝ) (d : Cells),
    Register.new s c = .ok (r, d) ∧ DenseState.fresh s qs c = .ok (Ψ, d) ∧ ∀ k Φ d', Ψ.runAll (ops.take k) d = (.ok (), Φ, d') →
      ∃ (r' : Register ℝ (DenseState ℝ)) (m : DenseState ℝ), Register.applyAll (ops.take k) ⟨r, d⟩ = (.ok (), ⟨r', d'⟩)
        ∧ r'.source = Φ.frame.source ∧ r'.log = Φ.frame.log
        ∧ r'.merged = .ok m ∧ m.frame.qudits = qs ∧ m.amplitudes = Φ.amplitudes

theorem splitting_unnoticed (s : Settings ℝ) (qs : List Qudit) (c : Cells) (ops : List (Operation ℝ))
    (checked : s.validate = .ok qs) (small : size (Qudit.dims qs) < wordSize) (built : ∀ op ∈ ops, Built qs op)
    (level : ∀ op ∈ ops, op.Level) : Unnoticed s qs c ops := by
  obtain ⟨r, Ψ, d, new, fresh, order, joint⟩ := new_joint s qs c checked small
  refine ⟨r, Ψ, d, new, fresh, fun k Φ d' done => ?_⟩
  obtain ⟨r', applied, after⟩ := joint.applyAll d (ops.take k) (fun op member => order ▸ built op (List.mem_of_mem_take member))
    (fun op member => level op (List.mem_of_mem_take member)) Φ d' done
  obtain ⟨m, merged, listed, amplitudes⟩ := after.merged
  have same := joint.arena.qudits_kept after.arena
  exact ⟨r', m, applied, after.wired.1.symm, after.wired.2.symm, merged, listed.trans (same.trans order), amplitudes⟩

theorem splitting_unnoticed_pair :
    Unnoticed pairSettings [Qudit.qubit 0, Qudit.qubit 1] {} [(Gate.h (Qudit.qubit 0)).operation,
      (Gate.cx (Qudit.qubit 0) (Qudit.qubit 1)).operation, (Gate.swap (Qudit.qubit 0) (Qudit.qubit 1)).operation,
      Operation.reset [Qudit.qubit 0]] := by
  refine splitting_unnoticed pairSettings _ {} _ pair_validated (by decide) (fun op member => ?_) fun op member => ?_
  · simp only [List.mem_cons, List.not_mem_nil, or_false] at member
    rcases member with rfl | rfl | rfl | rfl
    · exact .gate _ ⟨by decide, by decide⟩
    · exact .gate _ ⟨by decide, by decide⟩
    · exact .gate _ ⟨by decide, by decide⟩
    · exact .reset _ ⟨by decide, by decide⟩
  · simp only [List.mem_cons, List.not_mem_nil, or_false] at member
    rcases member with rfl | rfl | rfl | rfl
    · exact fun none => by cases none
    · exact fun none => by cases none
    · rintro - a b same
      cases same
      rfl
    · exact fun none => by cases none

-- Labels are exchanged only if their dimensions agree, also where the matrix of the exchange would fit.
theorem apply_uneven (a b : Qudit) (uneven : a.dim ≠ b.dim) (w : Workspace ℝ (DenseState ℝ)) :
    (Register.apply (Gate.swap a b : Gate ℝ).operation w).1 ≠ .ok () := by
  have refused (v : Workspace ℝ (DenseState ℝ)) :
      (Register.change (fun r : Register ℝ (DenseState ℝ) => do return ((), ← r.exchange a b)) v).1
        = .error (.shapeMismatch [a.dim] [b.dim]) := by
    simp only [Register.change, Register.exchange, if_pos uneven, bind, Except.bind]
  intro done
  rw [apply_swap, act_bind_apply] at done
  split at done
  · rw [refused] at done
    cases done
  · cases done

theorem swap_fits (ψ : DenseState ℝ) (a b : Qudit) (exact : ψ.frame.Exact) (different : a ≠ b) (first : a ∈ ψ.frame.qudits)
    (second : b ∈ ψ.frame.qudits) (four : Qudit.jointDim [a, b] = 4) (c : Cells) :
    ∃ φ, ψ.runAll [(Gate.swap a b).operation] c = (.ok (), φ, c) := by
  have square := (Operator.checkSquare_ok [a, b] (Operator.exchange 4 1 2 : Operator ℝ)).mpr ⟨four.symm, four.symm⟩
  obtain ⟨φ, applied⟩ := DenseState.applyMatrix_done ψ [a, b] _ exact (by simpa using different) (by simp [first, second]) square
  refine ⟨φ, ?_⟩
  rw [DenseState.runAll, DenseState.perform_swap, DenseState.run_unitary, applied]
  rfl

def unevenSettings : Settings ℝ := ⟨some [⟨0, 1⟩, ⟨1, 4⟩], 0, true, 0, 0⟩

theorem uneven_validated : unevenSettings.validate = .ok [⟨0, 1⟩, ⟨1, 4⟩] := by
  have small : (Scalar.isFinite (0 : ℝ)) = true := by simp [Scalar.isFinite]
  simp [Settings.validate, unevenSettings, Qudit.firstRepeated, Qudit.repeatedAfter, small, Settings.inRange, Qudit.dims,
    MixedRadix.checkedSize, MixedRadix.wordSize]

theorem uneven_swap_noticed :
    unevenSettings.validate = .ok [⟨0, 1⟩, ⟨1, 4⟩] ∧ size (Qudit.dims [⟨0, 1⟩, ⟨1, 4⟩]) < wordSize
      ∧ Built [⟨0, 1⟩, ⟨1, 4⟩] (Gate.swap ⟨0, 1⟩ ⟨1, 4⟩).operation
      ∧ ¬ Unnoticed unevenSettings [⟨0, 1⟩, ⟨1, 4⟩] {} [(Gate.swap ⟨0, 1⟩ ⟨1, 4⟩).operation] := by
  have small : size (Qudit.dims [⟨0, 1⟩, ⟨1, 4⟩]) < wordSize := by decide
  refine ⟨uneven_validated, small, .gate _ ⟨by decide, by decide⟩, fun unnoticed => ?_⟩
  obtain ⟨r, Ψ, d, -, fresh, both⟩ := unnoticed
  obtain ⟨u, Φ, d', -, fresh', order, joint⟩ := new_joint unevenSettings _ {} uneven_validated small
  rw [fresh] at fresh'
  cases fresh'
  have listed : ∀ q ∈ [(⟨0, 1⟩ : Qudit), ⟨1, 4⟩], q ∈ Ψ.frame.qudits := fun q member => by rwa [joint.order, order]
  obtain ⟨φ, ran⟩ := swap_fits Ψ ⟨0, 1⟩ ⟨1, 4⟩ joint.whole.exact (by decide) (listed _ (by decide)) (listed _ (by decide)) (by decide) d
  obtain ⟨r', m, applied, -⟩ := both 1 φ d ran
  refine apply_uneven ⟨0, 1⟩ ⟨1, 4⟩ (by decide) ⟨r, d⟩ ?_
  have all : Register.applyAll [(Gate.swap ⟨0, 1⟩ ⟨1, 4⟩ : Gate ℝ).operation] (⟨r, d⟩ : Workspace ℝ (DenseState ℝ)) = (.ok (), ⟨r', d⟩) :=
    applied
  rw [Register.applyAll, act_bind_apply] at all
  cases first : Register.apply (Gate.swap ⟨0, 1⟩ ⟨1, 4⟩ : Gate ℝ).operation (⟨r, d⟩ : Workspace ℝ (DenseState ℝ)) with
  | mk e w =>
      rw [first] at all
      cases e with
      | ok u => rfl
      | error e => cases all

end QuantumRegister
