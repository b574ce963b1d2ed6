import QuantumRegister.Proofs.Dense.Perform
import QuantumRegister.Proofs.Dense.Sound
import QuantumRegister.Proofs.Effect

/-!
Conditions in front of an operation. While all of them hold, what is behind them acts as if it stood
alone; otherwise nothing happens. A dense state lays the matrix of the operation behind on the qudits of
the outermost condition, in the order in which that lists them.
-/

set_option autoImplicit false

namespace QuantumRegister

open QuantumRegister.Representation
open QuantumRegister.SimError (seen seen_error)
open QuantumRegister.Dense
open QuantumRegister.Assignment
open QuantumRegister.MixedRadix

variable {R S : Type}

def Resolution.placed : Resolution R → Bool
  | .unitary _ | .mixture _ _ | .channel _ _ => true
  | _ => false

namespace Operation

/-- Conditions in front of a core, the outermost first, each on the qudits of what it guards in any
order. -/
inductive Tower (core : Operation R) : List String → Operation R → Prop
  | bare : Tower core [] core
  | guarded {keys : List String} {inner op : Operation R} (key : String) (tower : Tower core keys inner)
      (control : op.control = some (key, inner)) (same : op.qudits.Perm inner.qudits) : Tower core (key :: keys) op

variable {core op : Operation R} {keys : List String}

theorem Tower.perm (tower : Tower core keys op) : op.qudits.Perm core.qudits := by
  induction tower with
  | bare => exact .refl _
  | guarded key tower control same ih => exact same.trans ih

theorem Tower.performAs [Scalar R] [Representation R S] (tower : Tower core keys op) (name : String) (qs : List Qudit)
    (b : Bench S) : performAs name qs op b
      = if keys.all b.log.conditionHolds then Representation.performAs name qs core b else (.ok (), b) := by
  induction tower with
  | bare => rfl
  | @guarded keys inner op key tower control same ih =>
      rw [List.all_cons]
      cases holds : b.log.conditionHolds key with
      | true => rw [performAs_satisfied name qs op inner key control b holds, ih, Bool.true_and]
      | false => exact performAs_unsatisfied name qs op inner key control b holds

end Operation

/-! In which order the qudits are listed. -/

namespace DenseState

variable [Scalar R]

theorem carryOut_order (name : String) (qs rs : List Qudit) (r : Option (Resolution R)) (free : ∀ x ∈ r, x.placed = false) :
    (carryOut name qs r : Step R (DenseState R) Unit) = carryOut name rs r := by
  cases r with
  | none => rfl
  | some r =>
      cases r with
      | skip | measure _ | reset _ | parts _ | stabilizer _ => rfl
      | unitary _ | mixture _ _ | channel _ _ => cases free _ rfl

end DenseState

namespace StabilizerState

variable [Scalar R]

omit [Scalar R] in
theorem seen_checkQubits (qs rs : List Qudit) (perm : qs.Perm rs) (b : Bench (StabilizerState R)) :
    seen ((Step.ofExcept (checkQubits qs) : Step R (StabilizerState R) Unit) b)
      = seen ((Step.ofExcept (checkQubits rs) : Step R (StabilizerState R) Unit) b) := by
  rw [checkQubits, checkQubits, perm.any_eq]
  split <;> rfl

theorem seen_enact_order (name : String) (qs rs : List Qudit) (perm : qs.Perm rs) (r : Resolution R) (b : Bench (StabilizerState R)) :
    seen (enact name qs r b) = seen (enact name rs r b) := by
  cases r with
  | stabilizer gates =>
      exact Step.seen_bind _ _ _ _ b b (seen_checkQubits qs rs perm b) fun _ _ => rfl
  | skip | measure _ | reset _ | parts _ | unitary _ | mixture _ _ | channel _ _ => rfl

theorem seen_carryOut_order (name : String) (qs rs : List Qudit) (perm : qs.Perm rs) (r : Option (Resolution R))
    (b : Bench (StabilizerState R)) : seen (carryOut name qs r b) = seen (carryOut name rs r b) := by
  cases r with
  | none => rfl
  | some r =>
      cases r with
      | skip | measure _ | reset _ | parts _ => rfl
      | unitary _ | mixture _ _ | channel _ _ | stabilizer _ => exact seen_enact_order name qs rs perm _ b

end StabilizerState

namespace Representation

variable [Scalar R] [Representation R S] {core op : Operation R} {keys : List String} (tower : Operation.Tower core keys op)
  (s : S) (c : Cells)

include tower

theorem run_unsatisfied (fails : keys.all (c.log (frame s).log).conditionHolds = false) : run (perform op) s c = (.ok (), s, c) := by
  have stepped : performAs op.name op.qudits op (bench s c) = (.ok (), bench s c) :=
    (tower.performAs op.name op.qudits (bench s c)).trans (if_neg (Bool.eq_false_iff.mp fails))
  rw [run_of (perform op) s c (.ok ()) (bench s c) stepped]
  exact Prod.ext rfl (Prod.ext rfl (c.written_back _ _))

-- It is enough that the order of the qudits makes no difference to what the core resolves to.
theorem seen_satisfied [Anonymous R S] (holds : keys.all (c.log (frame s).log).conditionHolds = true)
    (order : ∀ b : Bench S, seen (carryOut core.name op.qudits (core.resolve (c.log (frame s).log) (routes S)) b)
      = seen (carryOut core.name core.qudits (core.resolve (c.log (frame s).log) (routes S)) b)) :
    seen (run (perform op) s c) = seen (run (perform core) s c) := by
  have stepped : performAs op.name op.qudits op (bench s c) = performAs op.name op.qudits core (bench s c) :=
    (tower.performAs op.name op.qudits (bench s c)).trans (if_pos holds)
  refine seen_run _ _ s c ?_
  rw [perform, stepped, seen_performAs op.name core.name, perform, performAs_resolve, performAs_resolve]
  exact order (bench s c)

end Representation

noncomputable def flip : Operation ℝ := (Gate.cx (Qudit.qubit 0) (Qudit.qubit 1)).operation

noncomputable def turnedFlip : Operation ℝ :=
  { name := "turned", qudits := [Qudit.qubit 1, Qudit.qubit 0], control := some ("k", flip) }

def satisfied : Cells := ⟨#[default], #[Log.empty.recordBranch "k" 1]⟩

open Operation (Tower)

theorem guards_transparent [Scalar R] {core op : Operation R} {keys : List String} (tower : Tower core keys op) :
    (∀ (ψ : DenseState R) (c : Cells), keys.all (c.log ψ.frame.log).conditionHolds = false → run (perform op) ψ c = (.ok (), ψ, c))
      ∧ (∀ (ψ : DenseState R) (c : Cells), keys.all (c.log ψ.frame.log).conditionHolds = true →
        (op.qudits = core.qudits ∨ ∀ r ∈ core.resolve (c.log ψ.frame.log) (routes (DenseState R)), r.placed = false) →
          seen (run (perform op) ψ c) = seen (run (perform core) ψ c))
      ∧ (∀ (φ : StabilizerState R) (c : Cells), keys.all (c.log φ.frame.log).conditionHolds = false →
        run (perform op) φ c = (.ok (), φ, c))
      ∧ ∀ (φ : StabilizerState R) (c : Cells), keys.all (c.log φ.frame.log).conditionHolds = true →
        seen (run (perform op) φ c) = seen (run (perform core) φ c) := by
  refine ⟨run_unsatisfied tower, fun ψ c holds either => ?_, run_unsatisfied tower, fun φ c holds => ?_⟩
  · refine seen_satisfied tower ψ c holds fun b => ?_
    obtain same | free := either
    · rw [same]
    · exact congrArg (fun step => seen (step b)) (DenseState.carryOut_order core.name op.qudits core.qudits _ free)
  · exact seen_satisfied tower φ c holds fun b => StabilizerState.seen_carryOut_order _ _ _ tower.perm _ b

theorem guards_transparent_pair : ∃ (ψ : DenseState ℝ) (φ : StabilizerState ℝ),
    DenseState.basisState [Qudit.qubit 0, Qudit.qubit 1] 2 ⟨0⟩ ⟨0⟩ = .ok ψ
      ∧ StabilizerState.basisState [Qudit.qubit 0, Qudit.qubit 1] 2 ⟨0⟩ ⟨0⟩ = .ok φ
      ∧ seen (run (perform (Operation.controlled "k" (Operation.controlled "k" flip))) ψ satisfied)
        = seen (run (perform flip) ψ satisfied)
      ∧ run (perform turnedFlip) ψ {} = (.ok (), ψ, {})
      ∧ seen (run (perform turnedFlip) φ satisfied) = seen (run (perform flip) φ satisfied)
      ∧ run (perform turnedFlip) φ {} = (.ok (), φ, {}) := by
  obtain ⟨ψ, made, -, -, -, logged, -⟩ :=
    DenseState.basisState_sound [Qudit.qubit 0, Qudit.qubit 1] 2 ⟨0⟩ ⟨0⟩ (by decide) (by decide) (by decide) (by decide)
  have once : Tower flip ["k"] (Operation.controlled "k" flip) := .guarded "k" .bare rfl (.refl _)
  have twice : Tower flip ["k", "k"] (Operation.controlled "k" (Operation.controlled "k" flip)) :=
    .guarded "k" once rfl (.refl _)
  have turned : Tower flip ["k"] turnedFlip := .guarded "k" .bare rfl (.swap _ _ [])
  refine ⟨ψ, ⟨⟨[Qudit.qubit 0, Qudit.qubit 1], _, ⟨0⟩, ⟨0⟩⟩, Form.basis 2 2⟩, made, rfl, ?_, ?_, ?_, ?_⟩
  · refine (guards_transparent twice).2.1 ψ satisfied ?_ (Or.inl rfl)
    rw [logged]
    decide
  · refine (guards_transparent turned).1 ψ {} ?_
    rw [logged]
    decide
  · exact (guards_transparent turned).2.2.2 _ satisfied (by decide)
  · exact (guards_transparent turned).2.2.1 _ {} (by decide)

/-! Qudits listed in another order than the matrix behind the condition lists them. -/

theorem DenseState.applied_basis (ψ φ : DenseState ℝ) (qs : List Qudit) (m : Operator ℝ) (k : ℕ) (sound : ψ.Sound)
    (inside : k < size (Qudit.dims qs)) (applied : ψ.applyMatrix qs m = .ok φ)
    (basis : ∀ σ, Within ψ.frame.qudits σ → ψ.wave σ = if index qs σ = k then 1 else 0) (σ : Assignment)
    (within : Within ψ.frame.qudits σ) : Dense.wave ψ.frame.qudits φ.amplitudes σ = (m.entry (index qs σ) k).toComplex := by
  obtain ⟨-, ⟨axes, picks⟩, -, -, moved⟩ := multiplied_of ψ φ qs m sound.exact sound.positive sound.full applied
  refine (moved σ within).trans ((acted_congr ψ.frame.qudits qs m _ _ picks.nodup basis σ within).trans ?_)
  have column := sumOver_index qs (fun i => (m.entry (index qs σ) i).toComplex * if i = k then 1 else 0) σ picks.nodup
  refine column.trans ?_
  rw [Finset.sum_eq_single_of_mem k (Finset.mem_range.mpr inside) fun i _ other => by rw [if_neg other, mul_zero], if_pos rfl, mul_one]

theorem run_flip (op : Operation ℝ) (ψ φ : DenseState ℝ) (c : Cells)
    (acts : performAs op.name op.qudits op (bench ψ c) = performAs op.name op.qudits flip (bench ψ c))
    (applied : ψ.applyMatrix op.qudits Gate.pauliX.controlled = .ok φ) : seen (run (perform op) ψ c) = (.ok (), φ, c) := by
  have resolved : performAs op.name op.qudits flip
      = (enact op.name op.qudits (.unitary Gate.pauliX.controlled) : Step ℝ (DenseState ℝ) Unit) :=
    DenseState.performAs_gate (Gate.cx (Qudit.qubit 0) (Qudit.qubit 1)) op.name op.qudits
  have ran : seen (run (perform op) ψ c) = seen (run (enact op.name op.qudits (.unitary Gate.pauliX.controlled)) ψ c) := by
    refine seen_run _ _ ψ c ?_
    rw [perform, acts, resolved]
  have done := DenseState.run_unitary op.name op.qudits Gate.pauliX.controlled ψ c
  rw [applied] at done
  exact ran.trans (congrArg seen done)

-- The excited qubit comes first; with the order turned, the matrix reads the other one.
theorem turned_guard_noticed : ∃ ψ : DenseState ℝ, DenseState.basisState [Qudit.qubit 0, Qudit.qubit 1] 2 ⟨0⟩ ⟨0⟩ = .ok ψ
    ∧ turnedFlip.control = some ("k", flip) ∧ turnedFlip.qudits.Perm flip.qudits ∧ turnedFlip.qudits.Nodup
    ∧ turnedFlip.qudits ⊆ ψ.frame.qudits ∧ (satisfied.log ψ.frame.log).conditionHolds "k" = true
    ∧ seen (run (perform turnedFlip) ψ satisfied) ≠ seen (run (perform flip) ψ satisfied) := by
  obtain ⟨ψ, made, sound, named, -, logged, basis⟩ :=
    DenseState.basisState_sound [Qudit.qubit 0, Qudit.qubit 1] 2 ⟨0⟩ ⟨0⟩ (by decide) (by decide) (by decide) (by decide)
  have holds : (satisfied.log ψ.frame.log).conditionHolds "k" = true := by rw [logged]; decide
  refine ⟨ψ, made, rfl, .swap _ _ [], by decide, by rw [named]; decide, holds, fun same => ?_⟩
  have square (qs : List Qudit) (two : qs.map Qudit.dim = [2, 2]) :
      Operator.checkSquare qs (Gate.pauliX.controlled : Operator ℝ) = .ok () := by
    simp [Operator.checkSquare, Gate.pauliX, Operator.controlled, Operator.ofList, Qudit.jointDim, Qudit.dims, two, size, wordSize,
      Grid.tabulate]
  obtain ⟨φ, applied⟩ := DenseState.applyMatrix_done ψ flip.qudits Gate.pauliX.controlled sound.exact (by decide)
    (by rw [named]; decide) (square _ rfl)
  obtain ⟨χ, turned⟩ := DenseState.applyMatrix_done ψ turnedFlip.qudits Gate.pauliX.controlled sound.exact (by decide)
    (by rw [named]; decide) (square _ rfl)
  rw [run_flip flip ψ φ satisfied rfl applied,
    run_flip turnedFlip ψ χ satisfied (performAs_satisfied _ _ turnedFlip flip "k" rfl _ holds) turned] at same
  obtain rfl : χ = φ := congrArg (fun x => x.2.1) same
  have pair (p q : Qudit) (τ : Assignment) (two : q.dim = 2) : index [p, q] τ = τ p * 2 + τ q := two ▸ index_pair p q τ
  have excited : ∀ τ, Within ψ.frame.qudits τ → ψ.wave τ = if index turnedFlip.qudits τ = 1 then 1 else 0 := by
    rw [named]
    intro τ within
    have low : τ (Qudit.qubit 1) < 2 := within _ (by decide)
    have high : τ (Qudit.qubit 0) < 2 := within _ (by decide)
    rw [basis τ within, turnedFlip, pair _ _ τ rfl, pair _ _ τ rfl]
    exact if_congr (by omega) rfl rfl
  have ones : Within ψ.frame.qudits fun _ => 1 := by
    rw [named]
    exact List.forall_mem_cons.mpr ⟨Nat.one_lt_two, List.forall_mem_singleton.mpr Nat.one_lt_two⟩
  have here := DenseState.applied_basis ψ χ flip.qudits _ 2 sound (by decide) applied (named ▸ basis) _ ones
  have there := DenseState.applied_basis ψ χ turnedFlip.qudits _ 1 sound (by decide) turned excited _ ones
  have flips : ((Gate.pauliX.controlled : Operator ℝ).entry 3 2).toComplex = 1 := by
    rw [Operator.entry_controlled _ 3 2 (by decide) (by decide)]
    simp [Gate.pauliX, Operator.ofList, Operator.entry, Grid.getD]
  have stays : ((Gate.pauliX.controlled : Operator ℝ).entry 3 1).toComplex = 0 := by
    rw [Operator.entry_controlled _ 3 1 (by decide) (by decide)]
    simp [Gate.pauliX, Operator.ofList]
  exact one_ne_zero ((flips.symm.trans here.symm).trans (there.trans stays))

end QuantumRegister
