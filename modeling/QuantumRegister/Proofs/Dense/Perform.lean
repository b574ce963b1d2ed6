import QuantumRegister.Proofs.Dense.Follow
import QuantumRegister.Proofs.Operation

/-!
Whole operations on a factor of a state follow the same operations on the whole state, through all
their parts and conditions.
-/

set_option autoImplicit false

namespace QuantumRegister.DenseState

open QuantumRegister.Dense
open QuantumRegister.Step
open QuantumRegister.Operation
open QuantumRegister.Representation (run perform performAs performAll bench run_of)

theorem performAs_gate (g : Gate ℝ) (name : String) (qs : List Qudit) :
    performAs name qs g.operation = if g.isIdentity then pure () else enact name qs (.unitary g.matrix) := by
  have resolved (parts : Option (List (Operation ℝ))) : g.leaf.toCapabilities.resolve parts (Representation.routes (DenseState ℝ))
      = if g.isIdentity then some .skip else some (.unitary g.matrix) := rfl
  have shape : g.operation = ⟨g.leaf.toCapabilities, g.decomposition.map fun gs => gs.map Gate.leaf, none⟩ := rfl
  rw [shape]
  cases g.decomposition with
  | none =>
      rw [Option.map_none, performAs, resolved]
      split <;> rfl
  | some gs =>
      rw [Option.map_some, performAs, resolved]
      by_cases identity : g.isIdentity
      · simp only [if_pos identity]
        rfl
      · simp only [if_neg identity]
        rfl

theorem run_unitary (name : String) (qs : List Qudit) (m : Operator ℝ) (Ψ : DenseState ℝ) (c : Cells) :
    run (enact name qs (.unitary m)) Ψ c = match Ψ.applyMatrix qs m with
      | .ok Φ => (.ok (), Φ, c)
      | .error e => (.error e, Ψ, c) := by
  have outcome : enact name qs (.unitary m) (bench Ψ c)
      = (Step.ofExcept (Ψ.applyMatrix qs m) >>= fun Φ => Step.setState Φ : Step ℝ (DenseState ℝ) Unit) (bench Ψ c) := rfl
  cases applied : Ψ.applyMatrix qs m with
  | error e =>
      rw [applied] at outcome
      exact (run_of _ Ψ c (.error e) (bench Ψ c) outcome).trans (Prod.ext rfl (Prod.ext rfl (c.written_back _ _)))
  | ok Φ =>
      rw [applied] at outcome
      exact (run_of _ Ψ c (.ok ()) { bench Ψ c with state := Φ } outcome).trans
        (Prod.ext rfl (Prod.ext rfl (c.written_back _ _)))

theorem perform_swap (a b : Qudit) : perform (Gate.swap a b : Gate ℝ).operation
    = (enact "Swap" [a, b] (.unitary (Operator.exchange 4 1 2)) : Step ℝ (DenseState ℝ) Unit) :=
  performAs_gate (Gate.swap a b) _ [a, b]

variable {f F : Frame} {ρ : Assignment → ℂ} {ψ Ψ : DenseState ℝ} (aside : Aside f F ρ)

include aside

theorem rows_alike (fragment : Fragment f F ρ ψ Ψ) (qs : List Qudit) (inside : qs ⊆ f.qudits) (repetitions seed : ℕ)
    (rows : List (List ℕ)) (found : Representation.rows Ψ qs repetitions seed = .ok rows) :
    Representation.rows ψ qs repetitions seed = .ok rows := by
  simp only [Representation.rows, Representation.sampler, sampler, fragment.far] at found
  simp only [Representation.rows, Representation.sampler, sampler, fragment.near]
  cases listed : F.axes (R := ℝ) qs with
  | error e =>
      rw [listed] at found
      cases found
  | ok Axes =>
      obtain ⟨axes, own, layouts⟩ := aside.axes qs inside Axes listed
      rw [listed] at found
      rw [own]
      dsimp only at found ⊢
      rwa [← marginals aside qs axes Axes layouts fragment]

theorem follows_rawOutcome (m : Measurement ℝ) (inside : m.qudits ⊆ f.qudits) :
    Tracks (Fragment f F ρ) Eq (Representation.rawOutcome m : Step ℝ (DenseState ℝ) (List ℕ)) (Representation.rawOutcome m) := by
  rw [Representation.rawOutcome]
  split
  · exact tracks_weaken (follows_observe aside m.qudits inside) fun u v same => same.1
  · refine tracks_bind _ _ (tracks_draw _ (fun _ => True) fun _ => trivial) fun seed seed' drawn => ?_
    obtain ⟨rfl, -⟩ := drawn
    refine tracks_get _ _ fun near far level => ?_
    refine tracks_bind _ _ (tracks_ofExcept _ _ fun rows found => ⟨rows, ?_, rfl⟩) fun u v same => ?_
    · exact rows_alike aside level.state m.qudits inside 1 seed rows found
    · subst same
      exact tracks_pure _ _ rfl

theorem follows_measure (m : Measurement ℝ) (inside : m.qudits ⊆ f.qudits) :
    Tracks (Fragment f F ρ) Eq (Representation.measure m : Step ℝ (DenseState ℝ) (List ℕ)) (Representation.measure m) := by
  refine tracks_get _ _ fun near far level => ?_
  refine tracks_bind _ _ (follows_axes aside m.qudits inside near far level) fun _ _ _ => ?_
  refine tracks_bind _ _ (follows_rawOutcome aside m inside) fun raw raw' same => ?_
  subst same
  refine tracks_bind _ _ (tracks_draw _ (fun _ => True) fun _ => trivial) fun corrected corrected' drawn => ?_
  obtain ⟨rfl, -⟩ := drawn
  refine tracks_bind _ _ (tracks_same corrected) fun values values' same => ?_
  obtain ⟨rfl, -⟩ := same
  exact tracks_bind _ _ (tracks_edit _) fun _ _ _ => tracks_pure _ _ rfl

theorem follows_performAs {op : Operation ℝ} (built : Built f.qudits op) (name : String) :
    Tracks (Fragment f F ρ) Eq (performAs name op.qudits op : Step ℝ (DenseState ℝ) Unit) (performAs name op.qudits op) := by
  induction built generalizing name with
  | gate g names =>
      rw [performAs_gate]
      split
      · exact tracks_pure () () rfl
      · exact tracks_get _ _ fun near far level =>
          follows_applyMatrix aside g.targets names.inside g.matrix (Gate.unitary_matrix g) near far level
  | measurement m names =>
      rw [Measurement.operation, performAs]
      exact tracks_bind _ _ (follows_measure aside m names.inside) fun _ _ _ => tracks_pure _ _ rfl
  | reset qs names =>
      rw [Operation.reset, performAs]
      exact follows_reset aside qs names.inside
  | mixture m names unitary =>
      rw [Mixture.operation, performAs]
      exact follows_mixture aside m.qudits names.inside m.branches m.key unitary
  | kraus c names =>
      rw [KrausChannel.operation, performAs]
      exact follows_channel aside c.qudits names.inside c.ops c.key
  | composite label ops parts ih =>
      have each : ∀ rest : List (Operation ℝ), (∀ op ∈ rest, op ∈ ops) →
          Tracks (Fragment f F ρ) Eq (performAll rest : Step ℝ (DenseState ℝ) Unit) (performAll rest) := by
        intro rest listed
        induction rest with
        | nil => exact tracks_pure () () rfl
        | cons op rest later =>
            rw [performAll]
            refine tracks_bind _ _ (ih op (listed op List.mem_cons_self) op.name) fun _ _ _ => ?_
            exact later fun other member => listed other (List.mem_cons_of_mem op member)
      rw [Operation.composite, performAs]
      exact each ops fun _ member => member
  | controlled key op inner ih =>
      rw [Operation.controlled, performAs]
      refine tracks_get _ _ fun near far level => ?_
      rw [level.log]
      split
      · exact ih name
      · exact tracks_pure () () rfl

end QuantumRegister.DenseState
