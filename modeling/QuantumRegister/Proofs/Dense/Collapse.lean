import QuantumRegister.Proofs.Dense.Reset
import QuantumRegister.Proofs.Resolution

/-!
What a collapse leaves of a dense state of norm one: a state of norm one again, in which every qudit that
was measured or reset has one value left. Whether an operation collapses its qudits is up to the
description that it is resolved into, not to all that it offers.
-/

set_option autoImplicit false

namespace QuantumRegister

open QuantumRegister.Dense (Pinned)
open QuantumRegister.Random (Source drawUnit)
open QuantumRegister.Representation (carryOut performAs performAs_resolve routes)

def Resolution.Settles {R : Type} (qs : List Qudit) : Resolution R → Prop
  | .measure m => m.collapses = true ∧ qs ⊆ m.qudits
  | .reset targets => qs ⊆ targets
  | _ => False

namespace Operation

variable {R : Type}

/-- With the records of a log, an operation is resolved into a collapse of all its qudits. -/
def Settles (op : Operation R) (log : Log) (routes : List Route) : Prop :=
  ∃ r, op.resolve log routes = some r ∧ r.Settles op.qudits

-- Operations that are nothing but a measurement or a reset keep what they promise, and no other one promises it.
theorem Built.settles {Q : List Qudit} {op : Operation ℝ} (built : Built Q op) (collapses : op.collapses = true) (log : Log)
    (routes : List Route) : op.Settles log routes := by
  cases built with
  | measurement m names => exact ⟨.measure m, rfl, collapses, List.Subset.refl _⟩
  | reset qs names => exact ⟨.reset qs, rfl, List.Subset.refl qs⟩
  | gate g names => cases collapses
  | mixture m names unitary => cases collapses
  | kraus c names => cases collapses
  | composite name ops parts => cases collapses
  | controlled key op inner => cases collapses

end Operation

namespace DenseState

section Steps

variable {α : Type} {P P' Q Q' : DenseState ℝ → Prop} {F : Frame}

theorem leaves_both {step : Step ℝ (DenseState ℝ) α} (first : Leaves P step Q) (second : Leaves P' step Q') :
    Leaves (fun ψ => P ψ ∧ P' ψ) step fun ψ => Q ψ ∧ Q' ψ := fun b before v found =>
  ⟨first b before.1 v found, second b before.2 v found⟩

variable (exact : F.Exact)

include exact

theorem names_of_observe (qs : List Qudit) :
    Leaves (Whole F) (observe qs : Step ℝ (DenseState ℝ) (List ℕ)) fun _ => Names F.qudits qs :=
  leaves_get _ fun b whole => leaves_ofExcept _ _ fun axes found =>
    leaves_const (names_of_axes exact b.state whole qs axes found) _

omit exact in
theorem Whole.observed {b : Bench (DenseState ℝ)} (whole : Whole F b.state) {qs : List Qudit} (names : Names F.qudits qs) :
    ∃ k φ, k < MixedRadix.size (Qudit.dims qs) ∧ Whole F φ
      ∧ observe qs b = (.ok (MixedRadix.digits (Qudit.dims qs) k), ⟨(drawUnit b.source : ℝ × Source).2, b.log, φ⟩) := by
  obtain ⟨low, high⟩ := Random.drawUnit_bounds b.source
  have inside : qs ⊆ b.state.frame.qudits := whole.frame ▸ names.inside
  obtain ⟨k, φ, observed, found⟩ := observedAt_found b.state whole.exact whole.full
    (ne_of_eq_of_ne whole.norm one_ne_zero) qs names.once inside _ low high
  exact ⟨k, φ, found.bound, ⟨found.sound, found.frame.trans whole.frame⟩, by rw [observe_at, observed]⟩

theorem whole_observe (qs : List Qudit) : Leaves (Whole F) (observe qs : Step ℝ (DenseState ℝ) (List ℕ)) (Whole F) := by
  refine leaves_named (names_of_observe exact qs) fun names b whole v _ => ?_
  obtain ⟨k, φ, -, after, ran⟩ := whole.observed names
  rw [ran]
  exact after

theorem whole_resetOne (q : Qudit) : Leaves (Whole F) (resetOne q : Step ℝ (DenseState ℝ) Unit) (Whole F) := by
  have told : Leaves (Whole F) (resetOne q : Step ℝ (DenseState ℝ) Unit) fun _ => Names F.qudits [q] :=
    leaves_bind (names_of_observe exact [q]) fun _ _ names _ _ => names
  refine leaves_named told fun names b whole v done => ?_
  obtain ⟨k, φ, bound, after, ran⟩ := whole.observed names
  have inside : k < q.dim := bound.trans_eq (Nat.mul_one q.dim)
  have exchanges : Leaves (Whole F) (if k ≠ 0 then (get >>= fun b : Bench (DenseState ℝ) =>
      Step.ofExcept (b.state.applyMatrix [q] (Operator.exchange q.dim 0 k)) >>= fun χ => Step.setState χ)
      else pure () : Step ℝ (DenseState ℝ) Unit) (Whole F) := by
    split
    · refine leaves_get _ fun b held => leaves_ofExcept _ _ fun χ applied => leaves_setState χ ?_
      have multiplied := multiplied_of b.state χ [q] _ held.exact held.positive held.full applied
      have unitary := Operator.unitary_exchange q.dim 0 k (Nat.zero_lt_of_lt inside) inside
      exact ⟨multiplied.sound held.toSound unitary (Nat.mul_one q.dim).symm, multiplied.frame.trans held.frame⟩
    · exact leaves_pure ()
  rw [resetOne, Step.bind_apply, ran] at done ⊢
  dsimp only at done ⊢
  rw [MixedRadix.digits_single inside, List.headD_cons] at done ⊢
  exact exchanges _ after v done

theorem whole_cleared (qs : List Qudit) : Leaves (Whole F) (reset qs : Step ℝ (DenseState ℝ) Unit) (Whole F) := by
  have each : Leaves (Whole F) (qs.forM resetOne : Step ℝ (DenseState ℝ) Unit) (Whole F) := by
    induction qs with
    | nil => exact leaves_pure ()
    | cons q qs ih => exact leaves_bind (whole_resetOne exact q) fun _ => ih
  exact leaves_get _ fun b _ => leaves_ofExcept _ _ fun _ _ => each

theorem whole_measured (m : Measurement ℝ) :
    Leaves (Whole F) (Representation.measure m : Step ℝ (DenseState ℝ) (List ℕ)) (Whole F) := by
  have observed : Leaves (Whole F) (Representation.rawOutcome m : Step ℝ (DenseState ℝ) (List ℕ)) (Whole F) := by
    rw [Representation.rawOutcome]
    split
    · exact whole_observe exact m.qudits
    · exact leaves_bind (leaves_draw _) fun _ => leaves_get _ fun b _ => leaves_ofExcept _ _ fun _ _ => leaves_pure _
  refine leaves_get _ fun b _ => leaves_ofExcept _ _ fun _ _ => ?_
  refine leaves_bind observed fun raw => leaves_bind (leaves_draw _) fun corrected => ?_
  exact leaves_ofExcept _ _ fun values _ => leaves_bind (leaves_edit _) fun _ => leaves_pure values

end Steps

theorem Sound.support {ψ : DenseState ℝ} (sound : Sound ψ) : ∃ σ, Assignment.Within ψ.frame.qudits σ ∧ ψ.wave σ ≠ 0 := by
  have unit := (Dense.normSq_weight _ _ sound.exact.distinct sound.full).symm.trans sound.norm
  exact Dense.weight_support _ _ sound.exact.distinct (unit.trans_ne one_ne_zero)

structure Collapsed (F : Frame) (qs : List Qudit) (ψ : DenseState ℝ) : Prop extends Whole F ψ where
  pinned : ∀ q ∈ qs, Pinned F.qudits ψ.wave q

theorem Whole.collapsed {F : Frame} {ψ : DenseState ℝ} {ps qs : List Qudit} (whole : Whole F ψ) (settled : Settled F ps ψ)
    (covered : qs ⊆ ps) : Collapsed F qs ψ := by
  refine ⟨whole, fun q listed => ?_⟩
  rw [wave, whole.frame]
  exact settled.pinned q (covered listed)

theorem Whole.settled {F : Frame} {ψ : DenseState ℝ} (whole : Whole F ψ) : Settled F [] ψ :=
  ⟨whole.frame, whole.frame ▸ whole.full, fun _ none => (List.not_mem_nil none).elim⟩

theorem collapsed_performAs {F : Frame} {op : Operation ℝ} (name : String) (b : Bench (DenseState ℝ)) (whole : Whole F b.state)
    (settles : op.Settles b.log (routes (DenseState ℝ))) (done : (performAs name op.qudits op b).1 = .ok ()) :
    Collapsed F op.qudits (performAs name op.qudits op b).2.state := by
  have exact : F.Exact := whole.frame ▸ whole.exact
  have positive : ∀ q ∈ F.qudits, 0 < q.dim := whole.frame ▸ whole.positive
  obtain ⟨r, resolved, settles⟩ := settles
  rw [performAs_resolve, resolved] at done ⊢
  cases r with
  | measure m =>
      obtain ⟨collapses, covered⟩ := settles
      have measures := leaves_both (whole_measured exact m) (settles_measure exact m collapses)
      have carries : Leaves _ (carryOut name op.qudits (some (.measure m)) : Step ℝ (DenseState ℝ) Unit) _ :=
        leaves_bind measures fun _ => leaves_pure ()
      obtain ⟨after, settled⟩ := carries b ⟨whole, whole.settled⟩ () done
      exact after.collapsed settled covered
  | reset targets =>
      have resets := leaves_both (whole_cleared exact targets) (settles_reset exact positive targets)
      obtain ⟨after, settled⟩ := resets b ⟨whole, whole.settled⟩ () done
      exact after.collapsed settled settles
  | skip | unitary _ | mixture _ _ | channel _ _ | stabilizer _ | parts _ => exact settles.elim

end DenseState

end QuantumRegister
