import QuantumRegister.Proofs.Lawful
import QuantumRegister.Proofs.Log
import QuantumRegister.Proofs.Recorded
import QuantumRegister.Proofs.Resolution

/-!
What an operation writes to the log of a state: one record for each measurement in it that succeeds, and
no other records. Branch indices may come between them.
-/

set_option autoImplicit false

namespace QuantumRegister

open QuantumRegister.Log (Noted Write)
open QuantumRegister.Representation (enact frame measure measure_apply observe perform performAll performAs rawOutcome routes
  rows settle)

variable {R S α β : Type}

/-! Steps that write no record. -/

namespace Step

def Quiet (step : Step R S α) : Prop := ∀ b, Noted [] b.log (step b).2.log

theorem quiet_pure (a : α) : Quiet (pure a : Step R S α) := fun b => .refl b.log

theorem quiet_throw (e : SimError R) : Quiet (throw e : Step R S α) := fun b => .refl b.log

theorem quiet_bind {step : Step R S α} {next : α → Step R S β} (first : Quiet step) (rest : ∀ a, Quiet (next a)) :
    Quiet (step >>= next) := by
  intro b
  have before := first b
  rw [bind_apply]
  generalize step b = outcome at before ⊢
  obtain ⟨x, c⟩ := outcome
  cases x with
  | ok a => exact before.trans (rest a c)
  | error e => exact before

theorem quiet_get {next : Bench S → Step R S α} (rest : ∀ b, Quiet (next b)) : Quiet (get >>= next) := fun b => rest b b

theorem quiet_ofExcept (x : Except (SimError R) α) : Quiet (ofExcept x : Step R S α) := by
  cases x with
  | ok a => exact quiet_pure a
  | error e => exact quiet_throw e

theorem quiet_draw (d : Random.Draw α) : Quiet (draw d : Step R S α) := fun b => .refl b.log

theorem quiet_setState (s : S) : Quiet (setState s : Step R S Unit) := fun b => .refl b.log

theorem quiet_recordBranch (key : Option String) (index : ℕ) : Quiet (recordBranch key index : Step R S Unit) := by
  cases key with
  | none => exact quiet_pure ()
  | some key => exact fun b => Log.noted_branch b.log key index

theorem quiet_guard (p : Prop) [Decidable p] (e : SimError R) {next : Step R S α} (rest : Quiet next) :
    Quiet (if p then (throw e : Step R S Unit) >>= fun _ => next else next) := by
  split
  · exact quiet_bind (quiet_throw e) fun _ => rest
  · exact rest

theorem quiet_forM (xs : List α) {body : α → Step R S Unit} (each : ∀ x, Quiet (body x)) : Quiet (xs.forM body) := by
  induction xs with
  | nil => exact quiet_pure ()
  | cons x xs ih => exact quiet_bind (each x) fun _ => ih

end Step

open Step

class Reticent (R : outParam Type) (S : Type) [Representation R S] : Prop where
  enacted : ∀ (name : String) (qs : List Qudit) (r : Resolution R), Quiet (enact name qs r : Step R S Unit)
  observed : ∀ qs : List Qudit, Quiet (observe qs : Step R S (List ℕ))
  cleared : ∀ qs : List Qudit, Quiet (Representation.reset qs : Step R S Unit)

section Kinds

variable [Scalar R]

theorem DenseState.quiet_observe (qs : List Qudit) : Quiet (DenseState.observe qs : Step R (DenseState R) (List ℕ)) :=
  quiet_get fun _ => quiet_bind (quiet_ofExcept _) fun _ => quiet_bind (quiet_draw _) fun _ =>
    quiet_bind (quiet_setState _) fun _ => quiet_pure _

theorem DenseState.quiet_resetOne (q : Qudit) : Quiet (DenseState.resetOne q : Step R (DenseState R) Unit) := by
  refine quiet_bind (quiet_observe [q]) fun values => ?_
  dsimp only
  split
  · exact quiet_get fun _ => quiet_bind (quiet_ofExcept _) fun φ => quiet_setState φ
  · exact quiet_pure ()

instance : Reticent R (DenseState R) where
  enacted name qs r := by
    cases r with
    | unitary m => exact quiet_get fun _ => quiet_bind (quiet_ofExcept _) fun φ => quiet_setState φ
    | mixture branches key =>
        refine quiet_bind (quiet_ofExcept _) fun _ => quiet_get fun _ => quiet_bind (quiet_ofExcept _) fun l => ?_
        split
        · exact quiet_throw _
        · exact quiet_bind (quiet_draw _) fun k => quiet_get fun _ => quiet_bind (quiet_setState _) fun _ =>
            quiet_recordBranch key k
    | channel ops key =>
        refine quiet_guard _ _ (quiet_bind (quiet_ofExcept _) fun _ => quiet_get fun _ => quiet_bind (quiet_ofExcept _) fun l => ?_)
        refine quiet_bind (quiet_draw _) fun p => quiet_get fun _ => quiet_bind (quiet_setState _) fun _ => ?_
        exact quiet_guard _ _ (quiet_bind (quiet_setState _) fun _ => quiet_recordBranch key _)
    | skip | measure _ | reset _ | stabilizer _ | parts _ => exact quiet_throw _
  observed := DenseState.quiet_observe
  cleared qs := quiet_get fun _ => quiet_bind (quiet_ofExcept _) fun _ => quiet_forM qs DenseState.quiet_resetOne

instance : Reticent R (StabilizerState R) where
  enacted name qs r := by
    cases r with
    | stabilizer gates =>
        exact quiet_bind (quiet_ofExcept _) fun _ => quiet_get fun _ => quiet_bind (quiet_ofExcept _) fun ks => quiet_setState _
    | skip | measure _ | reset _ | unitary _ | mixture _ _ | channel _ _ | parts _ => exact quiet_throw _
  observed qs := quiet_get fun _ => quiet_bind (quiet_ofExcept _) fun _ => quiet_bind (quiet_draw _) fun _ =>
    quiet_bind (quiet_setState _) fun _ => quiet_pure _
  cleared qs := quiet_get fun _ => quiet_bind (quiet_ofExcept _) fun _ => quiet_bind (quiet_draw _) fun _ => quiet_setState _

end Kinds

/-! Measurements. -/

inductive Operation.Unmeasured : Operation R → Prop
  | mk (c : Capabilities R) (parts : Option (List (Operation R))) (control : Option (String × Operation R))
      (own : c.measurement = none) (each : ∀ ops, parts = some ops → ∀ op ∈ ops, Unmeasured op)
      (inner : ∀ key op, control = some (key, op) → Unmeasured op) : Unmeasured ⟨c, parts, control⟩

namespace Representation

variable [Scalar R] [Representation R S]

def note (m : Measurement R) (b : Bench S) : List Write :=
  match (measure m b).1 with
  | .ok values => [.measurement m.key m.qudits values]
  | .error _ => []

mutual

/-- The records of all measurements that succeed in an operation, in order: in a part that is reached, or
under a condition that holds when its turn comes. -/
def notes : Operation R → Bench S → List Write
  | ⟨_, _, some (key, inner)⟩, b => if b.log.conditionHolds key then notes inner b else []
  | ⟨c, some parts, none⟩, b =>
    match c.resolve (some parts) (routes S) with
    | some (.parts _) => allNotes parts b
    | some (.measure m) => note m b
    | _ => []
  | ⟨c, none, none⟩, b =>
    match c.resolve none (routes S) with
    | some (.measure m) => note m b
    | _ => []

def allNotes : List (Operation R) → Bench S → List Write
  | [], _ => []
  | op :: ops, b => notes op b ++
    match perform op b with
    | (.ok _, c) => allNotes ops c
    | (.error _, _) => []

end

theorem notes_unmeasured (op : Operation R) (unmeasured : op.Unmeasured) (b : Bench S) : notes op b = [] := by
  induction unmeasured generalizing b with
  | mk c parts control own _ _ each inner =>
      have never (parts : Option (List (Operation R))) (m : Measurement R) : c.resolve parts (routes S) ≠ some (.measure m) :=
        fun resolved => Option.some_ne_none m ((c.resolve_measure parts _ m resolved).symm.trans own)
      cases control with
      | some guarded =>
          rw [notes]
          split
          · exact inner guarded.1 guarded.2 rfl b
          · rfl
      | none =>
          cases parts with
          | none =>
              rw [notes]
              split
              · exact absurd ‹_› (never none _)
              · rfl
          | some ops =>
              have parted (rest : List (Operation R)) (among : rest ⊆ ops) (b : Bench S) : allNotes rest b = [] := by
                induction rest generalizing b with
                | nil => rfl
                | cons op rest ih =>
                    obtain ⟨first, later⟩ := List.cons_subset.mp among
                    rw [allNotes, each ops rfl op first b, List.nil_append]
                    split
                    · exact ih later _
                    · rfl
              rw [notes]
              split
              · exact parted ops (List.Subset.refl ops) b
              · exact absurd ‹_› (never (some ops) _)
              · rfl

theorem noted_measure [Reticent R S] (m : Measurement R) (b : Bench S) : Noted (note m b) b.log (measure m b).2.log := by
  have raw : Quiet (rawOutcome m : Step R S (List ℕ)) := by
    rw [rawOutcome]
    split
    · exact Reticent.observed m.qudits
    · exact quiet_bind (quiet_draw _) fun _ => quiet_get fun _ => quiet_bind (quiet_ofExcept _) fun _ => quiet_pure _
  rw [note, measure_apply]
  cases (frame b.state).axes (R := R) m.qudits with
  | error e => exact .refl b.log
  | ok axes =>
      have found := raw b
      dsimp only
      generalize rawOutcome m b = outcome at found ⊢
      obtain ⟨values | values, c⟩ := outcome
      · exact found
      · dsimp only
        rw [settle]
        obtain ⟨recorded | recorded, source⟩ := m.correct values c.source
        · exact found
        · dsimp only
          have written := Log.noted_measurement R c.log m.key m.qudits recorded
          rw [Log.accepted, Write.attempt] at written
          generalize (Log.recordMeasurement m.key m.qudits recorded : Log.Edit R Unit) c.log = outcome at written ⊢
          obtain ⟨done | done, log⟩ := outcome <;> exact found.trans written

theorem noted_carry [Reticent R S] (name : String) (qs : List Qudit) (r : Option (Resolution R)) (b : Bench S) :
    Noted (match r with | some (.measure m) => note m b | _ => []) b.log (carry name qs r b).2.log := by
  cases r with
  | none => exact quiet_throw _ b
  | some r =>
      cases r with
      | measure m =>
          have unfolded : carry name qs (some (.measure m)) b = (measure m >>= fun _ => pure () : Step R S Unit) b := rfl
          have measured := noted_measure m b
          rw [unfolded, bind_apply]
          generalize measure m b = outcome at measured ⊢
          obtain ⟨x, c⟩ := outcome
          cases x <;> exact measured
      | skip => exact quiet_pure () b
      | parts ops => exact quiet_throw _ b
      | reset targets => exact Reticent.cleared targets b
      | unitary _ | mixture _ _ | channel _ _ | stabilizer _ => exact Reticent.enacted name qs _ b

mutual

theorem noted_performAs [Reticent R S] (name : String) (qs : List Qudit) :
    ∀ (op : Operation R) (b : Bench S), Noted (notes op b) b.log (performAs name qs op b).2.log
  | ⟨c, parts, some (key, inner)⟩, b => by
      rw [notes]
      cases holds : b.log.conditionHolds key with
      | true =>
          rw [performAs_satisfied name qs ⟨c, parts, some (key, inner)⟩ inner key rfl b holds, if_pos rfl]
          exact noted_performAs name qs inner b
      | false =>
          rw [performAs_unsatisfied name qs ⟨c, parts, some (key, inner)⟩ inner key rfl b holds]
          exact .refl b.log
  | ⟨c, some parts, none⟩, b => by
      rw [notes, performAs]
      have carried := noted_carry name qs (c.resolve (some parts) (routes S)) b
      generalize c.resolve (some parts) (routes S) = resolved at carried ⊢
      cases resolved with
      | none => exact carried
      | some r =>
          cases r with
          | parts ops => exact noted_performAll parts b
          | skip | measure _ | reset _ | unitary _ | mixture _ _ | channel _ _ | stabilizer _ => exact carried
  | ⟨c, none, none⟩, b => by
      rw [notes, performAs]
      exact noted_carry name qs _ b

theorem noted_performAll [Reticent R S] : ∀ (ops : List (Operation R)) (b : Bench S), Noted (allNotes ops b) b.log (performAll ops b).2.log
  | [], b => .refl b.log
  | op :: ops, b => by
      have first := noted_performAs op.name op.qudits op b
      rw [allNotes, performAll, bind_apply, perform]
      generalize performAs op.name op.qudits op b = outcome at first ⊢
      obtain ⟨x, c⟩ := outcome
      cases x with
      | ok u => exact first.trans (noted_performAll ops c)
      | error e => exact (List.append_nil (notes op b)).symm ▸ first

end

end Representation

end QuantumRegister
