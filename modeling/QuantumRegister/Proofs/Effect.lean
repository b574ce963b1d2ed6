import QuantumRegister.Dense.State
import QuantumRegister.Proofs.Resolution
import QuantumRegister.Stabilizer.State

/-!
What a step leaves behind: its answer or the kind of its error, the state, and the cells. The name of
an operation is no part of that.
-/

set_option autoImplicit false

namespace QuantumRegister

variable {R S α β γ : Type}

namespace SimError

inductive Kind where
  | unsupported
  | notSeparable
  | shapeMismatch
  | configuration
  | quditNotFound
  | repeatedQudit
  | invalidChannel
  | dangling
deriving DecidableEq

def kind : SimError R → Kind
  | .unsupported _ => .unsupported
  | .notSeparable _ _ => .notSeparable
  | .shapeMismatch _ _ => .shapeMismatch
  | .configuration _ => .configuration
  | .quditNotFound _ => .quditNotFound
  | .repeatedQudit _ => .repeatedQudit
  | .invalidChannel _ => .invalidChannel
  | .dangling _ => .dangling

def seen (outcome : Except (SimError R) α × β) : Except Kind α × β := (outcome.1.mapError kind, outcome.2)

theorem seen_error (e : SimError R) (b : β) : seen ((.error e, b) : Except (SimError R) α × β) = (.error e.kind, b) := rfl

theorem seen_cases (x y : Except (SimError R) α × β) (same : seen x = seen y) :
    (∃ a b, x = (.ok a, b) ∧ y = (.ok a, b)) ∨ ∃ e e' b, x = (.error e, b) ∧ y = (.error e', b) ∧ e.kind = e'.kind := by
  obtain ⟨x, b⟩ := x
  obtain ⟨y, b'⟩ := y
  have answers : x.mapError kind = y.mapError kind := congrArg Prod.fst same
  obtain rfl : b = b' := congrArg Prod.snd same
  cases x with
  | ok a =>
      cases y with
      | ok a' =>
          cases answers
          exact Or.inl ⟨a, b, rfl, rfl⟩
      | error e => cases answers
  | error e =>
      cases y with
      | ok a => cases answers
      | error e' => exact Or.inr ⟨e, e', b, rfl, rfl, Except.error.inj answers⟩

end SimError

open QuantumRegister.SimError (seen seen_cases)

theorem Step.seen_bind (step step' : Step R S α) (next next' : α → Step R S β) (b b' : Bench S)
    (first : seen (step b) = seen (step' b')) (rest : ∀ a c, seen (next a c) = seen (next' a c)) :
    seen ((step >>= next) b) = seen ((step' >>= next') b') := by
  rw [Step.bind_apply, Step.bind_apply]
  obtain ⟨a, c, here, there⟩ | ⟨e, e', c, here, there, alike⟩ := seen_cases _ _ first
  · rw [here, there]
    exact rest a c
  · rw [here, there]
    exact congrArg (fun k => (Except.error k, c)) alike

namespace Representation

open Step

theorem seen_run [Representation R S] (step step' : Step R S α) (s : S) (c : Cells)
    (same : seen (step (bench s c)) = seen (step' (bench s c))) : seen (run step s c) = seen (run step' s c) := by
  obtain ⟨a, b, here, there⟩ | ⟨e, e', b, here, there, alike⟩ := seen_cases _ _ same
  · rw [run_of step s c _ b here, run_of step' s c _ b there]
  · rw [run_of step s c _ b here, run_of step' s c _ b there]
    exact congrArg (fun k => (Except.error k, _)) alike

class Anonymous (R : outParam Type) (S : Type) [Representation R S] : Prop where
  seen_enact : ∀ (name name' : String) (qs : List Qudit) (r : Resolution R) (b : Bench S),
    seen (enact name qs r b) = seen (enact name' qs r b)
  parts_offered : Route.parts ∈ routes S

section

variable [Scalar R]

instance : Anonymous R (DenseState R) where
  seen_enact _ _ _ r _ := by
    cases r <;> rfl
  parts_offered := (by decide : Route.parts ∈ [Route.unitary, .mixture, .channel, .parts])

instance : Anonymous R (StabilizerState R) where
  seen_enact _ _ _ r _ := by
    cases r <;> rfl
  parts_offered := (by decide : Route.parts ∈ [Route.stabilizer, .parts])

end

variable [Scalar R] [Representation R S] [Anonymous R S]

theorem seen_carry (name name' : String) (qs : List Qudit) (r : Option (Resolution R)) (b : Bench S) :
    seen (carry name qs r b) = seen (carry name' qs r b) := by
  cases r with
  | none => rfl
  | some r =>
      cases r with
      | skip | measure _ | reset _ | parts _ => rfl
      | unitary _ | mixture _ _ | channel _ _ | stabilizer _ => exact Anonymous.seen_enact name name' qs _ b

theorem seen_carryOut (name name' : String) (qs : List Qudit) (r : Option (Resolution R)) (b : Bench S) :
    seen (carryOut name qs r b) = seen (carryOut name' qs r b) := by
  cases r with
  | none => exact seen_carry name name' qs none b
  | some r =>
      cases r with
      | parts ops => rfl
      | skip | measure _ | reset _ | unitary _ | mixture _ _ | channel _ _ | stabilizer _ =>
          exact seen_carry name name' qs _ b

theorem seen_performAs (name name' : String) (qs : List Qudit) (op : Operation R) (b : Bench S) :
    seen (performAs name qs op b) = seen (performAs name' qs op b) := by
  rw [performAs_resolve, performAs_resolve]
  exact seen_carryOut name name' qs _ b

end Representation

end QuantumRegister
