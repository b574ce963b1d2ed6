import QuantumRegister.Proofs.Representation

/-!
Carrying out an operation is resolving it against the log and acting on the resolution. What is left
of the operation after that is its name, for errors, and the order of its qudits, for matrices.
-/

set_option autoImplicit false

namespace QuantumRegister

variable {R S : Type}

theorem Capabilities.resolve_parts (c : Capabilities R) (parts : Option (List (Operation R))) (routes : List Route)
    (ops : List (Operation R)) (resolved : c.resolve parts routes = some (.parts ops)) : parts = some ops := by
  rw [Capabilities.resolve] at resolved
  split at resolved
  · cases resolved
  · split at resolved
    · cases resolved
    · split at resolved
      · cases resolved
      · obtain ⟨route, -, offered⟩ := List.exists_of_findSome?_eq_some resolved
        cases route with
        | parts => simpa [Capabilities.onRoute] using offered
        | unitary | mixture | channel | stabilizer => simp [Capabilities.onRoute] at offered

theorem Capabilities.resolve_measure (c : Capabilities R) (parts : Option (List (Operation R))) (routes : List Route)
    (m : Measurement R) (resolved : c.resolve parts routes = some (.measure m)) : c.measurement = some m := by
  rw [Capabilities.resolve] at resolved
  split at resolved
  · cases resolved
  · split at resolved
    · rename_i found
      cases resolved
      exact found
    · split at resolved
      · cases resolved
      · obtain ⟨route, -, offered⟩ := List.exists_of_findSome?_eq_some resolved
        cases route <;> simp [Capabilities.onRoute] at offered

namespace Operation

theorem resolve_satisfied (log : Log) (routes : List Route) (op inner : Operation R) (key : String)
    (guarded : op.control = some (key, inner)) (holds : log.conditionHolds key = true) :
    op.resolve log routes = inner.resolve log routes := by
  obtain ⟨c, parts, control⟩ := op
  cases guarded
  rw [resolve, if_pos holds]

theorem resolve_unsatisfied (log : Log) (routes : List Route) (op inner : Operation R) (key : String)
    (guarded : op.control = some (key, inner)) (fails : log.conditionHolds key = false) :
    op.resolve log routes = some .skip := by
  obtain ⟨c, parts, control⟩ := op
  cases guarded
  rw [resolve, fails]
  rfl

end Operation

namespace Representation

open Step

variable [Scalar R] [Representation R S]

def carryOut (name : String) (qs : List Qudit) : Option (Resolution R) → Step R S Unit
  | some (.parts ops) => performAll ops
  | r => carry name qs r

theorem performAs_resolve (name : String) (qs : List Qudit) :
    ∀ (op : Operation R) (b : Bench S), performAs name qs op b = carryOut name qs (op.resolve b.log (routes S)) b
  | ⟨c, parts, some (key, inner)⟩, b => by
      have read : performAs name qs ⟨c, parts, some (key, inner)⟩ b
          = (if b.log.conditionHolds key then performAs name qs inner else pure () : Step R S Unit) b := by
        rw [performAs]
        rfl
      rw [read, Operation.resolve]
      split
      · exact performAs_resolve name qs inner b
      · rfl
  | ⟨c, some parts, none⟩, b => by
      rw [performAs, Operation.resolve]
      cases resolved : c.resolve (some parts) (routes S) with
      | none => rfl
      | some r =>
          cases r with
          | parts ops =>
              obtain ⟨⟩ := Capabilities.resolve_parts c _ _ ops resolved
              rfl
          | skip | measure _ | reset _ | unitary _ | mixture _ _ | channel _ _ | stabilizer _ => rfl
  | ⟨c, none, none⟩, b => by
      rw [performAs, Operation.resolve]
      cases resolved : c.resolve none (routes S) with
      | none => rfl
      | some r =>
          cases r with
          | parts ops => exact absurd (Capabilities.resolve_parts c _ _ ops resolved) (by simp)
          | skip | measure _ | reset _ | unitary _ | mixture _ _ | channel _ _ | stabilizer _ => rfl

variable (name : String) (qs : List Qudit) (op inner : Operation R) (key : String) (guarded : op.control = some (key, inner))
  (b : Bench S)

include guarded

theorem performAs_satisfied (holds : b.log.conditionHolds key = true) : performAs name qs op b = performAs name qs inner b := by
  rw [performAs_resolve, performAs_resolve, Operation.resolve_satisfied b.log _ op inner key guarded holds]

theorem performAs_unsatisfied (fails : b.log.conditionHolds key = false) : performAs name qs op b = (.ok (), b) := by
  rw [performAs_resolve, Operation.resolve_unsatisfied b.log _ op inner key guarded fails]
  rfl

end Representation

end QuantumRegister
