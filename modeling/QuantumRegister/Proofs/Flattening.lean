import QuantumRegister.Proofs.Effect

/-!
Sequences and conditions nested in one operation, against the flat list of their leaves. In the list a
condition stands in front of the entries that it covers, and reads the log when its turn comes.
-/

set_option autoImplicit false

namespace QuantumRegister

open QuantumRegister.Representation
open QuantumRegister.SimError (seen seen_error)

variable {R S : Type}

namespace Operation

inductive Plan (R : Type) where
  | leaf (op : Operation R)
  | composite (name : String) (children : List (Plan R))
  | controlled (key : String) (child : Plan R)

/-- One entry of a flat list. If the record under the key does not hold, a guard passes over the
entries that it covers. -/
inductive Instruction (R : Type) where
  | leaf (op : Operation R)
  | guard (key : String) (covers : ℕ)

namespace Plan

mutual

def operation : Plan R → Operation R
  | leaf op => op
  | composite name children => Operation.composite name (operations children)
  | controlled key child => Operation.controlled key child.operation

def operations : List (Plan R) → List (Operation R)
  | [] => []
  | t :: ts => t.operation :: operations ts

end

mutual

def instructions : Plan R → List (Instruction R)
  | leaf op => [.leaf op]
  | composite _ children => allInstructions children
  | controlled key child => .guard key child.instructions.length :: child.instructions

def allInstructions : List (Plan R) → List (Instruction R)
  | [] => []
  | t :: ts => t.instructions ++ allInstructions ts

end

end Plan

def idle (op : Operation R) : Bool := op.isIdentity && op.control.isNone

end Operation

open QuantumRegister.Operation (Plan)

namespace Representation

variable [Scalar R] [Representation R S]

/-- Passes over some entries and then carries out the others in order, up to the first leaf that
fails. -/
def follow : ℕ → List (Operation.Instruction R) → Step R S Unit
  | _, [] => fun b => (.ok (), b)
  | skip + 1, _ :: rest => follow skip rest
  | 0, .guard key covers :: rest => fun b => follow (if b.log.conditionHolds key then 0 else covers) rest b
  | 0, .leaf op :: rest => fun b =>
    if op.idle then follow 0 rest b
    else
      match perform op b with
      | (.ok (), b') => follow 0 rest b'
      | (.error e, b') => (.error e, b')

theorem follow_covered (covered rest : List (Operation.Instruction R)) :
    follow covered.length (covered ++ rest) = (follow 0 rest : Step R S Unit) := by
  induction covered with
  | nil => rfl
  | cons entry covered ih => exact ih

theorem follow_idle (op : Operation R) (rest : List (Operation.Instruction R)) (idle : op.idle = true) (b : Bench S) :
    follow 0 (.leaf op :: rest) b = follow 0 rest b := if_pos idle

theorem follow_busy (op : Operation R) (rest : List (Operation.Instruction R)) (busy : ¬op.idle = true) (b : Bench S) :
    follow 0 (.leaf op :: rest) b = (perform op >>= fun _ => follow 0 rest : Step R S Unit) b := by
  have acted : follow 0 (.leaf op :: rest) b = match perform op b with
      | (.ok (), b') => follow 0 rest b'
      | (.error e, b') => (.error e, b') := if_neg busy
  rw [Step.bind_apply, acted]
  obtain ⟨answer, b'⟩ := perform op b
  cases answer <;> rfl

theorem follow_guard (key : String) (covers : ℕ) (rest : List (Operation.Instruction R)) (b : Bench S) :
    follow 0 (.guard key covers :: rest) b = follow (if b.log.conditionHolds key then 0 else covers) rest b := rfl

theorem performAs_idle (name : String) (qs : List Qudit) (op : Operation R) (idle : op.idle = true) (b : Bench S) :
    performAs name qs op b = (.ok (), b) := by
  obtain ⟨identity, free⟩ := Bool.and_eq_true_iff.mp idle
  obtain ⟨c, parts, control⟩ := op
  obtain rfl : control = none := Option.isNone_iff_eq_none.mp free
  have skipped : c.resolve parts (routes S) = some .skip := if_pos identity
  rw [performAs_resolve, Operation.resolve, skipped]
  rfl

theorem performAs_composite [Anonymous R S] (name : String) (qs : List Qudit) (title : String) (ops : List (Operation R)) :
    performAs name qs (Operation.composite title ops) = (performAll ops : Step R S Unit) := by
  have offered : ((routes S).findSome? ((Operation.composite title ops).onRoute (some ops))).isSome :=
    List.findSome?_isSome_iff.mpr ⟨.parts, Anonymous.parts_offered, rfl⟩
  obtain ⟨r, found⟩ := Option.isSome_iff_exists.mp offered
  obtain ⟨route, -, gives⟩ := List.exists_of_findSome?_eq_some found
  -- A composite offers nothing but its parts.
  obtain rfl : r = .parts ops := by
    cases route with
    | parts => exact (Option.some.inj gives).symm
    | unitary | mixture | channel | stabilizer => cases gives
  have resolved (log : Log) : (Operation.composite title ops).resolve log (routes S) = some (.parts ops) := found
  funext b
  rw [performAs_resolve, resolved]
  rfl

theorem seen_leaf [Anonymous R S] (name : String) (rest : List (Operation.Instruction R)) (op : Operation R) (b : Bench S) :
    seen ((performAs name op.qudits op >>= fun _ => follow 0 rest) b) = seen (follow 0 (.leaf op :: rest) b) := by
  by_cases idle : op.idle
  · rw [follow_idle op rest idle, Step.bind_apply, performAs_idle name op.qudits op idle]
  · rw [follow_busy op rest idle]
    exact Step.seen_bind _ _ _ _ b b (seen_performAs name op.name op.qudits op b) fun _ _ => rfl

mutual

theorem seen_plan [Anonymous R S] (name : String) (rest : List (Operation.Instruction R)) : ∀ (t : Plan R) (b : Bench S),
    seen ((performAs name t.operation.qudits t.operation >>= fun _ => follow 0 rest) b)
      = seen (follow 0 (t.instructions ++ rest) b)
  | .leaf op, b => seen_leaf name rest op b
  | .composite title children, b => by
      rw [Plan.operation, performAs_composite (S := S)]
      exact seen_plans rest children b
  | .controlled key child, b => by
      rw [Plan.operation, Plan.instructions, List.cons_append, follow_guard]
      by_cases holds : b.log.conditionHolds key
      · rw [if_pos holds, Step.bind_apply, performAs_satisfied _ _ _ child.operation key rfl b holds, ← Step.bind_apply]
        exact seen_plan name rest child b
      · rw [if_neg holds, Step.bind_apply, performAs_unsatisfied _ _ _ child.operation key rfl b (Bool.eq_false_iff.mpr holds),
          follow_covered]

theorem seen_plans [Anonymous R S] (rest : List (Operation.Instruction R)) : ∀ (ts : List (Plan R)) (b : Bench S),
    seen ((performAll (Plan.operations ts) >>= fun _ => follow 0 rest) b)
      = seen (follow 0 (Plan.allInstructions ts ++ rest) b)
  | [], b => rfl
  | t :: ts, b => by
      rw [Plan.operations, performAll, bind_assoc, Plan.allInstructions, List.append_assoc]
      have tail := Step.seen_bind (performAs t.operation.name t.operation.qudits t.operation) _ _ _ b b rfl
        fun _ c => seen_plans rest ts c
      rw [tail]
      exact seen_plan t.operation.name _ t b

end

theorem run_plan [Anonymous R S] (t : Plan R) (s : S) (c : Cells) :
    seen (run (perform t.operation) s c) = seen (run (follow 0 t.instructions) s c) := by
  refine seen_run _ _ s c ?_
  have flat := seen_plan t.operation.name [] t (bench s c)
  rw [List.append_nil] at flat
  have last : (performAs t.operation.name t.operation.qudits t.operation >>= fun _ => follow 0 [] : Step R S Unit)
      = perform t.operation := bind_pure _
  rw [← flat, last]

end Representation

theorem plans_flatten [Scalar R] (t : Plan R) :
    (∀ (ψ : DenseState R) (c : Cells),
        seen (run (perform t.operation) ψ c) = seen (run (follow 0 t.instructions) ψ c))
      ∧ ∀ (φ : StabilizerState R) (c : Cells),
        seen (run (perform t.operation) φ c) = seen (run (follow 0 t.instructions) φ c) :=
  ⟨run_plan t, run_plan t⟩

end QuantumRegister
