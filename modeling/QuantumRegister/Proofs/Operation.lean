import QuantumRegister.Operation.Channel
import QuantumRegister.Proofs.Unitary

/-!
Operations built from gates, measurements, resets, channels, sequences of operations and conditions,
each on distinct qudits of one list.
-/

set_option autoImplicit false

namespace QuantumRegister

namespace Qudit

theorem mem_distinctAfter (seen qs : List Qudit) (q : Qudit) : q ∈ distinctAfter seen qs ↔ q ∈ qs ∧ q ∉ seen := by
  induction qs generalizing seen with
  | nil => simp [distinctAfter]
  | cons p qs ih =>
      rw [distinctAfter]
      by_cases old : seen.contains p
      · rw [if_pos old, ih]
        have member : p ∈ seen := List.contains_iff_mem.mp old
        by_cases same : q = p
        · subst same
          simp [member]
        · simp [same]
      · rw [if_neg old, List.mem_cons, ih]
        have absent : p ∉ seen := fun member => old (List.contains_iff_mem.mpr member)
        by_cases same : q = p
        · subst same
          simp [absent]
        · simp [same]

theorem nodup_distinctAfter (seen qs : List Qudit) : (distinctAfter seen qs).Nodup := by
  induction qs generalizing seen with
  | nil => exact List.nodup_nil
  | cons p qs ih =>
      rw [distinctAfter]
      by_cases old : seen.contains p
      · rw [if_pos old]
        exact ih seen
      · rw [if_neg old]
        refine List.nodup_cons.mpr ⟨fun member => ?_, ih (p :: seen)⟩
        exact ((mem_distinctAfter (p :: seen) qs p).mp member).2 List.mem_cons_self

end Qudit

structure Names (Q qs : List Qudit) : Prop where
  once : qs.Nodup
  inside : qs ⊆ Q

theorem Names.mono {Q Q' qs : List Qudit} (names : Names Q qs) (inside : Q ⊆ Q') : Names Q' qs :=
  ⟨names.once, List.Subset.trans names.inside inside⟩

section Pairs

variable {Q : List Qudit} {a b : Qudit} (names : Names Q [a, b])

include names

theorem Names.different : a ≠ b := fun same => (List.nodup_cons.mp names.once).1 (same ▸ List.mem_cons_self)

theorem Names.first : a ∈ Q := names.inside List.mem_cons_self

theorem Names.second : b ∈ Q := names.inside (List.mem_cons_of_mem a List.mem_cons_self)

theorem Names.turned : Names Q [b, a] :=
  ⟨(List.Perm.swap a b []).nodup_iff.mpr names.once, fun _ listed => names.inside ((List.Perm.swap a b []).subset listed)⟩

end Pairs

namespace Operation

inductive Built (Q : List Qudit) : Operation ℝ → Prop
  | gate (g : Gate ℝ) (names : Names Q g.targets) : Built Q g.operation
  | measurement (m : Measurement ℝ) (names : Names Q m.qudits) : Built Q m.operation
  | reset (qs : List Qudit) (names : Names Q qs) : Built Q (Operation.reset qs)
  | mixture (m : Mixture ℝ) (names : Names Q m.qudits) (unitary : ∀ b ∈ m.branches, b.2.Unitary) : Built Q m.operation
  | kraus (c : KrausChannel ℝ) (names : Names Q c.qudits) : Built Q c.operation
  | composite (name : String) (ops : List (Operation ℝ)) (parts : ∀ op ∈ ops, Built Q op) : Built Q (Operation.composite name ops)
  | controlled (key : String) (op : Operation ℝ) (inner : Built Q op) : Built Q (Operation.controlled key op)

theorem qudits_composite (name : String) (ops : List (Operation ℝ)) (q : Qudit) :
    q ∈ (Operation.composite name ops).qudits ↔ ∃ op ∈ ops, q ∈ op.qudits := by
  have listed := Qudit.mem_distinctAfter [] (ops.flatMap fun op => op.qudits) q
  rw [List.mem_flatMap] at listed
  exact listed.trans (and_iff_left List.not_mem_nil)

theorem Built.names {Q : List Qudit} {op : Operation ℝ} (built : Built Q op) : Names Q op.qudits := by
  induction built with
  | gate g names => exact names
  | measurement m names => exact names
  | reset qs names => exact names
  | mixture m names _ => exact names
  | kraus c names => exact names
  | composite name ops parts ih =>
      refine ⟨Qudit.nodup_distinctAfter _ _, fun q listed => ?_⟩
      obtain ⟨op, member, inside⟩ := (qudits_composite name ops q).mp listed
      exact (ih op member).inside inside
  | controlled key op inner ih => exact ih

theorem Built.restrict {Q L : List Qudit} {op : Operation ℝ} (built : Built Q op) (inside : op.qudits ⊆ L) : Built L op := by
  induction built with
  | gate g names => exact .gate g ⟨names.once, inside⟩
  | measurement m names => exact .measurement m ⟨names.once, inside⟩
  | reset qs names => exact .reset qs ⟨names.once, inside⟩
  | mixture m names unitary => exact .mixture m ⟨names.once, inside⟩ unitary
  | kraus c names => exact .kraus c ⟨names.once, inside⟩
  | composite name ops parts ih =>
      refine .composite name ops fun op member => ih op member fun q listed => inside ?_
      exact (qudits_composite name ops q).mpr ⟨op, member, listed⟩
  | controlled key op inner ih => exact .controlled key op (ih inside)

end Operation

end QuantumRegister
