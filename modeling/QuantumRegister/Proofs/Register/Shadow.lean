import QuantumRegister.Proofs.Register.Exchange
import QuantumRegister.Proofs.Register.Work

/-!
Operations on a register do to the single state that it stands for what they do to a single state:
with the same draws, the same records, and the same cells afterwards.
-/

set_option autoImplicit false

namespace QuantumRegister

open QuantumRegister.Dense
open QuantumRegister.DenseState (Fragment)
open QuantumRegister.Operation (Built)
open QuantumRegister.Representation (run perform performAs bench run_of run_pure)

namespace Register

variable {s : Settings ℝ} {r : Register ℝ (DenseState ℝ)} {Ψ : DenseState ℝ}

namespace Joint

variable (joint : Joint s r Ψ) (c : Cells)

include joint

theorem runOn {op : Operation ℝ} (built : Built r.qudits op) (h : ℕ) (t : DenseState ℝ) (live : r.slots.get? h = some t)
    (inside : op.qudits ⊆ t.frame.qudits) (Φ : DenseState ℝ) (d : Cells) (done : run (perform op) Ψ c = (.ok (), Φ, d)) :
    ∃ r', Register.runOn h (perform op) ⟨r, c⟩ = (.ok (), ⟨r', d⟩) ∧ Joint s r' Φ ∧ r'.qudits = r.qudits := by
  obtain ⟨aside, fragment⟩ := joint.aside h t live
  have wired := joint.arena.wired h t live
  have source : t.frame.source = Ψ.frame.source := wired.1.trans joint.wired.1.symm
  have log : t.frame.log = Ψ.frame.log := wired.2.trans joint.wired.2.symm
  have level : Step.Level (Fragment t.frame Ψ.frame (r.rest h)) (bench t c) (bench Ψ c) :=
    ⟨congrArg c.source source, congrArg c.log log, fragment⟩
  have follows := DenseState.follows_performAs aside (built.restrict inside) op.name _ _ level ()
  cases far : performAs op.name op.qudits op (bench Ψ c) with
  | mk e B =>
      rw [run_of (perform op) Ψ c e B far] at done
      cases done
      obtain ⟨u, own, -, after⟩ := follows (congrArg Prod.fst far)
      rw [far] at after
      cases near : performAs op.name op.qudits op (bench t c) with
      | mk e b =>
          rw [near] at own after
          cases own
          refine ⟨{ r with slots := r.slots.put h b.state }, ?_, joint.put h t b.state B.state live after.state, rfl⟩
          have stepped : run (perform op) t c = (.ok (), b.state, (c.setSource t.frame.source b.source).setLog t.frame.log b.log) :=
            run_of (perform op) t c (.ok ()) b near
          rw [source, log, after.source, after.log] at stepped
          simp only [Register.runOn, live, stepped]
          rfl

theorem separate (qs : List Qudit) (inside : qs ⊆ r.qudits) (pinned : ∀ q ∈ qs, Pinned r.qudits Ψ.wave q) :
    ∃ r', Register.separate qs ⟨r, c⟩ = (.ok (), ⟨r', c⟩) ∧ Joint s r' Ψ := by
  rw [Register.separate]
  split
  · rename_i both
    obtain ⟨r', done, after⟩ := joint.splitAll (Bool.and_eq_true_iff.mp both).1 qs inside pinned
    exact ⟨r', by rw [done], after⟩
  · exact ⟨r, rfl, joint⟩

theorem settled {op : Operation ℝ} (built : Built r.qudits op) (collapses : op.collapses = true) (Φ : DenseState ℝ) (d : Cells)
    (done : run (perform op) Ψ c = (.ok (), Φ, d)) : ∀ q ∈ op.qudits, Pinned r.qudits Φ.wave q := by
  have order := joint.order
  have positive : ∀ q ∈ Ψ.frame.qudits, 0 < q.dim := order ▸ joint.positive
  have settles := DenseState.settles_performAs joint.whole.exact positive (order ▸ built) collapses op.name (bench Ψ c)
    ⟨rfl, joint.whole.full, fun q listed => (List.not_mem_nil listed).elim⟩ ()
  cases stepped : performAs op.name op.qudits op (bench Ψ c) with
  | mk e B =>
      rw [run_of (perform op) Ψ c e B stepped] at done
      cases done
      obtain ⟨frame, -, pinned⟩ := settles (congrArg Prod.fst stepped)
      rw [stepped] at frame pinned
      intro q listed
      rw [DenseState.wave, frame, ← order]
      exact pinned q listed

theorem applyMerged {op : Operation ℝ} (built : Built r.qudits op) (Φ : DenseState ℝ) (d : Cells)
    (done : run (perform op) Ψ c = (.ok (), Φ, d)) :
    ∃ r', Register.applyMerged op ⟨r, c⟩ = (.ok (), ⟨r', d⟩) ∧ Joint s r' Φ := by
  have inside := built.names.inside
  obtain ⟨h, r₁, t, merged, between, live, owns⟩ := joint.merge op.qudits inside
  have same : r₁.qudits = r.qudits := between.order.symm.trans joint.order
  obtain ⟨r₂, ran, after, kept⟩ := between.runOn c (same ▸ built) h t live owns Φ d done
  have change : Register.change (·.merge op.qudits) ⟨r, c⟩ = (.ok h, ⟨r₁, c⟩) := by rw [Register.change, merged]
  rw [Register.applyMerged, act_bind_apply, change]
  dsimp only
  rw [act_bind_apply, ran]
  dsimp only
  by_cases collapses : op.collapses = true
  · rw [if_pos collapses]
    have whole : r₂.qudits = r.qudits := kept.trans same
    refine after.separate d op.qudits (whole ▸ inside) ?_
    rw [whole]
    exact joint.settled c built collapses Φ d done
  · rw [if_neg collapses]
    exact ⟨r₂, rfl, after⟩

end Joint

end Register

namespace Operation

-- An exchange of labels needs two qudits of one dimension.
def Level (op : Operation ℝ) : Prop := op.isSwap = true → ∀ a b, op.qudits = [a, b] → a.dim = b.dim

variable {Q : List Qudit} {op : Operation ℝ} (built : Built Q op)

include built

theorem Built.idle (identity : op.isIdentity = true) : perform op = (pure () : Step ℝ (DenseState ℝ) Unit) := by
  cases built with
  | gate g names =>
      have same : g.isIdentity = true := identity
      exact (DenseState.performAs_gate g g.operation.name g.targets).trans (if_pos same)
  | measurement m names => cases identity
  | reset qs names => cases identity
  | mixture m names unitary => cases identity
  | kraus c names => cases identity
  | composite name ops parts => cases identity
  | controlled key op inner => cases identity

theorem Built.swap (isSwap : op.isSwap = true) : ∃ a b, op = (Gate.swap a b).operation ∧ Names Q [a, b] := by
  cases built with
  | gate g names =>
      cases g with
      | swap a b => exact ⟨a, b, rfl, names⟩
      | _ => cases isSwap
  | measurement m names => cases isSwap
  | reset qs names => cases isSwap
  | mixture m names unitary => cases isSwap
  | kraus c names => cases isSwap
  | composite name ops parts => cases isSwap
  | controlled key op inner => cases isSwap

end Operation

namespace Register

variable {s : Settings ℝ} {r : Register ℝ (DenseState ℝ)} {Ψ : DenseState ℝ}

namespace Joint

variable (joint : Joint s r Ψ) (c : Cells)

include joint

theorem applySwap (a b : Qudit) (names : Names r.qudits [a, b]) (flat : a.dim = b.dim) (Φ : DenseState ℝ) (d : Cells)
    (done : run (perform (Gate.swap a b : Gate ℝ).operation) Ψ c = (.ok (), Φ, d)) :
    ∃ r', Register.change (fun r => do return ((), ← r.exchange a b)) (⟨r, c⟩ : Workspace ℝ (DenseState ℝ)) = (.ok (), ⟨r', d⟩)
      ∧ Joint s r' Φ := by
  rw [DenseState.perform_swap, DenseState.run_unitary] at done
  cases applied : Ψ.applyMatrix [a, b] (Operator.exchange 4 1 2) with
  | error e =>
      rw [applied] at done
      cases done
  | ok Ω =>
      rw [applied] at done
      cases done
      obtain ⟨r', exchanged, after⟩ := joint.exchange names.different flat applied
      refine ⟨r', ?_, after⟩
      simp only [Register.change, exchanged, bind, Except.bind]
      rfl

theorem apply {op : Operation ℝ} (built : Built r.qudits op) (level : op.Level) (Φ : DenseState ℝ) (d : Cells)
    (done : run (perform op) Ψ c = (.ok (), Φ, d)) :
    ∃ r', Register.apply op ⟨r, c⟩ = (.ok (), ⟨r', d⟩) ∧ Joint s r' Φ := by
  by_cases identity : op.isIdentity = true
  · rw [built.idle identity, run_pure] at done
    cases done
    exact ⟨r, by rw [Register.apply, if_pos identity]; rfl, joint⟩
  · have checked : Register.change (fun r : Register ℝ (DenseState ℝ) => do
        r.checkTargets op.qudits
        return ((), r)) ⟨r, c⟩ = (.ok (), ⟨r, c⟩) := by
      rw [Register.change, joint.arena.checkTargets_done op.qudits built.names]
      rfl
    rw [Register.apply, if_neg identity, act_bind_apply, checked]
    dsimp only
    cases isSwap : op.isSwap with
    | false => exact joint.applyMerged c built Φ d done
    | true =>
        obtain ⟨a, b, rfl, names⟩ := built.swap isSwap
        exact joint.applySwap c a b names (level isSwap a b rfl) Φ d done

end Joint

end Register

namespace DenseState

noncomputable def runAll : List (Operation ℝ) → DenseState ℝ → Cells → Except (SimError ℝ) Unit × DenseState ℝ × Cells
  | [], Ψ, c => (.ok (), Ψ, c)
  | op :: ops, Ψ, c =>
      match run (perform op) Ψ c with
      | (.ok (), Φ, d) => runAll ops Φ d
      | (.error e, Φ, d) => (.error e, Φ, d)

end DenseState

namespace Register

variable {s : Settings ℝ} {r : Register ℝ (DenseState ℝ)} {Ψ : DenseState ℝ}

theorem Joint.applyAll (joint : Joint s r Ψ) (c : Cells) (ops : List (Operation ℝ)) (built : ∀ op ∈ ops, Built r.qudits op)
    (level : ∀ op ∈ ops, op.Level) (Φ : DenseState ℝ) (d : Cells) (done : Ψ.runAll ops c = (.ok (), Φ, d)) :
    ∃ r', Register.applyAll ops ⟨r, c⟩ = (.ok (), ⟨r', d⟩) ∧ Joint s r' Φ := by
  induction ops generalizing r Ψ c with
  | nil =>
      cases done
      exact ⟨r, rfl, joint⟩
  | cons op ops ih =>
      rw [DenseState.runAll] at done
      cases first : run (perform op) Ψ c with
      | mk e rest =>
          obtain ⟨Ω, c'⟩ := rest
          rw [first] at done
          cases e with
          | error e => cases done
          | ok u =>
              obtain ⟨r₁, applied, between⟩ := joint.apply c (built op List.mem_cons_self) (level op List.mem_cons_self) Ω c' first
              have same := joint.arena.qudits_kept between.arena
              obtain ⟨r', rest, after⟩ := ih between c' (fun p later => same ▸ built p (List.mem_cons_of_mem op later))
                (fun p later => level p (List.mem_cons_of_mem op later)) done
              refine ⟨r', ?_, after⟩
              rw [Register.applyAll, act_bind_apply, applied]
              exact rest

end Register

end QuantumRegister
