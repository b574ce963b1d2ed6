import QuantumRegister.Proofs.Exact
import QuantumRegister.Proofs.Lawful
import QuantumRegister.Proofs.Register.Columns
import QuantumRegister.Proofs.Register.Creation
import QuantumRegister.Proofs.Register.Work

/-!
All registers that a program reaches keep their bookkeeping: from creation through operations of any
kind, also such that fail halfway, and through copies.
-/

set_option autoImplicit false

namespace QuantumRegister

open QuantumRegister.SimError (Clean Ensures)

namespace Register

variable {R S : Type} [Representation R S] {s : Settings R} {r : Register R S}

theorem Arena.holder (valid : Arena s r) (q : Qudit) (member : q ∈ r.qudits) :
    (∃! h, q ∈ r.holdings h) ∧ (r.split = false → q ∈ r.holdings r.home) := by
  obtain ⟨h, found⟩ := Option.isSome_iff_exists.mp ((valid.known q).mpr member)
  obtain ⟨t, here, owns⟩ := (valid.owned q h).mp found
  have held : q ∈ r.holdings h := (mem_holdings r h q).mpr ⟨t, here, owns⟩
  refine ⟨⟨h, held, fun k other => ?_⟩, fun whole => ?_⟩
  · obtain ⟨u, there, also⟩ := (mem_holdings r k q).mp other
    exact valid.once q k h u t there here also owns
  · have only := valid.single (by rw [whole]; exact Bool.false_ne_true) h t here
    exact only ▸ held

/-! Questions. -/

theorem Arena.stateOf (valid : Arena s r) (q : Qudit) : Clean (r.stateOf q) := by
  refine SimError.clean_bind _ _ (valid.owner q).1 fun h found => ?_
  obtain ⟨t, here, -⟩ := (valid.owner q).2 h found
  rw [state_of_live r h t here]
  exact SimError.clean_ok t

theorem Arena.grouped (valid : Arena s r) (qs : List Qudit) (a : Columns)
    (before : ∀ h ∈ a.groups.map Prod.fst, ∃ t, r.slots.get? h = some t) :
    Ensures (fun a => ∀ h ∈ a.groups.map Prod.fst, ∃ t, r.slots.get? h = some t) (r.grouped qs a) := by
  induction qs generalizing a with
  | nil => exact SimError.ensures_ok _ a before
  | cons q qs ih =>
      refine SimError.ensures_bind (valid.owner q) fun h ⟨t, here, _⟩ => ih _ fun k member => ?_
      rcases a.handle_add h q k member with rfl | old
      · exact ⟨t, here⟩
      · exact before k old

variable [Scalar R]

-- Other registers that share the cells may change them at any time.
inductive Reached (s : Settings R) : Workspace R S → Prop where
  | new (r : Register R S) (c c' : Cells) (made : Register.new s c = .ok (r, c')) : Reached s ⟨r, c'⟩
  | apply (w : Workspace R S) (op : Operation R) (before : Reached s w) : Reached s (Register.apply op w).2
  | applyAll (w : Workspace R S) (ops : List (Operation R)) (before : Reached s w) : Reached s (Register.applyAll ops w).2
  | copy (w : Workspace R S) (deep : Bool) (before : Reached s w) :
      Reached s ⟨(w.register.copy deep w.cells).1, (w.register.copy deep w.cells).2⟩
  | meanwhile (w : Workspace R S) (c : Cells) (before : Reached s w) : Reached s ⟨w.register, c⟩

-- Nothing that can be asked of a register meets a handle without a state.
structure Anchored (w : Workspace R S) : Prop where
  apply : ∀ op : Operation R, Clean (Register.apply op w).1
  applyAll : ∀ ops : List (Operation R), Clean (Register.applyAll ops w).1
  merged : Clean w.register.merged
  stateOf : ∀ q, Clean (w.register.stateOf q)
  sample : ∀ qs repetitions seed, Clean (Register.sample qs repetitions seed w).1

variable [LawfulRepresentation R S]

theorem Reached.arena {w : Workspace R S} (reached : Reached s w) : Arena s w.register := by
  induction reached with
  | new r c c' made => exact new_arena c c' made
  | apply w op _ held => exact (meets_apply op w held).1
  | applyAll w ops _ held => exact (meets_applyAll ops w held).1
  | copy w deep _ held => exact held.copy deep w.cells
  | meanwhile w c _ held => exact held

theorem Arena.merged (valid : Arena s r) : Clean r.merged := by
  refine SimError.clean_bind _ _ (valid.ownersOf r.qudits).1 fun hs found => ?_
  obtain ⟨-, named, -⟩ := (valid.ownersOf r.qudits).2 hs found
  obtain ⟨t, atHome, -⟩ := valid.home
  rw [state_of_live r r.home t atHome]
  refine SimError.clean_bind _ _ (SimError.clean_ok t) fun u same => ?_
  cases same
  have live : ∀ h ∈ hs.filter (· != r.home), ∃ u, r.slots.get? h = some u := by
    intro h member
    obtain ⟨q, -, owns⟩ := named h (List.mem_of_mem_filter member)
    obtain ⟨u, here, -⟩ := (mem_holdings r h q).mp owns
    exact ⟨u, here⟩
  exact SimError.clean_bind _ _ (product_exact r t _ live (valid.exact r.home t atHome)).1 fun v _ =>
    LawfulRepresentation.clean_transposed v r.qudits

theorem clean_groupRows (r : Register R S) (repetitions : ℕ) (groups : List (ℕ × List Qudit))
    (live : ∀ h ∈ groups.map Prod.fst, ∃ t, r.slots.get? h = some t) (common : Random.Source) :
    Clean (r.groupRows repetitions groups common) := by
  induction groups generalizing common with
  | nil => exact SimError.clean_ok []
  | cons g groups ih =>
      obtain ⟨h, qs⟩ := g
      obtain ⟨t, here⟩ := live h List.mem_cons_self
      simp only [groupRows, state_of_live r h t here]
      refine SimError.clean_bind _ _ (SimError.clean_ok t) fun u _ => ?_
      refine SimError.clean_bind _ _ (Representation.clean_rows u qs repetitions _) fun rows _ => ?_
      exact SimError.clean_bind _ _ (ih (fun k member => live k (List.mem_cons_of_mem h member)) _) fun more _ =>
        SimError.clean_ok _

theorem Arena.rows (valid : Arena s r) (qs : List Qudit) (repetitions seed : ℕ) : Clean (r.rows qs repetitions seed) := by
  have grouping := valid.grouped (Qudit.distinct qs) {} (by simp)
  refine SimError.clean_bind _ _ grouping.1 fun a found => ?_
  exact SimError.clean_bind _ _ (clean_groupRows r repetitions a.groups (grouping.2 a found) _) fun _ _ =>
    SimError.clean_ok _

theorem Reached.anchored {w : Workspace R S} (reached : Reached s w) : Anchored w where
  apply op := (meets_apply op w reached.arena).2.1
  applyAll ops := (meets_applyAll ops w reached.arena).2.1
  merged := reached.arena.merged
  stateOf := reached.arena.stateOf
  sample qs repetitions _ := reached.arena.rows qs repetitions _

end Register

open Register

theorem reached_bookkeeping {R : Type} [Scalar R] (s : Settings R) :
    (∀ w : Workspace R (DenseState R), Reached s w → Arena s w.register ∧ Anchored w ∧ ∀ q ∈ w.register.qudits,
        (∃! h, q ∈ w.register.holdings h) ∧ (w.register.split = false → q ∈ w.register.holdings w.register.home))
      ∧ ∀ w : Workspace R (StabilizerState R), Reached s w → Arena s w.register ∧ Anchored w ∧ ∀ q ∈ w.register.qudits,
        (∃! h, q ∈ w.register.holdings h) ∧ (w.register.split = false → q ∈ w.register.holdings w.register.home) :=
  ⟨fun _ reached => ⟨reached.arena, reached.anchored, reached.arena.holder⟩,
    fun _ reached => ⟨reached.arena, reached.anchored, reached.arena.holder⟩⟩

def pairSettings : Settings ℝ := ⟨some [Qudit.qubit 0, Qudit.qubit 1], 0, true, 0, 0⟩

theorem pair_validated : pairSettings.validate = .ok [Qudit.qubit 0, Qudit.qubit 1] := by
  have small : (Scalar.isFinite (0 : ℝ)) = true := by simp [Scalar.isFinite]
  simp [Settings.validate, pairSettings, Qudit.firstRepeated, Qudit.repeatedAfter, Qudit.qubit, small, Settings.inRange,
    Qudit.dims, MixedRadix.checkedSize, MixedRadix.wordSize]

theorem pair_dense : ∃ r c, Register.new (S := DenseState ℝ) pairSettings {} = .ok (r, c) := by
  rw [Register.new, pair_validated]
  exact ⟨_, _, rfl⟩

theorem pair_stabilizer : ∃ r c, Register.new (S := StabilizerState ℝ) pairSettings {} = .ok (r, c) := by
  rw [Register.new, pair_validated]
  exact ⟨_, _, rfl⟩

theorem reached_bookkeeping_pair :
    (∃ w : Workspace ℝ (DenseState ℝ), Reached pairSettings w ∧ Arena pairSettings w.register)
      ∧ ∃ w : Workspace ℝ (StabilizerState ℝ), Reached pairSettings w ∧ Arena pairSettings w.register := by
  let op : Operation ℝ := (Gate.cx (Qudit.qubit 0) (Qudit.qubit 1)).operation
  obtain ⟨r, c, made⟩ := pair_dense
  obtain ⟨r', c', made'⟩ := pair_stabilizer
  have reached := Reached.apply _ op (.new r {} c made)
  have reached' := Reached.apply _ op (.new r' {} c' made')
  obtain ⟨first, second⟩ := reached_bookkeeping pairSettings
  exact ⟨⟨_, reached, (first _ reached).1⟩, ⟨_, reached', (second _ reached').1⟩⟩

end QuantumRegister
