import QuantumRegister.Proofs.Dense.Likeness
import QuantumRegister.Proofs.Records
import QuantumRegister.Proofs.Register.Commands
import QuantumRegister.Proofs.Register.Reached
import QuantumRegister.Proofs.Stabilizer.Likeness

/-!
The log of a register over all its work. However the qudits are spread over states, and whatever is
united, split off or exchanged for an operation, a measurement that succeeds leaves one record, and
nothing else leaves any.
-/

set_option autoImplicit false

namespace QuantumRegister

open QuantumRegister.Log (Appends Noted Write)
open QuantumRegister.Representation (bench)

namespace Register

variable {R S α β : Type}

def following (act : Act R S α) (next : α → Workspace R S → List Write) (w : Workspace R S) : List Write :=
  match act w with
  | (.ok a, w') => next a w'
  | (.error _, _) => []

theorem following_nothing {act : Act R S α} {next : α → Workspace R S → List Write} (nothing : ∀ a w, next a w = [])
    (w : Workspace R S) : following act next w = [] := by
  rw [following]
  split
  · exact nothing _ _
  · rfl

section Definitions

variable [Scalar R] [Representation R S]

/-- The records of all measurements that succeed in an operation, at the state that its targets are
united in. An exchange of labels is no measurement. -/
def mergedNotes (op : Operation R) : Workspace R S → List Write :=
  following (change (·.merge op.qudits)) fun h w =>
    match w.register.slots.get? h with
    | some t => Representation.notes op (bench t w.cells)
    | none => []

def notes (op : Operation R) (w : Workspace R S) : List Write :=
  if op.isIdentity then []
  else following (change fun r => do
      r.checkTargets op.qudits
      return ((), r)) (fun _ =>
    match op.isSwap, op.qudits with
    | true, [_, _] => fun _ => []
    | _, _ => mergedNotes op) w

def allNotes : List (Operation R) → Workspace R S → List Write
  | [], _ => []
  | op :: ops, w => notes op w ++ following (apply op) (fun _ => allNotes ops) w

end Definitions

def Notes [Representation R S] [Readable S] (s : Settings R) (ms : Workspace R S → List Write)
    (work : Workspace R S → β × Workspace R S) : Prop :=
  ∀ p σ w, Twin s p p σ w w → Noted (ms w) (w.cells.log p.log) ((work w).2.cells.log p.log)

variable [Representation R S] [Readable S] {s : Settings R}

theorem notes_pure (a : α) : Notes s (fun _ => []) (pure a : Act R S α) := fun _ _ _ _ => .refl _

theorem notes_bind {act : Act R S α} {next : α → Act R S β} {ms : Workspace R S → List Write}
    {ms' : α → Workspace R S → List Write} (uniform : Uniform s act) (first : Notes s ms act)
    (rest : ∀ a, Notes s (ms' a) (next a)) : Notes s (fun w => ms w ++ following act ms' w) (act >>= next) := by
  intro p σ w twin
  have before := first p σ w twin
  have after := (uniform p p σ w w twin).2.1
  simp only [act_bind_apply, following]
  generalize act w = outcome at before after ⊢
  obtain ⟨x, m⟩ := outcome
  cases x with
  | ok a => exact before.trans (rest a p σ m after)
  | error e => exact before.trans (.refl _)

theorem notes_last {act : Act R S α} {next : α → Act R S β} {ms : Workspace R S → List Write} (uniform : Uniform s act)
    (first : Notes s ms act) (rest : ∀ a, Notes s (fun _ => []) (next a)) : Notes s ms (act >>= next) := by
  intro p σ w twin
  have both := notes_bind uniform first rest p σ w twin
  dsimp only at both
  rwa [following_nothing fun _ _ => rfl, List.append_nil] at both

theorem notes_change (f : Register R S → Except (SimError R) (α × Register R S)) : Notes s (fun _ => []) (change f) := by
  intro p σ w twin
  rw [change]
  split <;> exact .refl _

theorem notes_write (edit : Log.Edit R Unit) (ms : Log → List Write) (each : ∀ l, Noted (ms l) l (edit l).2) :
    Notes s (fun w => ms (w.cells.log w.register.log)) (write edit : Act R S Unit) := by
  intro p σ w twin
  obtain rfl := twin.alike.first
  rw [write_apply]
  dsimp only
  rw [twin.live.log_written]
  exact each _

theorem notes_drawn (d : Random.Draw α) : Notes s (fun _ => []) (drawn d : Act R S α) := by
  intro p σ w twin
  obtain rfl := twin.alike.first
  rw [drawn_apply]
  dsimp only
  rw [twin.live.log_written]
  exact .refl _

theorem notes_runOn (h : ℕ) (step : Step R S α) (ms : Bench S → List Write) (each : ∀ b, Noted (ms b) b.log (step b).2.log) :
    Notes s (fun w => match w.register.slots.get? h with | some t => ms (bench t w.cells) | none => []) (runOn h step) := by
  intro p σ w twin
  obtain rfl := twin.alike.first
  dsimp only
  cases found : w.register.slots.get? h with
  | none =>
      rw [runOn_vacant h step w found]
      exact .refl _
  | some t =>
      have stepped := each (bench t w.cells)
      generalize ran : step (bench t w.cells) = outcome at stepped
      obtain ⟨x, b⟩ := outcome
      rw [runOn_stepped h step w twin.first t found x b ran, Cells.written_wired rfl, twin.live.log_written]
      have own : (bench t w.cells).log = w.cells.log w.register.log := congrArg w.cells.log (twin.first.wired h t found).2
      exact own ▸ stepped

theorem notes_separate (qs : List Qudit) : Notes s (fun _ => []) (separate qs : Act R S Unit) := by
  intro p σ w twin
  rw [separate]
  split <;> exact .refl _

variable [Scalar R]

theorem notes_sample (qs : List Qudit) (repetitions : ℕ) (seed : Option ℕ) :
    Notes s (fun _ => []) (sample qs repetitions seed : Act R S (List (List ℕ))) := by
  cases seed with
  | some n =>
      rw [sample_seeded]
      exact notes_change _
  | none =>
      rw [sample_drawn]
      refine notes_last (uniform_drawn _ Random.reads_drawDouble) (notes_drawn _) fun n => ?_
      rw [sample_seeded]
      exact notes_change _

variable [LawfulRepresentation R S] [UniformRepresentation R S] [Reticent R S]

theorem notes_applyMerged (op : Operation R) : Notes s (mergedNotes op) (applyMerged op : Act R S Unit) := by
  refine notes_bind (uniform_merge op.qudits) (notes_change _) fun h => ?_
  refine notes_last (uniform_perform h op) (notes_runOn h _ _ (Representation.noted_performAs op.name op.qudits op)) fun _ => ?_
  split
  · exact notes_separate op.qudits
  · exact notes_pure ()

theorem notes_apply (op : Operation R) : Notes s (notes op) (apply op : Act R S Unit) := by
  by_cases identity : op.isIdentity = true
  · intro p σ w twin
    rw [notes, apply, if_pos identity, if_pos identity]
    exact .refl _
  · intro p σ w twin
    rw [notes, apply, if_neg identity, if_neg identity]
    refine notes_bind (uniform_checkTargets op.qudits) (notes_change _) (fun _ => ?_) p σ w twin
    have merged := notes_applyMerged (s := s) (S := S) op
    cases op.isSwap with
    | false => exact merged
    | true =>
        rcases op.qudits with _ | ⟨a, _ | ⟨b, _ | ⟨c, qs⟩⟩⟩
        · exact merged
        · exact merged
        · exact notes_change fun r => do return ((), ← r.exchange a b)
        · exact merged

theorem notes_applyAll (ops : List (Operation R)) : Notes s (allNotes ops) (applyAll ops : Act R S Unit) := by
  induction ops with
  | nil => exact notes_pure ()
  | cons op ops ih => exact notes_bind (uniform_apply op) (notes_apply op) fun _ => ih

end Register

/-! Commands. -/

namespace Command

variable {R S : Type} [Scalar R] [Representation R S]

def notes : Command R → Workspace R S → List Write
  | apply op => Register.notes op
  | circuit ops => Register.allNotes ops
  | record key qs values => fun w => Log.accepted R (w.cells.log w.register.log) [.measurement key qs values]
  | sample _ _ _ | branch _ _ | number => fun _ => []

def allNotes : List (Command R) → Workspace R S → List Write
  | [], _ => []
  | c :: cs, w => c.notes w ++ allNotes cs (c.run w).2

variable [Readable S] [LawfulRepresentation R S] [UniformRepresentation R S] [Reticent R S] {s : Settings R} {w : Workspace R S}

theorem notes_run (c : Command R) : Register.Notes s c.notes (c.run : Workspace R S → Answer R × Workspace R S) := by
  cases c with
  | apply op => exact Register.notes_apply op
  | circuit ops => exact Register.notes_applyAll ops
  | sample qs repetitions seed => exact Register.notes_sample qs repetitions seed
  | record key qs values =>
      exact Register.notes_write (Log.recordMeasurement key qs values) (fun l => Log.accepted R l [.measurement key qs values])
        fun l => Log.noted_measurement R l key qs values
  | branch key index =>
      exact Register.notes_write (Write.attempt R (.branch key index)) (fun _ => []) fun l => Log.noted_branch l key index
  | number => exact Register.notes_drawn Random.drawDouble

theorem noted_runAll (cs : List (Command R)) (held : Held s w) : (runAll cs w).2.register.log = w.register.log
    ∧ Noted (allNotes cs w) (w.cells.log w.register.log) ((runAll cs w).2.cells.log w.register.log) := by
  induction cs generalizing w with
  | nil => exact ⟨rfl, .refl _⟩
  | cons c cs ih =>
      have twin := held.twin
      have wired : (c.run w).2.register.log = w.register.log :=
        congrArg Wiring.log (uniform_run c _ _ _ w w twin).2.1.alike.first
      have first := notes_run c _ _ w twin
      obtain ⟨kept, rest⟩ := ih (held.run w c)
      rw [wired] at rest
      exact ⟨kept.trans wired, first.trans rest⟩

end Command

/-! Both kinds of registers. -/

section Logged

variable {R S : Type} [Scalar R] [Representation R S]

namespace Register

theorem notes_measured (m : Measurement R) (w : Workspace R S) (done : (apply m.operation w).1 = .ok ()) :
    ∃ values, notes m.operation w = [.measurement m.key m.qudits values] := by
  generalize applied : apply m.operation w = outcome at done
  obtain ⟨x, w'⟩ := outcome
  cases done
  have named : ¬m.operation.isIdentity = true := Bool.false_ne_true
  rw [apply, if_neg named] at applied
  obtain ⟨⟨⟩, w₁, checked, applied⟩ := act_bind_done applied
  obtain ⟨h, w₂, united, applied⟩ := act_bind_done applied
  obtain ⟨⟨⟩, w₃, ran, -⟩ := act_bind_done applied
  obtain ⟨t, b, live, performed, -⟩ := runOn_done ran
  have noted : notes m.operation w = Representation.note m (bench t w₂.cells) := by
    rw [notes, if_neg named, following, checked]
    change mergedNotes m.operation w₁ = _
    simp only [mergedNotes, following, united, live]
    rfl
  have unfolded : Representation.perform m.operation (bench t w₂.cells)
      = (Representation.measure m >>= fun _ => pure () : Step R S Unit) (bench t w₂.cells) := rfl
  rw [unfolded, Step.bind_apply] at performed
  rw [noted, Representation.note]
  generalize Representation.measure m (bench t w₂.cells) = outcome at performed ⊢
  obtain ⟨values | values, c⟩ := outcome
  · cases performed
  · exact ⟨values, rfl⟩

theorem notes_unmeasured (op : Operation R) (unmeasured : op.Unmeasured) (w : Workspace R S) : notes op w = [] := by
  have merged (w : Workspace R S) : mergedNotes op w = [] := by
    refine following_nothing (fun h w => ?_) w
    cases w.register.slots.get? h with
    | none => rfl
    | some t => exact Representation.notes_unmeasured op unmeasured _
  rw [notes]
  split
  · rfl
  · refine following_nothing (fun _ w => ?_) w
    cases op.isSwap with
    | false => exact merged w
    | true =>
        rcases op.qudits with _ | ⟨a, _ | ⟨b, _ | ⟨c, qs⟩⟩⟩
        · exact merged w
        · exact merged w
        · rfl
        · exact merged w

end Register

structure Logged (w : Workspace R S) : Prop where
  kept : ∀ cs : List (Command R), (Command.runAll cs w).2.register.log = w.register.log
  appended : ∀ cs : List (Command R), Appends (Command.allNotes cs w) (w.cells.log w.register.log)
    ((Command.runAll cs w).2.cells.log w.register.log)
  measured : ∀ m : Measurement R, (Register.apply m.operation w).1 = .ok () →
    ∃ values, Register.notes m.operation w = [.measurement m.key m.qudits values]
  silent : ∀ op : Operation R, op.Unmeasured → Register.notes op w = []

theorem empty_log {s : Settings R} (r : Register R S) (c c' : Cells) (made : Register.new s c = .ok (r, c')) :
    c'.log r.log = Log.empty := by
  obtain ⟨qs, -, made⟩ := SimError.bind_ok made
  obtain ⟨states, -, made⟩ := SimError.bind_ok made
  cases made
  exact Cells.log_new (c.newSource _).2 Log.empty

variable [Readable S] [LawfulRepresentation R S] [UniformRepresentation R S] [Reticent R S] {s : Settings R} {w : Workspace R S}

theorem Held.logged (held : Held s w) : Logged w where
  kept cs := (Command.noted_runAll cs held).1
  appended cs := (Command.noted_runAll cs held).2.appends
  measured m := Register.notes_measured m w
  silent op unmeasured := Register.notes_unmeasured op unmeasured w

end Logged

-- A log holds what was written and not refused, in order, its collections in step; a further call adds to it,
-- or is refused and leaves it as it is. The log of a register starts empty, and every measurement that
-- succeeds adds one record to it.
theorem log_appended {R : Type} [Scalar R] (s : Settings R) :
    (∀ (calls : List Write) (w : Write), let log := calls.foldl (Log.after R) Log.empty
        log.Holding (Log.accepted R Log.empty calls) ∧ log.Extends (Log.after R log w)
          ∧ ((w.attempt R log).1 = .ok () ↔ w.Fits log) ∧ ∀ e log', w.attempt R log = (.error e, log') → log' = log)
      ∧ ((∀ (r : Register R (DenseState R)) c c', Register.new s c = .ok (r, c') → c'.log r.log = Log.empty)
        ∧ ∀ w : Workspace R (DenseState R), Held s w → Logged w)
      ∧ (∀ (r : Register R (StabilizerState R)) c c', Register.new s c = .ok (r, c') → c'.log r.log = Log.empty)
        ∧ ∀ w : Workspace R (StabilizerState R), Held s w → Logged w :=
  ⟨fun calls w => ⟨Log.holding_accepted R calls, Log.extends_after R _ w, Write.attempt_ok R _ w,
      fun _ _ refused => Log.refused_unchanged R refused⟩,
    ⟨fun r c c' made => empty_log r c c' made, fun _ held => held.logged⟩,
    fun r c c' made => empty_log r c c' made, fun _ held => held.logged⟩

theorem log_appended_pair :
    (∃ w : Workspace ℝ (DenseState ℝ), Held pairSettings w ∧ w.cells.log w.register.log = Log.empty ∧ Logged w)
      ∧ ∃ w : Workspace ℝ (StabilizerState ℝ), Held pairSettings w ∧ w.cells.log w.register.log = Log.empty ∧ Logged w := by
  obtain ⟨r, c, made⟩ := pair_dense
  obtain ⟨r', c', made'⟩ := pair_stabilizer
  obtain ⟨-, ⟨empty, logged⟩, empty', logged'⟩ := log_appended pairSettings
  have held : Held pairSettings ⟨r, c⟩ := .new r {} c made
  have held' : Held pairSettings ⟨r', c'⟩ := .new r' {} c' made'
  exact ⟨⟨_, held, empty r {} c made, logged _ held⟩, _, held', empty' r' {} c' made', logged' _ held'⟩

end QuantumRegister
