import QuantumRegister.Proofs.Cells
import QuantumRegister.Proofs.Frame
import QuantumRegister.Proofs.Log
import QuantumRegister.Proofs.Measurement
import QuantumRegister.Representation

/-!
Laws of representations: what each of their operations does to the frame of a state. Carrying out an
operation keeps the frame, whatever the operation is and wherever it fails.
-/

set_option autoImplicit false

namespace QuantumRegister

open QuantumRegister.SimError (Clean)
open QuantumRegister.Representation (frame)

variable {R S α β : Type}

/-! Steps that keep a frame. -/

namespace Step

theorem bind_apply (step : Step R S α) (next : α → Step R S β) (b : Bench S) :
    (step >>= next) b = match step b with
      | (.ok a, b') => next a b'
      | (.error e, b') => (.error e, b') := by
  have unfolded : (step >>= next) b = ExceptT.bindCont next (step b).1 (step b).2 := rfl
  rw [unfolded]
  rcases step b with ⟨r, b'⟩
  cases r <;> rfl

theorem get_apply (b : Bench S) : (get : Step R S (Bench S)) b = (.ok b, b) := rfl

theorem pure_apply (a : α) (b : Bench S) : (pure a : Step R S α) b = (.ok a, b) := rfl

theorem ofExcept_apply (x : Except (SimError R) α) (b : Bench S) : (ofExcept x : Step R S α) b = (x, b) := by
  cases x <;> rfl

theorem draw_apply (d : Random.Draw α) (b : Bench S) :
    (draw d : Step R S α) b = (.ok (d b.source).1, { b with source := (d b.source).2 }) := rfl

theorem edit_apply (e : Log.Edit R α) (b : Bench S) :
    (edit e : Step R S α) b = ((e b.log).1, { b with log := (e b.log).2 }) := by
  have unfolded : (edit e : Step R S α) b = (ofExcept (e b.log).1 : Step R S α) { b with log := (e b.log).2 } := rfl
  rw [unfolded, ofExcept_apply]

variable [Representation R S]

def Keeps (f : Frame) (step : Step R S α) : Prop :=
  ∀ b, frame b.state = f → frame (step b).2.state = f ∧ Clean (step b).1

variable {f : Frame}

theorem keeps_pure (a : α) : Keeps f (pure a : Step R S α) := fun _ held => ⟨held, SimError.clean_ok a⟩

theorem keeps_throw (e : SimError R) (clean : Clean (.error e : Except (SimError R) α)) :
    Keeps f (throw e : Step R S α) := fun _ held => ⟨held, clean⟩

theorem keeps_bind (step : Step R S α) (next : α → Step R S β) (first : Keeps f step) (rest : ∀ a, Keeps f (next a)) :
    Keeps f (step >>= next) := by
  intro b held
  have before := first b held
  rw [bind_apply]
  generalize step b = outcome at before ⊢
  obtain ⟨r, b'⟩ := outcome
  obtain ⟨kept, clean⟩ := before
  cases r with
  | ok a => exact rest a b' kept
  | error e => exact ⟨kept, SimError.clean_passed _ e clean rfl⟩

theorem keeps_get (next : Bench S → Step R S β) (rest : ∀ b, frame b.state = f → Keeps f (next b)) :
    Keeps f (get >>= next) := fun b held => rest b held b held

theorem keeps_modify (change : Bench S → Bench S) (same : ∀ b, frame b.state = f → frame (change b).state = f) :
    Keeps f (modify change : Step R S Unit) := fun b held => ⟨same b held, SimError.clean_ok ()⟩

theorem keeps_setState (s : S) (same : frame s = f) : Keeps f (setState s : Step R S Unit) :=
  keeps_modify _ fun _ _ => same

theorem keeps_draw (d : Random.Draw α) : Keeps f (draw d : Step R S α) := by
  intro b held
  exact ⟨held, SimError.clean_ok _⟩

theorem keeps_ofExcept (r : Except (SimError R) α) (clean : Clean r) : Keeps f (ofExcept r : Step R S α) := by
  cases r with
  | ok a => exact keeps_pure a
  | error e => exact keeps_throw e clean

theorem keeps_edit (e : Log.Edit R α) (clean : ∀ l, Clean (e l).1) : Keeps f (edit e : Step R S α) := by
  intro b held
  rw [edit_apply]
  exact ⟨held, clean b.log⟩

theorem keeps_drawn (d : Random.Draw (Except (SimError R) α)) (next : α → Step R S β) (clean : ∀ s, Clean (d s).1)
    (rest : ∀ a, Keeps f (next a)) : Keeps f (draw d >>= fun r => ofExcept r >>= next) :=
  fun b held => keeps_bind _ _ (keeps_ofExcept _ (clean b.source)) rest { b with source := (d b.source).2 } held

theorem keeps_guard (p : Prop) [Decidable p] (e : SimError R) (next : Step R S β)
    (clean : Clean (.error e : Except (SimError R) α)) (rest : Keeps f next) :
    Keeps f (if p then (throw e : Step R S α) >>= fun _ => next else next) := by
  split
  · exact keeps_bind _ _ (keeps_throw e clean) fun _ => rest
  · exact rest

theorem keeps_recordBranch (key : Option String) (index : ℕ) : Keeps f (recordBranch key index : Step R S Unit) := by
  cases key with
  | none => exact keeps_pure ()
  | some k => exact keeps_modify _ fun _ held => held

end Step

class LawfulRepresentation (R S : Type) [Scalar R] [Representation R S] : Prop where
  frame_setFrame : ∀ (s : S) (f : Frame), frame (Representation.setFrame s f) = f
  setFrame_setFrame : ∀ (s : S) (f g : Frame), Representation.setFrame (Representation.setFrame s f) g = Representation.setFrame s g
  frame_basisState : ∀ (qs : List Qudit) (index : ℕ) (source : SourceRef) (log : LogRef) (s : S),
    Representation.basisState qs index source log = .ok s → Frame.of (R := R) qs source log = .ok (frame s)
  frame_kronecker : ∀ s t u : S, Representation.kronecker s t = .ok u →
    (frame s).concat (R := R) (frame t) = .ok (frame u)
  frame_factor : ∀ (s : S) (qs : List Qudit) (validate : Bool) (tolerance : R) (single rest : S),
    Representation.factor s qs validate tolerance = .ok (single, rest) → ∃ axes, (frame s).axes (R := R) qs = .ok axes
      ∧ (frame s).withQudits (R := R) qs = .ok (frame single)
      ∧ (frame s).withQudits (R := R) (((List.range (frame s).qudits.length).filter fun a => !axes.contains a).map
          fun a => (frame s).qudits.getD a default) = .ok (frame rest)
  clean_kronecker : ∀ s t : S, Clean (Representation.kronecker s t)
  clean_factor : ∀ (s : S) (qs : List Qudit) (validate : Bool) (tolerance : R),
    Clean (Representation.factor s qs validate tolerance)
  clean_transposed : ∀ (s : S) (order : List Qudit), Clean (Representation.transposed s order)
  clean_sampler : ∀ (s : S) (qs : List Qudit), Clean (Representation.sampler s qs)
  keeps_enact : ∀ (f : Frame) (name : String) (qs : List Qudit) (r : Resolution R),
    Step.Keeps f (Representation.enact name qs r : Step R S Unit)
  keeps_observe : ∀ (f : Frame) (qs : List Qudit), Step.Keeps f (Representation.observe qs : Step R S (List ℕ))
  keeps_reset : ∀ (f : Frame) (qs : List Qudit), Step.Keeps f (Representation.reset qs : Step R S Unit)

theorem Log.clean_recordMeasurement (key : String) (qs : List Qudit) (values : List ℕ) (log : Log) :
    Clean ((recordMeasurement key qs values : Edit R Unit) log).1 := by
  intro h
  rw [recordMeasurement_apply]
  split
  · simp
  · split
    · split <;> simp
    · simp

theorem Measurement.clean_correct [Scalar R] (m : Measurement R) (raw : List ℕ) (s : Random.Source) : Clean (m.correct raw s).1 := by
  intro h failed
  obtain ⟨fault, other⟩ := Measurement.correct_failed failed
  cases other

namespace Representation

open Step LawfulRepresentation

/-! Running a step on the cells. -/

def bench [Representation R S] (s : S) (c : Cells) : Bench S := ⟨c.source (frame s).source, c.log (frame s).log, s⟩

theorem run_of [Representation R S] (step : Step R S α) (s : S) (c : Cells) (e : Except (SimError R) α) (b : Bench S)
    (stepped : step (bench s c) = (e, b)) :
    run step s c = (e, b.state, (c.setSource (frame s).source b.source).setLog (frame s).log b.log) := by
  have unfolded : run step s c = ((step (bench s c)).1, (step (bench s c)).2.state,
      (c.setSource (frame s).source (step (bench s c)).2.source).setLog (frame s).log (step (bench s c)).2.log) := rfl
  rw [unfolded, stepped]

theorem run_pure [Representation R S] (s : S) (c : Cells) : run (pure () : Step R S Unit) s c = (.ok (), s, c) :=
  (run_of _ s c (.ok ()) (bench s c) rfl).trans (Prod.ext rfl (Prod.ext rfl (c.written_back _ _)))

/-! Copies. -/

theorem grown_copy [Representation R S] (deep : Bool) (s : S) (c : Cells) : c.Grown (copy deep s c).2 := by
  cases deep with
  | false => exact c.grown_newLog _
  | true => exact (c.grown_newSource _).trans _ _ _ (Cells.grown_newLog _ _)

-- The handles that a copy was forked with do not outlast a change of its handles.
theorem copy_rewired [Scalar R] [Representation R S] [LawfulRepresentation R S] (deep : Bool) (s : S) (c : Cells)
    (source : SourceRef) (log : LogRef) : setFrame (copy deep s c).1 ((frame (copy deep s c).1).rewired source log)
      = setFrame (duplicate deep s) ((frame s).rewired source log) := by
  have copied : (copy deep s c).1 = setFrame (duplicate deep s) ((frame s).fork deep c).1 := rfl
  rw [copied, frame_setFrame, setFrame_setFrame]
  rfl

/-! What keeps the frame. -/

theorem run_keeps [Representation R S] (step : Step R S α) (s : S) (c : Cells) (keeps : Keeps (frame s) step) :
    frame (run step s c).2.1 = frame s ∧ Clean (run step s c).1 :=
  keeps ⟨c.source (frame s).source, c.log (frame s).log, s⟩ rfl

variable [Scalar R] [Representation R S] {f : Frame}

theorem clean_rows [LawfulRepresentation R S] (s : S) (qs : List Qudit) (repetitions seed : ℕ) : Clean (rows s qs repetitions seed) := by
  have clean := clean_sampler (R := R) s qs
  intro h
  rw [rows]
  split
  · rename_i e failed
    exact SimError.clean_passed _ e clean failed h
  · simp

theorem keeps_measure [LawfulRepresentation R S] (m : Measurement R) : Keeps f (measure m : Step R S (List ℕ)) := by
  refine keeps_get _ fun b held => keeps_bind _ _ (keeps_ofExcept _ (Frame.clean_axes _ _)) fun axes => ?_
  have raw : Keeps f (rawOutcome m : Step R S (List ℕ)) := by
    rw [rawOutcome]
    split
    · exact keeps_observe f m.qudits
    · refine keeps_bind _ _ (keeps_draw _) fun seed => keeps_get _ fun b held => ?_
      exact keeps_bind _ _ (keeps_ofExcept _ (clean_rows _ _ _ _)) fun rows => keeps_pure _
  refine keeps_bind _ _ raw fun raw => keeps_drawn _ _ (m.clean_correct raw) fun values => ?_
  exact keeps_bind _ _ (keeps_edit _ (Log.clean_recordMeasurement _ _ _)) fun _ => keeps_pure values

theorem keeps_carry [LawfulRepresentation R S] (name : String) (qs : List Qudit) (r : Option (Resolution R)) :
    Keeps f (carry name qs r : Step R S Unit) := by
  have unsupported : Keeps f (throw (.unsupported name) : Step R S Unit) := keeps_throw _ fun h => by simp
  cases r with
  | none => exact unsupported
  | some r =>
      cases r with
      | skip => exact keeps_pure ()
      | measure m => exact keeps_bind _ _ (keeps_measure m) fun _ => keeps_pure ()
      | reset targets => exact keeps_reset f targets
      | parts ops => exact unsupported
      | unitary m => exact keeps_enact f name qs _
      | mixture branches key => exact keeps_enact f name qs _
      | channel ops key => exact keeps_enact f name qs _
      | stabilizer gates => exact keeps_enact f name qs _

mutual

theorem keeps_performAs [LawfulRepresentation R S] (name : String) (qs : List Qudit) :
    ∀ op : Operation R, Keeps f (performAs name qs op : Step R S Unit)
  | ⟨_, _, some (key, inner)⟩ => by
      rw [performAs]
      refine keeps_get _ fun b held => ?_
      split
      · exact keeps_performAs name qs inner
      · exact keeps_pure ()
  | ⟨c, some parts, none⟩ => by
      rw [performAs]
      split
      · exact keeps_performAll parts
      · exact keeps_carry name qs _
  | ⟨c, none, none⟩ => by
      rw [performAs]
      exact keeps_carry name qs _

theorem keeps_performAll [LawfulRepresentation R S] : ∀ ops : List (Operation R), Keeps f (performAll ops : Step R S Unit)
  | [] => keeps_pure ()
  | op :: ops => by
      rw [performAll]
      exact keeps_bind _ _ (keeps_performAs _ _ op) fun _ => keeps_performAll ops

end

end Representation

end QuantumRegister
