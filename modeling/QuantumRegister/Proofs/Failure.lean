import QuantumRegister.Proofs.Dense.Collapse
import QuantumRegister.Proofs.Dense.Mixture
import QuantumRegister.Proofs.Effect

/-!
What a failed operation leaves of a state. Everything that can be wrong with an operation is looked for
before the state is touched, and all but the weight of a drawn branch before anything is drawn.
-/

set_option autoImplicit false

namespace QuantumRegister

open QuantumRegister.MixedRadix (wordSize)
open QuantumRegister.Random (Source drawUnit)
open QuantumRegister.Representation (bench carryOut enact frame observe perform performAs performAs_resolve rawOutcome routes
  rows run run_of sampler)

/-! Failures. -/

namespace SimError

variable {R : Type}

def Misnamed (e : SimError R) : Prop := e.kind = .repeatedQudit ∨ e.kind = .quditNotFound

/-- The faults that are looked for before anything is drawn. -/
def Early (e : SimError R) : Prop := e.Misnamed ∨ e.kind = .shapeMismatch ∨ e.kind = .unsupported

end SimError

/-- What must not change anything if it fails with this error: an action without parts, and a measurement
if its qudits were refused. -/
def Resolution.Atomic {R : Type} (e : SimError R) : Option (Resolution R) → Prop
  | some (.parts _) => False
  | some (.measure _) => e.Misnamed
  | _ => True

namespace Step

variable {R S α β : Type} {b b' : Bench S} {e : SimError R}

theorem bind_failed {step : Step R S α} {next : α → Step R S β} (failed : (step >>= next) b = (.error e, b')) :
    step b = (.error e, b') ∨ ∃ a c, step b = (.ok a, c) ∧ next a c = (.error e, b') := by
  rw [bind_apply] at failed
  generalize step b = outcome at failed ⊢
  obtain ⟨x, c⟩ := outcome
  cases x with
  | error e' =>
      cases failed
      exact Or.inl rfl
  | ok a => exact Or.inr ⟨a, c, rfl, failed⟩

theorem ofExcept_ran {x : Except (SimError R) α} {next : α → Step R S β} {y : Except (SimError R) β}
    (ran : (ofExcept x >>= next) b = (y, b')) :
    (∃ e, x = .error e ∧ y = .error e ∧ b' = b) ∨ ∃ a, x = .ok a ∧ next a b = (y, b') := by
  cases x with
  | error e =>
      cases ran
      exact Or.inl ⟨e, rfl, rfl, rfl⟩
  | ok a => exact Or.inr ⟨a, rfl, ran⟩

theorem draw_failed {d : Random.Draw α} {next : α → Step R S β} (failed : (draw d >>= next) b = (.error e, b')) :
    next (d b.source).1 { b with source := (d b.source).2 } = (.error e, b') := failed

end Step

theorem Log.recordMeasurement_failed {R : Type} {log : Log} {key : String} {qs : List Qudit} {values : List ℕ} {e : SimError R}
    (failed : ((recordMeasurement key qs values : Edit R Unit) log).1 = .error e) : ¬e.Misnamed := by
  have mismatch : e.kind = .shapeMismatch := by
    rw [recordMeasurement_apply] at failed
    split at failed
    · cases failed
      rfl
    · split at failed
      · split at failed
        · cases failed
          rfl
        · cases failed
      · cases failed
  rw [SimError.Misnamed, mismatch]
  rintro (_ | _) <;> contradiction

/-- The cells after a failure with this error: the logs as they were, and after an early one the sources too. -/
structure Cells.Spared {R : Type} (e : SimError R) (c d : Cells) : Prop where
  logs : d.logs = c.logs
  early : e.Early → d = c

/-! Any representation. -/

namespace Representation

variable {R S X : Type} [Representation R S]

/-- A step has failed and has changed neither what is shown of the state nor the log, and if it failed
early not the source either. -/
structure Spared (shown : S → X) (b : Bench S) (e : SimError R) (b' : Bench S) : Prop where
  framed : frame b'.state = frame b.state
  shown : shown b'.state = shown b.state
  log : b'.log = b.log
  source : e.Early → b'.source = b.source

theorem Spared.refl (shown : S → X) (b : Bench S) (e : SimError R) : Spared shown b e b := ⟨rfl, rfl, rfl, fun _ => rfl⟩

theorem Spared.cells {shown : S → X} {s : S} {c : Cells} {e : SimError R} {b : Bench S}
    (spared : Spared shown (bench s c) e b) :
    Cells.Spared e c ((c.setSource (frame s).source b.source).setLog (frame s).log b.log) := by
  obtain ⟨-, -, log, source⟩ := spared
  refine ⟨?_, fun early => ?_⟩
  · have same := congrArg Cells.logs ((c.setSource (frame s).source b.source).setLog_self (frame s).log)
    rw [log]
    exact same
  · rw [log, source early]
    exact c.written_back (frame s).source (frame s).log

/-- How the actions of a representation fail. Reading a state fails for the names of its qudits only. -/
structure Sparing (fits : S → Prop) (shown : S → X) : Prop where
  enacted : ∀ (name : String) (qs : List Qudit) (r : Resolution R) (b b' : Bench S) (e : SimError R), fits b.state →
    enact name qs r b = (.error e, b') → Spared shown b e b'
  cleared : ∀ (qs : List Qudit) (b b' : Bench S) (e : SimError R), fits b.state → Representation.reset qs b = (.error e, b') →
    Spared shown b e b'
  observed : ∀ (qs : List Qudit) (b b' : Bench S) (e : SimError R), observe qs b = (.error e, b') →
    (frame b.state).axes qs = .error e
  sampled : ∀ (qs : List Qudit) (s : S) (e : SimError R), sampler s qs = .error e → (frame s).axes qs = .error e

namespace Sparing

variable [Scalar R] {fits : S → Prop} {shown : S → X} {b b' : Bench S} {e : SimError R} (sparing : Sparing (R := R) fits shown)

include sparing

theorem measured (m : Measurement R) (failed : Representation.measure m b = (.error e, b')) : b' = b ∨ ¬e.Misnamed := by
  obtain ⟨-, -, -, same⟩ | ⟨axes, found, failed⟩ := Step.ofExcept_ran (b := b) failed
  · exact Or.inl same
  refine Or.inr ?_
  obtain raw | ⟨raw, c, -, failed⟩ := Step.bind_failed failed
  · have refused : (frame b.state).axes (R := R) m.qudits = .error e := by
      rw [rawOutcome] at raw
      split at raw
      · exact sparing.observed m.qudits b b' e raw
      · have drawn := Step.draw_failed raw
        obtain ⟨_, unread, ⟨⟩, -⟩ | ⟨_, -, done⟩ := Step.ofExcept_ran (b := { b with source := _ }) drawn
        · rw [rows] at unread
          split at unread
          · rename_i e' fault
            cases unread
            exact sparing.sampled m.qudits b.state e fault
          · cases unread
        · cases done
    rw [found] at refused
    cases refused
  · have drawn := Step.draw_failed failed
    obtain ⟨_, astray, ⟨⟩, -⟩ | ⟨values, -, failed⟩ := Step.ofExcept_ran (b := { c with source := _ }) drawn
    · obtain ⟨fault, rfl⟩ := Measurement.correct_failed astray
      rintro (_ | _) <;> contradiction
    obtain refused | ⟨_, _, -, done⟩ := Step.bind_failed failed
    · rw [Step.edit_apply] at refused
      exact Log.recordMeasurement_failed (congrArg Prod.fst refused)
    · cases done

theorem performAs {name : String} {qs : List Qudit} {op : Operation R} (fit : fits b.state)
    (atomic : Resolution.Atomic e (op.resolve b.log (routes S))) (failed : performAs name qs op b = (.error e, b')) :
    Spared shown b e b' := by
  rw [performAs_resolve] at failed
  generalize op.resolve b.log (routes S) = resolved at atomic failed
  cases resolved with
  | none =>
      cases failed
      exact .refl shown b _
  | some r =>
      cases r with
      | skip => cases failed
      | measure m =>
          have failed : (Representation.measure m >>= fun _ => pure () : Step R S Unit) b = (.error e, b') := failed
          obtain failed | ⟨_, _, -, done⟩ := Step.bind_failed failed
          · obtain same | named := sparing.measured m failed
            · exact same ▸ .refl shown b e
            · exact absurd atomic named
          · cases done
      | reset targets => exact sparing.cleared targets b b' e fit failed
      | parts ops => exact atomic.elim
      | unitary _ | mixture _ _ | channel _ _ | stabilizer _ => exact sparing.enacted name qs _ b b' e fit failed

theorem run {op : Operation R} {s t : S} {c d : Cells} (fit : fits s)
    (atomic : Resolution.Atomic e (op.resolve (c.log (frame s).log) (routes S)))
    (failed : run (perform op) s c = (.error e, t, d)) :
    frame t = frame s ∧ shown t = shown s ∧ Cells.Spared e c d := by
  generalize stepped : perform op (bench s c) = outcome
  obtain ⟨x, b⟩ := outcome
  rw [run_of (perform op) s c x b stepped] at failed
  cases failed
  have spared := sparing.performAs fit atomic stepped
  exact ⟨spared.framed, spared.shown, spared.cells⟩

end Sparing

end Representation

/-! Dense states. -/

def Operator.Regular (qs : List Qudit) (m : Operator ℝ) : Prop :=
  checkSquare qs m = .ok () → m.Unitary ∧ m.rows = MixedRadix.size (Qudit.dims qs)

def Resolution.Regular (qs : List Qudit) : Option (Resolution ℝ) → Prop
  | some (.unitary m) => m.Regular qs
  | some (.mixture branches _) => ∀ x ∈ branches, x.2.Regular qs
  | _ => True

namespace DenseState

open QuantumRegister.Dense (weight Layout)

structure Counted (ψ : DenseState ℝ) : Prop extends Sound ψ where
  levels : ∀ q ∈ ψ.frame.qudits, q.dim < wordSize

/-- What an action leaves. It has changed nothing, or has drawn a branch without weight, or is done; if
what it acts with is as it should be, the norm is then one again. -/
inductive Outcome (regular : Prop) (b : Bench (DenseState ℝ)) : Except (SimError ℝ) Unit × Bench (DenseState ℝ) → Prop
  | refused (e : SimError ℝ) : Outcome regular b (.error e, b)
  | weightless (source : Source) (φ : DenseState ℝ) (frame : φ.frame = b.state.frame)
      (same : φ.amplitudes = b.state.amplitudes) :
      Outcome regular b (.error (.invalidChannel .branchWithoutWeight), ⟨source, b.log, φ⟩)
  | done (c : Bench (DenseState ℝ)) (frame : c.state.frame = b.state.frame) (sound : regular → Sound c.state) :
      Outcome regular b (.ok (), c)

variable {regular : Prop} {b c : Bench (DenseState ℝ)} {e : SimError ℝ}

theorem Outcome.spared (outcome : Outcome regular b (.error e, c)) : Representation.Spared amplitudes b e c := by
  cases outcome with
  | refused => exact .refl amplitudes b e
  | weightless source φ frame same => exact ⟨frame, same, rfl, by rintro ((_ | _) | _ | _) <;> contradiction⟩

theorem Outcome.whole (outcome : Outcome regular b (.ok (), c)) (held : regular) : Whole b.state.frame c.state := by
  cases outcome with
  | done _ frame sound => exact ⟨sound held, frame⟩

theorem outcome_unitary (sound : Sound b.state) (name : String) (qs : List Qudit) (m : Operator ℝ) :
    Outcome (m.Regular qs) b (DenseState.enact name qs (.unitary m) b) := by
  have read : DenseState.enact name qs (.unitary m) b = (Step.ofExcept (b.state.applyMatrix qs m) >>= fun φ => Step.setState φ :
      Step ℝ (DenseState ℝ) Unit) b := rfl
  rw [read]
  cases applied : b.state.applyMatrix qs m with
  | error e => exact .refused e
  | ok φ =>
      have multiplied := multiplied_of b.state φ qs m sound.exact sound.positive sound.full applied
      refine .done { b with state := φ } multiplied.frame fun regular => ?_
      obtain ⟨unitary, rows⟩ := regular multiplied.square
      exact multiplied.sound sound unitary rows

theorem outcome_mixture (sound : Sound b.state) (qs : List Qudit) (branches : List (ℝ × Operator ℝ)) (key : Option String) :
    Outcome (∀ x ∈ branches, x.2.Regular qs) b (applyMixture qs branches key b) := by
  generalize ran : applyMixture qs branches key b = outcome
  obtain ⟨y, c⟩ := outcome
  have all := ran
  obtain ⟨e, -, rfl, rfl⟩ | ⟨_, fits, ran⟩ := Step.ofExcept_ran ran
  · exact .refused e
  obtain ⟨e, -, rfl, rfl⟩ | ⟨l, found, ran⟩ := Step.ofExcept_ran (b := b) ran
  · exact .refused e
  cases weighed : Random.Weighted.of (branches.map Prod.fst) with
  | error fault =>
      rw [weighed] at ran
      cases ran
      exact .refused _
  | ok d =>
      rw [applyMixture_mixtureAt fits b found d weighed, mixtureAt_eq fits { b with source := (d.draw b.source).2 } found] at all
      cases all
      -- The drawn matrix is multiplied in as it would be on its own.
      refine .done _ rfl fun regular => ?_
      have bound : (d.draw b.source).1 < branches.length := (draw_lt _ d weighed b.source).trans_eq (List.length_map _)
      have member : branches[(d.draw b.source).1] ∈ branches := List.getElem_mem bound
      have drawn : (branches.map Prod.snd).getD (d.draw b.source).1 (Operator.identity 0)
          = branches[(d.draw b.source).1].2 := by simp [bound]
      have square := (Operator.checkAll_ok qs _).mp fits _ (List.mem_map_of_mem member)
      have applied : b.state.applyMatrix qs branches[(d.draw b.source).1].2
          = .ok (b.state.setBuffers (b.state.buffers.prepare l branches[(d.draw b.source).1].2).swap) := by
        rw [applyMatrix, square, found]
      obtain ⟨unitary, rows⟩ := regular _ member square
      rw [drawn]
      exact (multiplied_of _ _ qs _ sound.exact sound.positive sound.full applied).sound sound unitary rows

theorem Written.unit {ψ : DenseState ℝ} {qs : List Qudit} {ops : List (Operator ℝ)} {k : ℕ} {c : Dense.Buffers (Cplx ℝ)}
    (written : Written ψ qs ops k c.spare) (exact : ψ.frame.Exact) (positive : 0 < branchChance ψ.frame qs ops ψ.amplitudes k) :
    Dense.Amplitudes.normSq (DenseState.normalized c (branchChance ψ.frame qs ops ψ.amplitudes k)).live = 1 := by
  set x := branchChance ψ.frame qs ops ψ.amplitudes k with chance
  obtain ⟨full, wave⟩ := written.normalized x
  have scaled (σ : Assignment) (within : Assignment.Within ψ.frame.qudits σ) :
      Dense.wave ψ.frame.qudits (DenseState.normalized c x).live σ
        = Dense.acted qs (ops.getD k (Operator.identity 0)) ψ.wave σ * (1 / √x : ℝ) := by
    rw [wave σ within, Complex.ofReal_div, Complex.ofReal_one, mul_one_div]
  calc Dense.Amplitudes.normSq (DenseState.normalized c x).live
      = weight ψ.frame.qudits (Dense.wave ψ.frame.qudits (DenseState.normalized c x).live) :=
        Dense.normSq_weight _ _ exact.distinct full
    _ = 1 / √x * (1 / √x) * x := by rw [Dense.weight_congr _ _ _ exact.distinct scaled, Dense.weight_scale, chance]; rfl
    _ = 1 := by rw [div_mul_div_comm, one_mul, Real.mul_self_sqrt positive.le, one_div_mul_cancel positive.ne']

theorem outcome_channel (sound : Sound b.state) (qs : List Qudit) (ops : List (Operator ℝ)) (key : Option String) :
    Outcome True b (applyChannel qs ops key b) := by
  by_cases none : ops = []
  · subst none
    exact .refused _
  generalize ran : applyChannel qs ops key b = outcome
  obtain ⟨y, c⟩ := outcome
  have all := ran
  have filled : ops.isEmpty = false := by simpa using none
  rw [applyChannel, filled] at ran
  obtain ⟨e, -, rfl, rfl⟩ | ⟨_, fits, ran⟩ := Step.ofExcept_ran (b := b) ran
  · exact .refused e
  obtain ⟨e, -, rfl, rfl⟩ | ⟨l, found, -⟩ := Step.ofExcept_ran (b := b) ran
  · exact .refused e
  have listed := found
  rw [layout] at listed
  split at listed
  · cases listed
  rename_i axes named
  cases listed
  have picks := sound.exact.picks qs axes named
  have low := (Random.drawUnit_bounds b.source).1
  obtain ⟨sel, d, selected, live, written, chosen⟩ := branchState_chosen sound picks ops none _ low
  have drawn := branchAt_eq (Layout.of b.state.frame.dims axes) ops key _
    { b with source := (drawUnit b.source : ℝ × Source).2 } sel d selected
  rw [applyChannel_branchAt none fits key b found, drawn] at all
  split at all
  · cases all
    exact .weightless _ _ rfl live
  · rename_i positive
    cases all
    refine .done _ rfl fun _ => ?_
    rw [chosen.weight_eq] at positive ⊢
    exact ⟨sound.exact, (written.normalized _).1, written.unit sound.exact (not_le.mp positive)⟩

/-! Resetting. -/

section Reset

variable {F : Frame} {qs : List Qudit} (levels : ∀ q ∈ F.qudits, q.dim < wordSize)

include levels

theorem Whole.resetOne_done (whole : Whole F b.state) {q : Qudit} (owned : q ∈ F.qudits) :
    ∃ c, resetOne q b = (.ok (), c) ∧ Whole F c.state := by
  have single : [q] ⊆ F.qudits := List.cons_subset.mpr ⟨owned, List.nil_subset _⟩
  obtain ⟨k, φ, bound, after, ran⟩ := whole.observed ⟨List.nodup_singleton q, single⟩
  have inside : k < q.dim := bound.trans_eq (Nat.mul_one q.dim)
  have done : ∃ c, resetOne q b = (.ok (), c) := by
    rw [resetOne, Step.bind_apply, ran]
    dsimp only
    rw [MixedRadix.digits_single inside, List.headD_cons]
    by_cases lowest : k = 0
    · rw [if_neg (not_not.mpr lowest)]
      exact ⟨_, rfl⟩
    · have joint : Qudit.jointDim [q] = q.dim :=
        (congrArg (· % wordSize) (Nat.mul_one q.dim)).trans (Nat.mod_eq_of_lt (levels q owned))
      have square : Operator.checkSquare [q] (Operator.exchange q.dim 0 k : Operator ℝ) = .ok () :=
        (Operator.checkSquare_ok _ _).mpr ⟨joint.symm, joint.symm⟩
      obtain ⟨χ, applied⟩ := applyMatrix_done φ [q] _ after.exact (List.nodup_singleton q) (after.frame ▸ single) square
      rw [if_pos lowest]
      exact ⟨_, congrArg (fun r => (Step.ofExcept r >>= fun χ => Step.setState χ : Step ℝ (DenseState ℝ) Unit)
        ⟨(drawUnit b.source : ℝ × Source).2, b.log, φ⟩) applied⟩
  obtain ⟨c, done⟩ := done
  have kept := whole_resetOne (whole.frame ▸ whole.exact) q b whole () (congrArg Prod.fst done)
  rw [done] at kept
  exact ⟨c, done, kept⟩

theorem Whole.reset_done (whole : Whole F b.state) (names : Names F.qudits qs) :
    ∃ c, DenseState.reset qs b = (.ok (), c) ∧ Whole F c.state := by
  rw [reset_loop qs b whole.exact names.once (whole.frame ▸ names.inside)]
  replace names := names.inside
  induction qs generalizing b with
  | nil => exact ⟨b, rfl, whole⟩
  | cons q qs ih =>
      obtain ⟨owned, later⟩ := List.cons_subset.mp names
      obtain ⟨c, first, between⟩ := whole.resetOne_done levels owned
      obtain ⟨d, rest, after⟩ := ih between later
      refine ⟨d, ?_, after⟩
      have loop : (q :: qs).forM resetOne = (resetOne q >>= fun _ => qs.forM resetOne : Step ℝ (DenseState ℝ) Unit) := rfl
      rw [loop, Step.bind_apply, first]
      exact rest

end Reset

theorem outcome_reset (counted : Counted b.state) (qs : List Qudit) : Outcome True b (DenseState.reset qs b) := by
  have whole : Whole b.state.frame b.state := ⟨counted.toSound, rfl⟩
  generalize ran : DenseState.reset qs b = outcome
  obtain ⟨y, c⟩ := outcome
  obtain ⟨e, -, rfl, rfl⟩ | ⟨axes, found, -⟩ := Step.ofExcept_ran (b := b) ran
  · exact .refused e
  · obtain ⟨c', done, after⟩ := whole.reset_done counted.levels (names_of_axes counted.exact b.state whole qs axes found)
    cases done.symm.trans ran
    exact .done c after.frame fun _ => after.toSound

theorem outcome_enact (sound : Sound b.state) (name : String) (qs : List Qudit) (r : Resolution ℝ) :
    Outcome (Resolution.Regular qs (some r)) b (DenseState.enact name qs r b) := by
  cases r with
  | unitary m => exact outcome_unitary sound name qs m
  | mixture branches key => exact outcome_mixture sound qs branches key
  | channel ops key => exact outcome_channel sound qs ops key
  | skip | measure _ | reset _ | stabilizer _ | parts _ => exact .refused _

theorem sparing_counted : Representation.Sparing Counted (amplitudes : DenseState ℝ → Dense.Amplitudes ℝ) where
  enacted name qs r b b' e counted failed := by
    have outcome := outcome_enact counted.toSound name qs r
    rw [show DenseState.enact name qs r b = (.error e, b') from failed] at outcome
    exact outcome.spared
  cleared qs b b' e counted failed := by
    have outcome := outcome_reset counted qs
    rw [show DenseState.reset qs b = (.error e, b') from failed] at outcome
    exact outcome.spared
  observed qs b b' e failed := by
    have failed : DenseState.observe qs b = (.error e, b') := failed
    rw [observe_at, observedAt] at failed
    cases found : b.state.frame.axes (R := ℝ) qs with
    | error e' =>
        rw [found] at failed
        cases failed
        rfl
    | ok axes =>
        rw [found] at failed
        cases failed
  sampled qs ψ e failed := by
    have failed : ψ.sampler qs = .error e := failed
    rw [DenseState.sampler] at failed
    split at failed
    · rename_i e' found
      cases failed
      exact found
    · cases failed

theorem Counted.performed (counted : Counted b.state) {name : String} {qs : List Qudit} {op : Operation ℝ}
    (regular : Resolution.Regular qs (op.resolve b.log (routes (DenseState ℝ))))
    (whole : ∀ ops, op.resolve b.log (routes (DenseState ℝ)) ≠ some (.parts ops))
    (done : performAs name qs op b = (.ok (), c)) : Whole b.state.frame c.state := by
  have before : Whole b.state.frame b.state := ⟨counted.toSound, rfl⟩
  rw [performAs_resolve] at done
  generalize op.resolve b.log (routes (DenseState ℝ)) = resolved at regular whole done
  cases resolved with
  | none => cases done
  | some r =>
      have enacted (done : DenseState.enact name qs r b = (.ok (), c)) : Whole b.state.frame c.state := by
        have outcome := outcome_enact counted.toSound name qs r
        rw [done] at outcome
        exact outcome.whole regular
      cases r with
      | parts ops => exact absurd rfl (whole ops)
      | skip =>
          cases done
          exact before
      | measure m =>
          have carries : Leaves (Whole b.state.frame) (carryOut name qs (some (.measure m)) : Step ℝ (DenseState ℝ) Unit)
              (Whole b.state.frame) := leaves_bind (whole_measured counted.exact m) fun _ => leaves_pure ()
          have after := carries b before () (congrArg Prod.fst done)
          rw [done] at after
          exact after
      | reset targets =>
          have outcome := outcome_reset counted targets
          rw [show DenseState.reset targets b = (.ok (), c) from done] at outcome
          exact outcome.whole trivial
      | unitary _ | mixture _ _ | channel _ _ | stabilizer _ => exact enacted done

end DenseState

/-! Stabilizer states. -/

namespace StabilizerState

variable {R : Type} [Scalar R]

theorem sparing (fits : StabilizerState R → Prop) : Representation.Sparing fits StabilizerState.form where
  enacted name qs r b b' e _ failed := by
    have failed : StabilizerState.enact name qs r b = (.error e, b') := failed
    have still : b' = b := by
      cases r with
      | stabilizer gates =>
          obtain ⟨_, -, -, same⟩ | ⟨_, -, failed⟩ := Step.ofExcept_ran (b := b) failed
          · exact same
          obtain ⟨_, -, -, same⟩ | ⟨_, -, done⟩ := Step.ofExcept_ran (b := b) failed
          · exact same
          · cases done
      | skip | measure _ | reset _ | unitary _ | mixture _ _ | channel _ _ | parts _ =>
          cases failed
          rfl
    exact still ▸ .refl StabilizerState.form b e
  cleared qs b b' e _ failed := by
    obtain ⟨_, -, -, same⟩ | ⟨_, -, done⟩ := Step.ofExcept_ran (b := b) failed
    · exact same ▸ .refl StabilizerState.form b e
    · cases done
  observed qs b b' e failed := by
    obtain ⟨_, found, ⟨⟩, -⟩ | ⟨_, -, done⟩ := Step.ofExcept_ran (b := b) failed
    · exact found
    · cases done
  sampled qs φ e failed := by
    have failed : φ.sampler qs = .error e := failed
    rw [StabilizerState.sampler] at failed
    split at failed
    · rename_i found
      cases failed
      exact found
    · cases failed

end StabilizerState

end QuantumRegister
