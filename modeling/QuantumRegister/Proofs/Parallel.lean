import QuantumRegister.Proofs.Random.Reads
import QuantumRegister.Proofs.Tracks

/-!
Two steps side by side. From related benches they give the same answer or the same error, and leave
related benches again. An operation is a composition of such steps, so a relation that no part of a
state can tell is one that no operation can tell.
-/

set_option autoImplicit false

namespace QuantumRegister

open QuantumRegister.Random (Draw Reads)

/-! Outcomes that agree. -/

namespace SimError

variable {R α β γ δ : Type}

def Agree (P : α → β → Prop) (x : Except (SimError R) α) (y : Except (SimError R) β) : Prop :=
  (∃ a b, x = .ok a ∧ y = .ok b ∧ P a b) ∨ ∃ e, x = .error e ∧ y = .error e

theorem agree_ok {P : α → β → Prop} (a : α) (b : β) (held : P a b) :
    Agree P (.ok a : Except (SimError R) α) (.ok b) := Or.inl ⟨a, b, rfl, rfl, held⟩

theorem agree_error {P : α → β → Prop} (e : SimError R) : Agree P (.error e) (.error e) := Or.inr ⟨e, rfl, rfl⟩

theorem agree_refl (x : Except (SimError R) α) : Agree Eq x x := by
  cases x with
  | ok a => exact agree_ok a a rfl
  | error e => exact agree_error e

theorem agree_of_eq {x y : Except (SimError R) α} (same : x = y) : Agree Eq x y := same ▸ agree_refl x

theorem Agree.eq {x y : Except (SimError R) α} (agree : Agree Eq x y) : x = y := by
  obtain ⟨a, b, first, second, same⟩ | ⟨e, first, second⟩ := agree
  · rw [first, second, same]
  · rw [first, second]

theorem Agree.mono {P Q : α → β → Prop} {x : Except (SimError R) α} {y : Except (SimError R) β} (agree : Agree P x y)
    (weaker : ∀ a b, x = .ok a → y = .ok b → P a b → Q a b) : Agree Q x y := by
  obtain ⟨a, b, first, second, held⟩ | failed := agree
  · exact Or.inl ⟨a, b, first, second, weaker a b first second held⟩
  · exact Or.inr failed

theorem Agree.held {P : α → β → Prop} {x : Except (SimError R) α} {y : Except (SimError R) β} (agree : Agree P x y) {a : α} {b : β}
    (first : x = .ok a) (second : y = .ok b) : P a b := by
  rw [first, second] at agree
  obtain ⟨_, _, here, there, held⟩ | ⟨e, failed, -⟩ := agree
  · cases here
    cases there
    exact held
  · cases failed

theorem agree_bind {P : α → β → Prop} {Q : γ → δ → Prop} {x : Except (SimError R) α} {y : Except (SimError R) β}
    {f : α → Except (SimError R) γ} {g : β → Except (SimError R) δ} (agree : Agree P x y)
    (rest : ∀ a b, x = .ok a → y = .ok b → P a b → Agree Q (f a) (g b)) : Agree Q (x >>= f) (y >>= g) := by
  obtain ⟨a, b, first, second, held⟩ | ⟨e, first, second⟩ := agree
  · have further := rest a b first second held
    rw [first, second]
    exact further
  · rw [first, second]
    exact agree_error e

theorem agree_map {P : α → β → Prop} {Q : γ → δ → Prop} {x : Except (SimError R) α} {y : Except (SimError R) β} (f : α → γ)
    (g : β → δ) (agree : Agree P x y) (each : ∀ a b, P a b → Q (f a) (g b)) : Agree Q (x.map f) (y.map g) := by
  obtain ⟨a, b, rfl, rfl, held⟩ | ⟨e, rfl, rfl⟩ := agree
  · exact agree_ok _ _ (each a b held)
  · exact agree_error e

end SimError

open QuantumRegister.SimError (Agree agree_ok agree_error agree_refl)
open QuantumRegister.Representation (frame)

namespace Step

variable {R S α β γ δ : Type} {rel : Bench S → Bench S → Prop} {P : α → β → Prop} {Q : γ → δ → Prop}

def Parallel (rel : Bench S → Bench S → Prop) (P : α → β → Prop) (step : Step R S α) (step' : Step R S β) : Prop :=
  ∀ b b', rel b b' → Agree P (step b).1 (step' b').1 ∧ rel (step b).2 (step' b').2

theorem parallel_pure (a : α) (b : β) (held : P a b) : Parallel rel P (pure a : Step R S α) (pure b) :=
  fun _ _ related => ⟨agree_ok a b held, related⟩

theorem parallel_throw (e : SimError R) : Parallel rel P (throw e : Step R S α) (throw e) :=
  fun _ _ related => ⟨agree_error e, related⟩

theorem parallel_bind {step : Step R S α} {step' : Step R S β} {next : α → Step R S γ} {next' : β → Step R S δ}
    (first : Parallel rel P step step') (rest : ∀ a b, P a b → Parallel rel Q (next a) (next' b)) :
    Parallel rel Q (step >>= next) (step' >>= next') := by
  intro b b' related
  have middle := first b b' related
  rw [bind_apply, bind_apply]
  generalize step b = x at middle ⊢
  generalize step' b' = y at middle ⊢
  obtain ⟨x, m⟩ := x
  obtain ⟨y, m'⟩ := y
  obtain ⟨⟨a, c, rfl, rfl, held⟩ | ⟨e, rfl, rfl⟩, after⟩ := middle
  · exact rest a c held m m' after
  · exact ⟨agree_error e, after⟩

theorem parallel_then {step step' : Step R S α} {next : α → Step R S γ} {next' : α → Step R S δ}
    (first : Parallel rel Eq step step') (rest : ∀ a, Parallel rel Q (next a) (next' a)) :
    Parallel rel Q (step >>= next) (step' >>= next') := parallel_bind first fun a _ same => same ▸ rest a

theorem parallel_get {next : Bench S → Step R S α} {next' : Bench S → Step R S β}
    (rest : ∀ b b', rel b b' → Parallel rel P (next b) (next' b')) : Parallel rel P (get >>= next) (get >>= next') :=
  fun b b' related => rest b b' related b b' related

theorem parallel_ofExcept {x : Except (SimError R) α} {y : Except (SimError R) β} (agree : Agree P x y) :
    Parallel rel P (ofExcept x : Step R S α) (ofExcept y) := by
  obtain ⟨a, b, rfl, rfl, held⟩ | ⟨e, rfl, rfl⟩ := agree
  · exact parallel_pure a b held
  · exact parallel_throw e

theorem parallel_guard (p : Prop) [Decidable p] (e : SimError R) {next : Step R S α} {next' : Step R S β}
    (rest : ¬p → Parallel rel P next next') :
    Parallel rel P (if p then (throw e : Step R S Unit) >>= fun _ => next else next)
      (if p then (throw e : Step R S Unit) >>= fun _ => next' else next') := by
  by_cases failed : p
  · rw [if_pos failed, if_pos failed]
    exact parallel_throw e
  · rw [if_neg failed, if_neg failed]
    exact rest failed

theorem parallel_forM (xs : List α) {body body' : α → Step R S Unit} (each : ∀ x, Parallel rel Eq (body x) (body' x)) :
    Parallel rel Eq (xs.forM body) (xs.forM body') := by
  induction xs with
  | nil => exact parallel_pure () () rfl
  | cons x xs ih => exact parallel_then (each x) fun _ => ih

/-! Records. -/

structure Logged (rel : Bench S → Bench S → Prop) : Prop where
  log : ∀ b b', rel b b' → b'.log = b.log
  rewritten : ∀ (b b' : Bench S) (l : Log), rel b b' → rel { b with log := l } { b' with log := l }

theorem Logged.parallel_edit (logged : Logged rel) (e : Log.Edit R α) : Parallel rel Eq (edit e : Step R S α) (edit e) := by
  intro b b' related
  rw [edit_apply, edit_apply, logged.log b b' related]
  exact ⟨agree_refl _, logged.rewritten b b' _ related⟩

theorem Logged.parallel_recordBranch (logged : Logged rel) (key : Option String) (index : ℕ) :
    Parallel rel Eq (recordBranch key index : Step R S Unit) (recordBranch key index) := by
  cases key with
  | none => exact parallel_pure () () rfl
  | some k =>
      intro b b' related
      have written : rel { b with log := b.log.recordBranch k index } { b' with log := b'.log.recordBranch k index } := by
        rw [logged.log b b' related]
        exact logged.rewritten b b' _ related
      exact ⟨agree_refl _, written⟩

/-! Benches with the same source and log. -/

section Levels

variable {rel : S → S → Prop}

theorem logged_level : Logged (Level rel) :=
  ⟨fun _ _ level => level.log.symm, fun _ _ _ level => ⟨level.source, rfl, level.state⟩⟩

theorem parallel_setState (s t : S) (related : rel s t) : Parallel (Level rel) Eq (setState s : Step R S Unit) (setState t) :=
  fun _ _ level => ⟨agree_refl _, level.source, level.log, related⟩

theorem parallel_draw (d : Draw α) : Parallel (Level rel) Eq (draw d : Step R S α) (draw d) := by
  rintro ⟨source, log, s⟩ ⟨source', log', s'⟩ ⟨same, logged, related⟩
  cases same
  exact ⟨agree_refl _, rfl, logged, related⟩

end Levels

end Step

namespace Representation

open Step

variable {R S : Type} [Scalar R] [Representation R S] {rel : Bench S → Bench S → Prop}

-- A relation that nothing a representation provides can tell.
structure Unseen (rel : Bench S → Bench S → Prop) : Prop extends Logged rel where
  draw : ∀ {α : Type} (d : Draw α), Reads d → Parallel rel Eq (draw d : Step R S α) (draw d)
  axes : ∀ b b' (qs : List Qudit), rel b b' →
    Agree (R := R) (fun _ _ => True) ((frame b.state).axes qs) ((frame b'.state).axes qs)
  sampler : ∀ b b' (qs : List Qudit), rel b b' → sampler b'.state qs = sampler b.state qs
  enact : ∀ (name : String) (qs : List Qudit) (r : Resolution R),
    Parallel rel Eq (enact name qs r : Step R S Unit) (enact name qs r)
  observe : ∀ qs : List Qudit, Parallel rel Eq (observe qs : Step R S (List ℕ)) (observe qs)
  reset : ∀ qs : List Qudit, Parallel rel Eq (reset qs : Step R S Unit) (reset qs)

theorem parallel_measure (unseen : Unseen rel) (m : Measurement R) : Parallel rel Eq (measure m : Step R S (List ℕ)) (measure m) := by
  have raw : Parallel rel Eq (rawOutcome m : Step R S (List ℕ)) (rawOutcome m) := by
    rw [rawOutcome]
    split
    · exact unseen.observe m.qudits
    · refine parallel_then (unseen.draw _ Random.reads_drawDouble) fun seed => parallel_get fun b b' related => ?_
      refine parallel_then (parallel_ofExcept ?_) fun rows => parallel_pure _ _ rfl
      rw [rows, rows, unseen.sampler b b' m.qudits related]
      exact agree_refl _
  refine parallel_get fun b b' related => parallel_bind (parallel_ofExcept (unseen.axes b b' m.qudits related)) fun _ _ _ => ?_
  refine parallel_then raw fun raw => parallel_then (unseen.draw _ (m.reads_correct raw)) fun corrected => ?_
  refine parallel_then (parallel_ofExcept (agree_refl corrected)) fun values => ?_
  exact parallel_then (unseen.parallel_edit _) fun _ => parallel_pure _ _ rfl

theorem parallel_carry (unseen : Unseen rel) (name : String) (qs : List Qudit) (r : Option (Resolution R)) :
    Parallel rel Eq (carry name qs r : Step R S Unit) (carry name qs r) := by
  cases r with
  | none => exact parallel_throw _
  | some r =>
      cases r with
      | skip => exact parallel_pure () () rfl
      | measure m => exact parallel_then (parallel_measure unseen m) fun _ => parallel_pure () () rfl
      | reset targets => exact unseen.reset targets
      | parts ops => exact parallel_throw _
      | unitary m => exact unseen.enact name qs _
      | mixture branches key => exact unseen.enact name qs _
      | channel ops key => exact unseen.enact name qs _
      | stabilizer gates => exact unseen.enact name qs _

mutual

theorem parallel_performAs (unseen : Unseen rel) (name : String) (qs : List Qudit) :
    ∀ op : Operation R, Parallel rel Eq (performAs name qs op : Step R S Unit) (performAs name qs op)
  | ⟨_, _, some (key, inner)⟩ => by
      rw [performAs]
      refine parallel_get fun b b' related => ?_
      rw [unseen.log b b' related]
      split
      · exact parallel_performAs unseen name qs inner
      · exact parallel_pure () () rfl
  | ⟨c, some parts, none⟩ => by
      rw [performAs]
      split
      · exact parallel_performAll unseen parts
      · exact parallel_carry unseen name qs _
  | ⟨c, none, none⟩ => by
      rw [performAs]
      exact parallel_carry unseen name qs _

theorem parallel_performAll (unseen : Unseen rel) :
    ∀ ops : List (Operation R), Parallel rel Eq (performAll ops : Step R S Unit) (performAll ops)
  | [] => parallel_pure () () rfl
  | op :: ops => by
      rw [performAll]
      exact parallel_then (parallel_performAs unseen _ _ op) fun _ => parallel_performAll unseen ops

end

end Representation

end QuantumRegister
