import QuantumRegister.Proofs.Parallel

/-!
Two states that hold the same, with handles and scratch space of their own, react in the same way.
Steps on such a pair are compared run against run: the same answer or the same error, the same record,
the same words drawn, and again states that hold the same.
-/

set_option autoImplicit false

namespace QuantumRegister

open QuantumRegister.Random (Source Draw Reads)

open QuantumRegister.SimError (Agree agree_ok agree_error agree_refl agree_bind)

/-! Frames with the same labels. -/

namespace Frame

variable {R : Type}

structure Alike (f g : Frame) : Prop where
  qudits : g.qudits = f.qudits
  axisOf : g.axisOf = f.axisOf

variable {f g f' g' : Frame}

theorem Alike.refl (f : Frame) : f.Alike f := ⟨rfl, rfl⟩

theorem Alike.symm (alike : f.Alike g) : g.Alike f := ⟨alike.qudits.symm, alike.axisOf.symm⟩

theorem alike_rewired (f : Frame) (source : SourceRef) (log : LogRef) : f.Alike (f.rewired source log) := ⟨rfl, rfl⟩

theorem Alike.exact (alike : f.Alike g) (valid : f.Exact) : g.Exact := by
  refine ⟨alike.qudits ▸ valid.distinct, fun q k => ?_⟩
  rw [alike.qudits, alike.axisOf]
  exact valid.inverse q k

theorem Alike.dims (alike : f.Alike g) : g.dims = f.dims := congrArg Qudit.dims alike.qudits

theorem Alike.axis (alike : f.Alike g) (q : Qudit) : g.axis (R := R) q = f.axis q := by rw [Frame.axis, Frame.axis, alike.axisOf]

theorem Alike.axes (alike : f.Alike g) (qs : List Qudit) : g.axes (R := R) qs = f.axes qs := by
  have after : ∀ taken, g.axesAfter (R := R) taken qs = f.axesAfter taken qs := by
    induction qs with
    | nil => exact fun _ => rfl
    | cons q qs ih =>
        intro taken
        simp only [axesAfter, alike.axis, ih]
  exact after []

theorem Alike.permutation (alike : f.Alike g) (order : List Qudit) : g.permutation (R := R) order = f.permutation order := by
  rw [Frame.permutation, Frame.permutation, alike.qudits, alike.axes]

theorem alike_of (qs : List Qudit) (source source' : SourceRef) (log log' : LogRef) :
    Agree (R := R) Alike (of qs source log) (of qs source' log') := by
  rw [of, of]
  split
  · exact agree_error _
  · exact agree_ok _ _ ⟨rfl, rfl⟩

theorem Alike.withQudits (f g : Frame) (qs : List Qudit) : Agree (R := R) Alike (f.withQudits qs) (g.withQudits qs) :=
  alike_of qs _ _ _ _

theorem Alike.concat (first : f.Alike g) (second : f'.Alike g') : Agree (R := R) Alike (f.concat f') (g.concat g') := by
  rw [Frame.concat, Frame.concat, first.qudits, second.qudits]
  exact alike_of _ _ _ _ _

theorem Alike.rename (alike : f.Alike g) (old new : Qudit) : Agree (R := R) Alike (f.rename old new) (g.rename old new) := by
  rw [Frame.rename, Frame.rename, alike.axisOf]
  split
  · exact agree_ok _ _ alike
  · split
    · exact agree_error _
    · split
      · exact agree_error _
      · exact agree_ok _ _ ⟨congrArg (List.set · _ _) alike.qudits, rfl⟩

theorem Alike.swapLabels (alike : f.Alike g) (a b : Qudit) : Agree (R := R) Alike (f.swapLabels a b) (g.swapLabels a b) := by
  rw [Frame.swapLabels, Frame.swapLabels, alike.axis, alike.axis, alike.qudits, alike.axisOf]
  split
  · exact agree_error _
  · split
    · exact agree_error _
    · exact agree_ok _ _ ⟨rfl, rfl⟩

end Frame

/-! States that hold the same. -/

/-- What a state holds beside its frame, as far as it can be told from outside. States that are not
full may answer from what happens to lie in their scratch space. -/
class Readable (S : Type) where
  Content : Type
  content : S → Content
  Full : S → Prop

open QuantumRegister.Representation (frame setFrame)
open QuantumRegister.Readable (content Full)

structure Like {R S : Type} [Representation R S] [Readable S] (t u : S) : Prop where
  labels : (frame t).Alike (frame u)
  content : content t = content u
  first : Full t
  second : Full u

section Likeness

variable {R S : Type} [Representation R S] [Readable S] {t u v : S}

-- The relation is reflexive on full states only.
theorem Like.refl (full : Full t) : Like t t := ⟨.refl _, rfl, full, full⟩

theorem Like.symm (like : Like t u) : Like u t := ⟨like.labels.symm, like.content.symm, like.second, like.first⟩

theorem Like.qudits (like : Like t u) : Representation.qudits u = Representation.qudits t := like.labels.qudits

structure Bench.Alike (f : Frame) (σ : Source) (b b' : Bench S) : Prop where
  frame : frame b.state = f
  source : ∃ n, b.source = σ.skip n ∧ b'.source = σ.skip n
  log : b'.log = b.log
  state : Like b.state b'.state

end Likeness

namespace Step

variable {R S α β γ δ : Type} [Representation R S] [Readable S] {f : Frame}

def Matches (f : Frame) (P : α → β → Prop) (step : Step R S α) (step' : Step R S β) : Prop :=
  ∀ σ b b', Bench.Alike f σ b b' → Agree P (step b).1 (step' b').1 ∧ Bench.Alike f σ (step b).2 (step' b').2

variable {P : α → β → Prop} {Q : γ → δ → Prop}

theorem matches_pure (a : α) (b : β) (held : P a b) : Matches f P (pure a : Step R S α) (pure b) :=
  fun _ => parallel_pure a b held

theorem matches_throw (e : SimError R) : Matches f P (throw e : Step R S α) (throw e) := fun _ => parallel_throw e

theorem matches_bind {step : Step R S α} {step' : Step R S β} {next : α → Step R S γ} {next' : β → Step R S δ}
    (first : Matches f P step step') (rest : ∀ a b, P a b → Matches f Q (next a) (next' b)) :
    Matches f Q (step >>= next) (step' >>= next') :=
  fun σ => parallel_bind (first σ) fun a b held => rest a b held σ

theorem matches_then {step step' : Step R S α} {next : α → Step R S γ} {next' : α → Step R S δ}
    (first : Matches f Eq step step') (rest : ∀ a, Matches f Q (next a) (next' a)) :
    Matches f Q (step >>= next) (step' >>= next') := fun σ => parallel_then (first σ) fun a => rest a σ

theorem matches_get {next next' : Bench S → Step R S α} {P : α → α → Prop}
    (rest : ∀ σ b b', Bench.Alike f σ b b' → Matches f P (next b) (next' b')) : Matches f P (get >>= next) (get >>= next') :=
  fun σ => parallel_get fun b b' like => rest σ b b' like σ

theorem logged_alike (f : Frame) (σ : Source) : Logged (Bench.Alike (S := S) f σ) :=
  ⟨fun _ _ like => like.log, fun _ _ _ like => ⟨like.frame, like.source, rfl, like.state⟩⟩

theorem matches_setState (s s' : S) (like : Like s s') (same : frame s = f) :
    Matches f Eq (setState s : Step R S Unit) (setState s') :=
  fun _ _ _ before => ⟨agree_refl _, same, before.source, before.log, like⟩

theorem matches_draw (d : Draw α) (reads : Reads d) : Matches f Eq (draw d : Step R S α) (draw d) := by
  rintro σ ⟨source, log, s⟩ ⟨source', log', s'⟩ ⟨framed, ⟨n, first, second⟩, same, like⟩
  obtain ⟨m, moved⟩ := reads (σ.skip n)
  cases first
  cases second
  refine ⟨agree_refl _, framed, ⟨n + m, ?_, ?_⟩, same, like⟩
  · exact moved.trans (Source.skip_skip σ n m)
  · exact moved.trans (Source.skip_skip σ n m)

theorem matches_ofExcept {x : Except (SimError R) α} {y : Except (SimError R) β} (agree : Agree P x y) :
    Matches f P (ofExcept x : Step R S α) (ofExcept y) := fun _ => parallel_ofExcept agree

theorem matches_recordBranch (key : Option String) (index : ℕ) :
    Matches f Eq (recordBranch key index : Step R S Unit) (recordBranch key index) :=
  fun σ => (logged_alike f σ).parallel_recordBranch key index

end Step

class UniformRepresentation (R S : Type) [Scalar R] [Representation R S] [Readable S] : Prop where
  full_basisState : ∀ (qs : List Qudit) (index : ℕ) (source : SourceRef) (log : LogRef) (t : S),
    Representation.basisState qs index source log = .ok t → Full t
  like_setFrame : ∀ (t u : S) (f g : Frame), Like t u → f.Exact → f.Alike g → f.dims = (frame t).dims →
    Like (setFrame t f) (setFrame u g)
  like_duplicate : ∀ (deep : Bool) (t : S) (source : SourceRef) (log : LogRef), Full t →
    Like t (setFrame (Representation.duplicate deep t) ((frame t).rewired source log))
  agree_kronecker : ∀ t t' u u' : S, Like t t' → Like u u' →
    Agree Like (Representation.kronecker t u) (Representation.kronecker t' u')
  agree_factor : ∀ (t u : S) (qs : List Qudit) (validate : Bool) (tolerance : R), Like t u →
    Agree (fun p p' => Like p.1 p'.1 ∧ Like p.2 p'.2) (Representation.factor t qs validate tolerance)
      (Representation.factor u qs validate tolerance)
  agree_transposed : ∀ (t u : S) (order : List Qudit), Like t u →
    Agree (fun v v' => content v = content v') (Representation.transposed t order) (Representation.transposed u order)
  same_sampler : ∀ (t u : S) (qs : List Qudit), Like t u → Representation.sampler u qs = Representation.sampler t qs
  matches_enact : ∀ (f : Frame) (name : String) (qs : List Qudit) (r : Resolution R),
    Step.Matches f Eq (Representation.enact name qs r : Step R S Unit) (Representation.enact name qs r)
  matches_observe : ∀ (f : Frame) (qs : List Qudit),
    Step.Matches f Eq (Representation.observe qs : Step R S (List ℕ)) (Representation.observe qs)
  matches_reset : ∀ (f : Frame) (qs : List Qudit),
    Step.Matches f Eq (Representation.reset qs : Step R S Unit) (Representation.reset qs)

namespace Representation

open Step UniformRepresentation

variable {R S : Type} [Scalar R] [Representation R S] [Readable S] [UniformRepresentation R S] {f : Frame}

theorem same_rows (t u : S) (like : Like t u) (qs : List Qudit) (repetitions seed : ℕ) :
    rows u qs repetitions seed = rows t qs repetitions seed := by
  rw [rows, rows, same_sampler t u qs like]

theorem unseen_alike (f : Frame) (σ : Source) : Unseen (Bench.Alike (S := S) f σ) where
  toLogged := logged_alike f σ
  draw d reads := matches_draw d reads σ
  axes _ _ qs like := (SimError.agree_of_eq (like.state.labels.axes qs).symm).mono fun _ _ _ _ _ => trivial
  sampler _ _ qs like := same_sampler _ _ qs like.state
  enact name qs r := matches_enact f name qs r σ
  observe qs := matches_observe f qs σ
  reset qs := matches_reset f qs σ

theorem matches_performAs (name : String) (qs : List Qudit) (op : Operation R) :
    Matches f Eq (performAs name qs op : Step R S Unit) (performAs name qs op) :=
  fun σ => parallel_performAs (unseen_alike f σ) name qs op

end Representation

end QuantumRegister
