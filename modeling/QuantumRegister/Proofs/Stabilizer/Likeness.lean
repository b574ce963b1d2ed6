import QuantumRegister.Proofs.Lawful
import QuantumRegister.Proofs.Likeness

/-!
Stabilizer states with the same form behave the same. They have no scratch space, so there is nothing
else that could show.
-/

set_option autoImplicit false

namespace QuantumRegister.StabilizerState

open QuantumRegister.SimError (Agree agree_ok agree_error agree_refl agree_bind agree_of_eq)
open QuantumRegister.Step

variable {R : Type} [Scalar R] {f : Frame}

instance : Readable (StabilizerState R) where
  Content := Form R
  content φ := φ.form
  Full _ := True

variable {t u : StabilizerState R}

omit [Scalar R] in
theorem same_onAxes {g : Frame} (alike : f.Alike g) (k : Generator Qudit) : onAxes (R := R) g k = onAxes f k := by
  cases k <;> simp only [onAxes, axisPair, alike.axis]

omit [Scalar R] in
theorem same_allOnAxes {g : Frame} (alike : f.Alike g) (ks : List (Generator Qudit)) :
    allOnAxes (R := R) g ks = allOnAxes f ks := by
  induction ks with
  | nil => rfl
  | cons k ks ih => rw [allOnAxes, allOnAxes, ih, same_onAxes alike]

theorem like_setForm (like : Like t u) (c : Form R) : Like (t.setForm c) (u.setForm c) := ⟨like.labels, rfl, trivial, trivial⟩

theorem matches_enact (name : String) (qs : List Qudit) (r : Resolution R) :
    Matches f Eq (enact name qs r : Step R (StabilizerState R) Unit) (enact name qs r) := by
  cases r with
  | stabilizer gates =>
      refine matches_then (matches_ofExcept (agree_refl _)) fun _ => matches_get fun σ b b' like => ?_
      have same : allOnAxes (R := R) b'.state.frame gates = allOnAxes b.state.frame gates :=
        same_allOnAxes like.state.labels gates
      have form : b'.state.form = b.state.form := like.state.content.symm
      refine matches_then (matches_ofExcept (agree_of_eq same.symm)) fun ks => ?_
      rw [applyAll, applyAll, form]
      exact matches_setState _ _ (like_setForm like.state _) like.frame
  | unitary m => exact matches_throw _
  | mixture branches key => exact matches_throw _
  | channel ops key => exact matches_throw _
  | skip => exact matches_throw _
  | measure m => exact matches_throw _
  | reset targets => exact matches_throw _
  | parts ops => exact matches_throw _

theorem matches_observe (qs : List Qudit) : Matches f Eq (observe qs : Step R (StabilizerState R) (List ℕ)) (observe qs) := by
  refine matches_get fun σ b b' like => ?_
  have axes : b'.state.frame.axes (R := R) qs = b.state.frame.axes qs := like.state.labels.axes qs
  have form : b'.state.form = b.state.form := like.state.content.symm
  refine matches_then (matches_ofExcept (agree_of_eq axes.symm)) fun axes => ?_
  simp only [form]
  refine matches_then (matches_draw _ (Form.reads_measureAll _ axes)) fun found => ?_
  exact matches_then (matches_setState _ _ (like_setForm like.state found.2) like.frame) fun _ => matches_pure _ _ rfl

theorem matches_reset (qs : List Qudit) : Matches f Eq (reset qs : Step R (StabilizerState R) Unit) (reset qs) := by
  refine matches_get fun σ b b' like => ?_
  have axes : b'.state.frame.axes (R := R) qs = b.state.frame.axes qs := like.state.labels.axes qs
  have form : b'.state.form = b.state.form := like.state.content.symm
  refine matches_then (matches_ofExcept (agree_of_eq axes.symm)) fun axes => ?_
  simp only [form]
  refine matches_then (matches_draw _ (Form.reads_resetAll _ axes)) fun c => ?_
  exact matches_setState _ _ (like_setForm like.state c) like.frame

theorem agree_kronecker {t' u' : StabilizerState R} (first : Like t t') (second : Like u u') :
    Agree Like (t.kronecker u) (t'.kronecker u') := by
  have left : t'.form = t.form := first.content.symm
  have right : u'.form = u.form := second.content.symm
  rw [kronecker, kronecker, left, right]
  have frames : Agree Frame.Alike (t.frame.concat (R := R) u.frame) (t'.frame.concat u'.frame) :=
    first.labels.concat second.labels
  obtain ⟨f, g, joined, joined', alike⟩ | ⟨e, failed, failed'⟩ := frames
  · rw [joined, joined']
    exact agree_ok _ _ ⟨alike, rfl, trivial, trivial⟩
  · rw [failed, failed']
    exact agree_error e

theorem agree_transposed (like : Like t u) (order : List Qudit) :
    Agree (fun v v' => Readable.content v = Readable.content v') (t.transposed order) (u.transposed order) := by
  have axes : u.frame.permutation (R := R) order = t.frame.permutation order := like.labels.permutation order
  have form : u.form = t.form := like.content.symm
  rw [transposed, transposed, axes, form]
  refine agree_bind (agree_refl _) fun axes _ _ _ same => ?_
  subst same
  exact agree_bind (Frame.Alike.withQudits _ _ order) fun f f' _ _ _ => agree_ok _ _ rfl

theorem same_sampler (like : Like t u) (qs : List Qudit) : u.sampler qs = t.sampler qs := by
  have axes : u.frame.axes (R := R) qs = t.frame.axes qs := like.labels.axes qs
  have form : u.form = t.form := like.content.symm
  rw [sampler, sampler, axes, form]

instance : UniformRepresentation R (StabilizerState R) where
  full_basisState := fun _ _ _ _ _ _ => trivial
  like_setFrame := fun _ _ _ _ like _ alike _ => ⟨alike, like.content, trivial, trivial⟩
  like_duplicate := fun _ t source log _ => ⟨Frame.alike_rewired t.frame source log, rfl, trivial, trivial⟩
  agree_kronecker := fun _ _ _ _ => agree_kronecker
  agree_factor := fun _ _ _ _ _ _ => agree_error _
  agree_transposed := fun _ _ order like => agree_transposed like order
  same_sampler := fun _ _ qs like => same_sampler like qs
  matches_enact := fun _ => matches_enact
  matches_observe := fun _ => matches_observe
  matches_reset := fun _ => matches_reset

end QuantumRegister.StabilizerState
