import QuantumRegister.Dense.State
import QuantumRegister.Proofs.Dense.Wave
import QuantumRegister.Proofs.Lawful
import QuantumRegister.Proofs.Likeness
import QuantumRegister.Proofs.Selection

/-!
Dense states with the same amplitudes behave the same. The scratch array is written all over before it
is read, so what it held does not show, as long as the arrays have the size of the joint basis.
-/

set_option autoImplicit false

namespace QuantumRegister

open QuantumRegister.MixedRadix
open QuantumRegister.SimError (Agree agree_ok agree_error agree_refl agree_bind)

namespace Dense

/-! Writing over an array. -/

namespace Layout

variable {K : Type} [Zero K] [Add K] [Mul K]

theorem place_digits (dims : List ℕ) (i : ℕ) (inside : i < size dims) :
    Below dims (fun k => (digits dims i).getD k 0) ∧ place dims (fun k => (digits dims i).getD k 0) = i := by
  have length := digits_length dims i
  refine ⟨fun k _ => ?_, ?_⟩
  · exact (digits_getD dims i k).trans_lt (digitAt_lt dims (positive_of_size dims (Nat.zero_lt_of_lt inside)) k i)
  · have listed : (List.range dims.length).map (fun k => (digits dims i).getD k 0) = digits dims i := by
      refine List.ext_getElem (by simp [length]) fun k left right => ?_
      simp [right]
    rw [place, listed, value_digits dims i inside]

theorem contract_fresh (dims axes : List ℕ) (m : Grid K) (src dst dst' : Array K) (once : axes.Nodup)
    (inside : ∀ k ∈ axes, k < dims.length) (full : dst.size = size dims) (full' : dst'.size = size dims) :
    (Layout.of dims axes).contract m src dst' = (Layout.of dims axes).contract m src dst := by
  refine Array.ext (by rw [contract_size, contract_size, full, full']) fun i left right => ?_
  have bound : i < size dims := by rwa [contract_size, full'] at left
  obtain ⟨below, here⟩ := place_digits dims i bound
  have positive := positive_of_size dims (Nat.zero_lt_of_lt bound)
  have first := contract_at dims axes m src dst _ 0 once positive inside below full
  have second := contract_at dims axes m src dst' _ 0 once positive inside below full'
  rw [here] at first second
  simpa [left, right] using second.trans first.symm

end Layout

namespace Buffers

variable {K : Type} [Zero K] [Add K] [Mul K]

-- The layout of distinct axes of an array with these dimensions.
structure Covers (dims : List ℕ) (l : Layout) : Prop where
  axes : ∃ axes : List ℕ, l = Layout.of dims axes ∧ axes.Nodup ∧ ∀ k ∈ axes, k < dims.length

theorem prepare_fresh {dims : List ℕ} {l : Layout} (covers : Covers dims l) (m : Grid K) (b b' : Buffers K) (same : b'.live = b.live)
    (full : b.live.size = size dims) :
    (b'.prepare l m).spare = (b.prepare l m).spare ∧ (b.prepare l m).spare.size = size dims := by
  obtain ⟨axes, rfl, once, inside⟩ := covers.axes
  have first : b.scratch.size = size dims := b.scratch_size.trans full
  have second : b'.scratch.size = size dims := by rw [scratch_size, same, full]
  refine ⟨?_, (Layout.contract_size _ m b.live b.scratch).trans first⟩
  have fresh := Layout.contract_fresh dims axes m b.live b.scratch b'.scratch once inside first second
  rw [prepare, prepare, same]
  exact fresh

end Buffers

end Dense

namespace DenseState

open QuantumRegister.Dense (Amplitudes Buffers Layout)
open QuantumRegister.Dense.Buffers (Covers prepare_fresh)
open QuantumRegister.Step

variable {R : Type} [Scalar R] {f : Frame}

instance : Readable (DenseState R) where
  Content := Amplitudes R
  content ψ := ψ.amplitudes
  Full ψ := ψ.frame.Exact ∧ ψ.amplitudes.size = size ψ.frame.dims

variable {t u : DenseState R}

/-! Operations on pairs of states. -/

theorem like_setBuffers (like : Like t u) (b b' : Buffers (Cplx R)) (same : b'.live = b.live)
    (full : b.live.size = size t.frame.dims) : Like (t.setBuffers b) (u.setBuffers b') := by
  refine ⟨like.labels, same.symm, ⟨like.first.1, full⟩, like.second.1, ?_⟩
  have dims : u.frame.dims = t.frame.dims := like.labels.dims
  exact (congrArg Array.size same).trans (full.trans (congrArg size dims.symm))

theorem same_layout (like : Like t u) (qs : List Qudit) : u.layout qs = t.layout qs := by
  have axes : u.frame.axes (R := R) qs = t.frame.axes qs := like.labels.axes qs
  have dims : u.frame.dims = t.frame.dims := like.labels.dims
  rw [layout, layout, axes, dims]

omit [Scalar R] in
theorem covers_layout (exact : t.frame.Exact) (qs : List Qudit) (l : Layout) (found : t.layout qs = .ok l) :
    Covers t.frame.dims l := by
  rw [layout] at found
  split at found
  · cases found
  · rename_i axes placed
    cases found
    obtain ⟨-, once⟩ := (exact.axes_iff qs axes).mp placed
    refine ⟨axes, rfl, once, fun k member => ?_⟩
    obtain ⟨q, -, here⟩ := (exact.axes_mem qs axes placed k).mp member
    exact (List.getElem?_eq_some_iff.mp here).1.trans_eq (List.length_map _).symm

theorem like_prepared (like : Like t u) {l : Layout} (covers : Covers t.frame.dims l) (m : Operator R) :
    Like (t.setBuffers (t.buffers.prepare l m).swap) (u.setBuffers (u.buffers.prepare l m).swap) := by
  obtain ⟨same, full⟩ := prepare_fresh covers m t.buffers u.buffers like.content.symm like.first.2
  exact like_setBuffers like _ _ same full

theorem agree_applyMatrix (like : Like t u) (qs : List Qudit) (m : Operator R) :
    Agree (fun φ φ' => Like φ φ' ∧ φ.frame = t.frame) (t.applyMatrix qs m) (u.applyMatrix qs m) := by
  rw [applyMatrix, applyMatrix, same_layout like]
  split
  · exact agree_error _
  · split
    · exact agree_error _
    · rename_i l found
      exact agree_ok _ _ ⟨like_prepared like (covers_layout like.first.1 qs l found) m, rfl⟩

theorem matches_applied (like : Like t u) (same : t.frame = f) (qs : List Qudit) (m : Operator R) :
    Matches f Eq (Step.ofExcept (t.applyMatrix qs m) >>= fun φ => setState φ : Step R (DenseState R) Unit)
      (Step.ofExcept (u.applyMatrix qs m) >>= fun φ => setState φ) :=
  matches_bind (matches_ofExcept (agree_applyMatrix like qs m)) fun φ φ' held =>
    matches_setState φ φ' held.1 (held.2.trans same)

theorem agree_layout {σ : Random.Source} {b b' : Bench (DenseState R)} (like : Bench.Alike f σ b b') (qs : List Qudit) :
    Agree (fun l l' => l' = l ∧ Covers f.dims l) (b.state.layout qs) (b'.state.layout qs) := by
  refine (SimError.agree_of_eq (same_layout like.state qs).symm).mono fun l l' found _ same => ⟨same.symm, ?_⟩
  exact like.frame ▸ covers_layout like.state.first.1 qs l found

theorem matches_applyMixture (qs : List Qudit) (branches : List (R × Operator R)) (key : Option String) :
    Matches f Eq (applyMixture qs branches key) (applyMixture qs branches key) := by
  refine matches_then (matches_ofExcept (agree_refl _)) fun _ => matches_get fun σ b b' like => ?_
  refine matches_bind (matches_ofExcept (agree_layout like qs)) fun l l' ⟨same, covers⟩ => ?_
  subst same
  split
  · exact matches_throw _
  · refine matches_then (matches_draw _ (Random.reads_weighted _)) fun k => matches_get fun σ b b' like => ?_
    have framed : b.state.frame = f := like.frame
    rw [← framed] at covers
    exact matches_then (matches_setState _ _ (like_prepared like.state covers _) like.frame) fun _ => matches_recordBranch key k

theorem branchState_like {dims : List ℕ} {l : Layout} (covers : Covers dims l) (ops : List (Operator R)) (some : 0 < ops.length)
    (b b' : Buffers (Cplx R)) (same : b'.live = b.live) (full : b.live.size = size dims) (p : R) :
    ∃ sel c c', branchState l ops b p = (sel, c) ∧ branchState l ops b' p = (sel, c') ∧ c.live = b.live ∧ c'.live = b.live
      ∧ c'.spare = c.spare ∧ c.spare.size = size dims := by
  let clean : Buffers (Cplx R) := { live := b.live }
  let left (k : ℕ) : Amplitudes R := (clean.prepare l (ops.getD k (Operator.identity 0))).spare
  have prepared (k : ℕ) (c : Buffers (Cplx R)) (kept : c.live = b.live) :
      (c.prepare l (ops.getD k (Operator.identity 0))).spare = left k ∧ (left k).size = size dims :=
    prepare_fresh covers _ clean c kept full
  have alike : Selection.Alike (branchWeight l ops) (branchWeight l ops) (fun k => Amplitudes.normSq (left k))
      (fun c c' => c.live = b.live ∧ c'.live = b.live) fun k c c' => c.spare = left k ∧ c'.spare = left k :=
    { near := fun c c' k kept => congrArg Amplitudes.normSq (prepared k c kept.1).1
      far := fun c c' k kept => congrArg Amplitudes.normSq (prepared k c' kept.2).1
      keeps := fun c c' k kept => kept
      asks := fun c c' k kept => ⟨(prepared k c kept.1).1, (prepared k c' kept.2).1⟩ }
  obtain ⟨sel, c, c', near, far, ⟨kept, kept'⟩, ⟨last, last'⟩, -⟩ := alike.ofDraw p ops.length some b b' ⟨rfl, same⟩
  by_cases again : sel.needsReevaluation = true
  · obtain ⟨spare, full⟩ := prepared sel.index c kept
    obtain ⟨spare', -⟩ := prepared sel.index c' kept'
    refine ⟨sel, (branchWeight l ops c sel.index).2, (branchWeight l ops c' sel.index).2, ?_, ?_, kept, kept',
      spare'.trans spare.symm, (congrArg Array.size spare).trans full⟩
    · rw [branchState, near]
      exact congrArg (Prod.mk sel) (if_pos again)
    · rw [branchState, far]
      exact congrArg (Prod.mk sel) (if_pos again)
  · refine ⟨sel, c, c', ?_, ?_, kept, kept', last'.trans last.symm,
      (congrArg Array.size last).trans (prepared sel.lastEvaluated c kept).2⟩
    · rw [branchState, near]
      exact congrArg (Prod.mk sel) (if_neg again)
    · rw [branchState, far]
      exact congrArg (Prod.mk sel) (if_neg again)

theorem matches_applyChannel (qs : List Qudit) (ops : List (Operator R)) (key : Option String) :
    Matches f Eq (applyChannel qs ops key) (applyChannel qs ops key) := by
  rw [applyChannel]
  by_cases none : ops.isEmpty = true
  · simp only [none, if_true]
    exact matches_throw _
  · have some : 0 < ops.length := List.length_pos_iff.mpr fun empty => none (by simp [empty])
    simp only [none, Bool.false_eq_true, if_false]
    refine matches_then (matches_ofExcept (agree_refl _)) fun _ => matches_get fun σ b b' like => ?_
    refine matches_bind (matches_ofExcept (agree_layout like qs)) fun l l' ⟨same, covers⟩ => ?_
    subst same
    refine matches_then (matches_draw _ Random.reads_drawUnit) fun p => matches_get fun σ b b' like => ?_
    have framed : b.state.frame = f := like.frame
    rw [← framed] at covers
    obtain ⟨sel, c, c', chosen, chosen', kept, kept', same, full⟩ := branchState_like covers ops some b.state.buffers
      b'.state.buffers like.state.content.symm like.state.first.2 p
    rw [chosen, chosen']
    dsimp only
    have before : Like (b.state.setBuffers c) (b'.state.setBuffers c') :=
      like_setBuffers like.state c c' (kept'.trans kept.symm) ((congrArg Array.size kept).trans like.state.first.2)
    have after : Like (b.state.setBuffers (normalized c sel.weight)) (b'.state.setBuffers (normalized c' sel.weight)) := by
      refine like_setBuffers like.state _ _ (congrArg (Array.map _) same) ?_
      exact Array.size_map.trans full
    refine matches_then (matches_setState _ _ before like.frame) fun _ => ?_
    have rest := matches_then (matches_setState (f := f) _ _ after like.frame) fun _ => matches_recordBranch key sel.index
    split
    · exact matches_then (matches_throw (P := Eq) _) fun _ : PUnit => rest
    · exact rest

theorem matches_enact (name : String) (qs : List Qudit) (r : Resolution R) :
    Matches f Eq (enact name qs r : Step R (DenseState R) Unit) (enact name qs r) := by
  cases r with
  | unitary m => exact matches_get fun σ b b' like => matches_applied like.state like.frame qs m
  | mixture branches key => exact matches_applyMixture qs branches key
  | channel ops key => exact matches_applyChannel qs ops key
  | skip => exact matches_throw _
  | measure m => exact matches_throw _
  | reset targets => exact matches_throw _
  | stabilizer gates => exact matches_throw _
  | parts ops => exact matches_throw _

theorem like_collapsed (like : Like t u) (axes dims : List ℕ) (k : ℕ) (chance : R) :
    Like (t.collapsed axes dims k chance) (u.collapsed axes dims k chance) := by
  have same : u.frame.dims = t.frame.dims := like.labels.dims
  have amplitudes : u.amplitudes = t.amplitudes := like.content.symm
  refine like_setBuffers like _ _ ?_ (Array.size_ofFn.trans like.first.2)
  simp only [same, amplitudes]

theorem same_marginal (like : Like t u) (axes : List ℕ) : u.marginal axes = t.marginal axes := by
  have same : u.frame.dims = t.frame.dims := like.labels.dims
  have amplitudes : u.amplitudes = t.amplitudes := like.content.symm
  rw [marginal, marginal, same, amplitudes]

theorem matches_observe (qs : List Qudit) : Matches f Eq (observe qs : Step R (DenseState R) (List ℕ)) (observe qs) := by
  refine matches_get fun σ b b' like => ?_
  have axes : b'.state.frame.axes (R := R) qs = b.state.frame.axes qs := like.state.labels.axes qs
  refine matches_then (matches_ofExcept (SimError.agree_of_eq axes.symm)) fun axes => ?_
  simp only [same_marginal like.state]
  refine matches_then (matches_draw _ (Dense.reads_drawPick _)) fun k => ?_
  exact matches_then (matches_setState _ _ (like_collapsed like.state axes _ k _) like.frame) fun _ => matches_pure _ _ rfl

theorem matches_resetOne (q : Qudit) : Matches f Eq (resetOne q : Step R (DenseState R) Unit) (resetOne q) := by
  refine matches_then (matches_observe [q]) fun values => ?_
  dsimp only
  split
  · exact matches_get fun σ b b' like => matches_applied like.state like.frame _ _
  · exact matches_pure () () rfl

theorem matches_reset (qs : List Qudit) : Matches f Eq (reset qs : Step R (DenseState R) Unit) (reset qs) := by
  have each : ∀ qs : List Qudit, Matches f Eq (qs.forM resetOne : Step R (DenseState R) Unit) (qs.forM resetOne) := by
    intro qs
    induction qs with
    | nil => exact matches_pure () () rfl
    | cons q qs ih => exact matches_then (matches_resetOne q) fun _ => ih
  refine matches_get fun σ b b' like => ?_
  have axes : b'.state.frame.axes (R := R) qs = b.state.frame.axes qs := like.state.labels.axes qs
  exact matches_then (matches_ofExcept (SimError.agree_of_eq axes.symm)) fun _ => each qs

/-! Operations without steps. -/

theorem full_basisState (qs : List Qudit) (index : ℕ) (source : SourceRef) (log : LogRef)
    (made : basisState qs index source log = .ok t) : Readable.Full t := by
  rw [basisState] at made
  split at made
  · cases made
  · rename_i f framed
    split at made
    · cases made
    · rename_i n sized
      split at made
      · cases made
      · cases made
        refine ⟨(Frame.exact_of _ _ _ _ framed).1, Array.size_ofFn.trans ?_⟩
        rw [(checkedSize_some 1 f.dims n (by decide) sized).1, Nat.one_mul]
        rfl

theorem like_ofLive {f g : Frame} (alike : f.Alike g) (exact : f.Exact) (a : Amplitudes R) (full : a.size = size f.dims) :
    Like (ofLive f a) (ofLive g a) :=
  ⟨alike, rfl, ⟨exact, full⟩, alike.exact exact, full.trans (congrArg size alike.dims.symm)⟩

theorem agree_kronecker {t' u' : DenseState R} (first : Like t t') (second : Like u u') :
    Agree Like (t.kronecker u) (t'.kronecker u') := by
  have left : t'.amplitudes = t.amplitudes := first.content.symm
  have right : u'.amplitudes = u.amplitudes := second.content.symm
  rw [kronecker, kronecker, left, right]
  have frames : Agree Frame.Alike (t.frame.concat (R := R) u.frame) (t'.frame.concat u'.frame) :=
    first.labels.concat second.labels
  obtain ⟨f, g, joined, joined', alike⟩ | ⟨e, failed, failed'⟩ := frames
  · rw [joined, joined']
    obtain ⟨exact, listed, -, -⟩ := Frame.exact_of _ _ _ _ joined
    refine agree_ok _ _ (like_ofLive alike exact _ ?_)
    have dims : f.dims = t.frame.dims ++ u.frame.dims := (congrArg Qudit.dims listed).trans (Qudit.dims_append _ _)
    rw [Dense.kronecker_size, first.first.2, second.first.2, dims, size_append]
  · rw [failed, failed']
    exact agree_error e

theorem agree_factor (like : Like t u) (qs : List Qudit) (validate : Bool) (tolerance : R) :
    Agree (fun p p' => Like p.1 p'.1 ∧ Like p.2 p'.2) (t.factor qs validate tolerance) (u.factor qs validate tolerance) := by
  have axes : u.frame.axes (R := R) qs = t.frame.axes qs := like.labels.axes qs
  have listed : u.frame.qudits = t.frame.qudits := like.labels.qudits
  have dims : u.frame.dims = t.frame.dims := like.labels.dims
  have amplitudes : u.amplitudes = t.amplitudes := like.content.symm
  rw [factor, factor, axes, listed, dims, amplitudes]
  refine agree_bind (agree_refl _) fun axes _ _ _ same => ?_
  subst same
  refine agree_bind (Frame.Alike.withQudits _ _ qs) fun f f' first _ near => ?_
  refine agree_bind (Frame.Alike.withQudits _ _ _) fun g g' second _ far => ?_
  rw [near.dims, far.dims]
  dsimp only
  split
  · exact agree_error _
  · split
    · exact agree_error _
    · have exact := (Frame.exact_of _ _ _ _ first).1
      have exact' := (Frame.exact_of _ _ _ _ second).1
      refine agree_ok _ _ ⟨like_ofLive near exact _ ?_, like_ofLive far exact' _ ?_⟩
      · simp [Dense.splitAt]
      · simp [Dense.splitAt]

theorem agree_transposed (like : Like t u) (order : List Qudit) :
    Agree (fun v v' => Readable.content v = Readable.content v') (t.transposed order) (u.transposed order) := by
  have axes : u.frame.permutation (R := R) order = t.frame.permutation order := like.labels.permutation order
  have dims : u.frame.dims = t.frame.dims := like.labels.dims
  have amplitudes : u.amplitudes = t.amplitudes := like.content.symm
  rw [transposed, transposed, axes, dims, amplitudes]
  refine agree_bind (agree_refl _) fun axes _ _ _ same => ?_
  subst same
  exact agree_bind (Frame.Alike.withQudits _ _ order) fun f f' _ _ _ => agree_ok _ _ rfl

theorem same_sampler (like : Like t u) (qs : List Qudit) : u.sampler qs = t.sampler qs := by
  have axes : u.frame.axes (R := R) qs = t.frame.axes qs := like.labels.axes qs
  rw [sampler, sampler, axes]
  simp only [same_marginal like]

theorem like_setFrame (like : Like t u) {f g : Frame} (exact : f.Exact) (alike : f.Alike g) (dims : f.dims = t.frame.dims) :
    Like ({ t with frame := f } : DenseState R) { u with frame := g } := by
  have full : t.amplitudes.size = size f.dims := like.first.2.trans (congrArg size dims.symm)
  have amplitudes : u.amplitudes = t.amplitudes := like.content.symm
  exact ⟨alike, like.content, ⟨exact, full⟩, alike.exact exact,
    (congrArg Array.size amplitudes).trans (full.trans (congrArg size alike.dims.symm))⟩

theorem like_duplicate (deep : Bool) (full : Readable.Full t) (source : SourceRef) (log : LogRef) :
    Like t ({ t.duplicate deep with frame := t.frame.rewired source log } : DenseState R) := by
  have exact : (t.frame.rewired source log).Exact := (Frame.alike_rewired t.frame source log).exact full.1
  cases deep with
  | true => exact ⟨Frame.alike_rewired _ source log, rfl, full, exact, full.2⟩
  | false => exact ⟨Frame.alike_rewired _ source log, rfl, full, exact, full.2⟩

instance : UniformRepresentation R (DenseState R) where
  full_basisState := fun qs index source log _ => full_basisState qs index source log
  like_setFrame := fun _ _ _ _ like exact alike dims => like_setFrame like exact alike dims
  like_duplicate := fun deep _ source log full => like_duplicate deep full source log
  agree_kronecker := fun _ _ _ _ => agree_kronecker
  agree_factor := fun _ _ qs validate tolerance like => agree_factor like qs validate tolerance
  agree_transposed := fun _ _ order like => agree_transposed like order
  same_sampler := fun _ _ qs like => same_sampler like qs
  matches_enact := fun _ => matches_enact
  matches_observe := fun _ => matches_observe
  matches_reset := fun _ => matches_reset

end DenseState

end QuantumRegister
