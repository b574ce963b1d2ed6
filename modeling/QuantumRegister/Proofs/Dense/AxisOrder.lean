import QuantumRegister.Proofs.Dense.Norm
import QuantumRegister.Proofs.Parallel

/-!
The order of the axes does not show. Two states with one wave function, laid out along their qudits in
different orders, answer every operation alike: the same error, the same outcomes and branches from
the same draws, and again one wave function.
-/

set_option autoImplicit false

namespace QuantumRegister

open QuantumRegister.MixedRadix
open QuantumRegister.Assignment
open QuantumRegister.Dense
open QuantumRegister.Step
open QuantumRegister.SimError (Agree agree_ok agree_error agree_refl agree_map)
open QuantumRegister.Representation (run perform)

/-! Frames of the same qudits find the same faults. -/

namespace Frame

variable {R : Type} {f g : Frame}

theorem Exact.axesAfter_agree (near : f.Exact) (far : g.Exact) (members : ∀ q, q ∈ f.qudits ↔ q ∈ g.qudits) (qs : List Qudit)
    (taken taken' : List ℕ) (same : ∀ q a b, f.qudits[a]? = some q → g.qudits[b]? = some q → (a ∈ taken ↔ b ∈ taken')) :
    Agree (R := R) (fun _ _ => True) (f.axesAfter taken qs) (g.axesAfter taken' qs) := by
  induction qs generalizing taken taken' with
  | nil => exact agree_ok _ _ trivial
  | cons q qs ih =>
      rw [axesAfter, axesAfter, axis, axis]
      cases place : Assoc.find? q f.axisOf with
      | none =>
          cases place' : Assoc.find? q g.axisOf with
          | none => exact agree_error _
          | some b =>
              have listed := List.mem_of_getElem? ((far.inverse q b).mp place')
              exact absurd ((members q).mpr listed) (near.missing place)
      | some a =>
          have here := (near.inverse q a).mp place
          obtain ⟨b, place'⟩ := far.place q ((members q).mp (List.mem_of_getElem? here))
          have there := (far.inverse q b).mp place'
          have used := same q a b here there
          simp only [place', List.contains_iff_mem]
          by_cases again : a ∈ taken
          · rw [if_pos again, if_pos (used.mp again)]
            exact agree_error _
          · rw [if_neg again, if_neg fun known => again (used.mpr known)]
            refine agree_map _ _ (ih (a :: taken) (b :: taken') fun p c d first second => ?_) fun _ _ _ => trivial
            have together : c = a ↔ d = b := by
              constructor
              · rintro rfl
                have label : p = q := Option.some.inj (first.symm.trans here)
                exact far.unique second (label ▸ there)
              · rintro rfl
                have label : p = q := Option.some.inj (second.symm.trans there)
                exact near.unique first (label ▸ here)
            rw [List.mem_cons, List.mem_cons, together, same p c d first second]

end Frame

namespace DenseState

-- Frames of the same qudits, whose axes may come in different orders.
structure Reordered (f F : Frame) : Prop extends Aside f F fun _ => 1 where
  all : F.qudits ⊆ f.qudits

structure Turned (f F : Frame) (ψ Ψ : DenseState ℝ) : Prop where
  near : ψ.frame = f
  far : Ψ.frame = F
  joined : Joined f.qudits F.qudits (fun _ => 1) ψ.amplitudes Ψ.amplitudes

theorem Turned.setBuffers {f F : Frame} {ψ Ψ : DenseState ℝ} (turned : Turned f F ψ Ψ) {b B : Dense.Buffers (Cplx ℝ)}
    (joined : Joined f.qudits F.qudits (fun _ => 1) b.live B.live) : Turned f F (ψ.setBuffers b) (Ψ.setBuffers B) :=
  ⟨turned.near, turned.far, joined⟩

namespace Reordered

variable {f F : Frame} {ψ Ψ : DenseState ℝ} (reordered : Reordered f F)

include reordered

theorem axes (qs : List Qudit) : Agree (R := ℝ) (Layouts f F qs) (f.axes qs) (F.axes qs) := by
  have members (q : Qudit) : q ∈ f.qudits ↔ q ∈ F.qudits :=
    ⟨fun listed => reordered.spectator.inside listed, fun listed => reordered.all listed⟩
  have agree := reordered.near.axesAfter_agree (R := ℝ) reordered.far members qs [] [] fun _ _ _ _ _ => by simp
  exact agree.mono fun axes Axes found found' _ => ⟨reordered.near.picks qs axes found, reordered.far.picks qs Axes found'⟩

theorem layout (turned : Turned f F ψ Ψ) (qs : List Qudit) :
    Agree (fun l L => ∃ axes Axes, Layouts f F qs axes Axes ∧ l = Layout.of f.dims axes ∧ L = Layout.of F.dims Axes)
      (ψ.layout qs) (Ψ.layout qs) := by
  rw [DenseState.layout, DenseState.layout, turned.near, turned.far]
  obtain ⟨axes, Axes, found, found', layouts⟩ | ⟨e, failed, failed'⟩ := reordered.axes qs
  · rw [found, found']
    exact agree_ok _ _ ⟨axes, Axes, layouts, rfl, rfl⟩
  · rw [failed, failed']
    exact agree_error e

/-! Matrices, random unitaries, and Kraus operators. -/

theorem applyMatrix (turned : Turned f F ψ Ψ) (qs : List Qudit) (m : Operator ℝ) :
    Agree (Turned f F) (ψ.applyMatrix qs m) (Ψ.applyMatrix qs m) := by
  rw [DenseState.applyMatrix, DenseState.applyMatrix]
  cases Operator.checkSquare (R := ℝ) qs m with
  | error e => exact agree_error e
  | ok u =>
      obtain ⟨l, L, found, found', axes, Axes, layouts, rfl, rfl⟩ | ⟨e, failed, failed'⟩ := reordered.layout turned qs
      · rw [found, found']
        exact agree_ok _ _ (turned.setBuffers (reordered.prepare layouts m turned.joined))
      · rw [failed, failed']
        exact agree_error e

theorem parallel_applied (turned : Turned f F ψ Ψ) (qs : List Qudit) (m : Operator ℝ) :
    Parallel (Level (Turned f F)) Eq (Step.ofExcept (ψ.applyMatrix qs m) >>= fun φ => setState φ)
      (Step.ofExcept (Ψ.applyMatrix qs m) >>= fun φ => setState φ) :=
  parallel_bind (parallel_ofExcept (reordered.applyMatrix turned qs m)) fun φ Φ after => parallel_setState φ Φ after

theorem parallel_applyMixture (qs : List Qudit) (branches : List (ℝ × Operator ℝ)) (key : Option String) :
    Parallel (Level (Turned f F)) Eq (applyMixture qs branches key) (applyMixture qs branches key) := by
  refine parallel_then (parallel_ofExcept (agree_refl _)) fun _ => parallel_get fun b B level => ?_
  refine parallel_bind (parallel_ofExcept (reordered.layout level.state qs)) fun l L found => ?_
  obtain ⟨axes, Axes, layouts, rfl, rfl⟩ := found
  cases Random.Weighted.of (branches.map Prod.fst) with
  | error fault => exact parallel_throw _
  | ok d =>
      refine parallel_then (parallel_draw d.draw) fun k => parallel_get fun b B level => ?_
      refine parallel_then (parallel_setState _ _ ?_) fun _ => logged_level.parallel_recordBranch key k
      exact level.state.setBuffers (reordered.prepare layouts _ level.state.joined)

theorem parallel_applyChannel (qs : List Qudit) (ops : List (Operator ℝ)) (key : Option String) :
    Parallel (Level (Turned f F)) Eq (applyChannel qs ops key) (applyChannel qs ops key) := by
  refine parallel_guard _ _ fun some => ?_
  have nonempty : ops ≠ [] := fun none => some (by rw [none]; rfl)
  refine parallel_then (parallel_ofExcept (agree_refl _)) fun _ => parallel_get fun b B level => ?_
  refine parallel_bind (parallel_ofExcept (reordered.layout level.state qs)) fun l L found => ?_
  obtain ⟨axes, Axes, layouts, rfl, rfl⟩ := found
  refine parallel_then (parallel_draw Random.drawUnit) fun p => parallel_get fun b B level => ?_
  obtain ⟨sel, c, C, selected, selected', -, live, spare, -⟩ :=
    branchState_alike reordered.toAside layouts ops nonempty b.state.buffers B.state.buffers level.state.joined p
  simp only [selected, selected']
  refine parallel_then (parallel_setState _ _ (level.state.setBuffers live)) fun _ => parallel_guard _ _ fun _ => ?_
  refine parallel_then (parallel_setState _ _ ?_) fun _ => logged_level.parallel_recordBranch key sel.index
  exact level.state.setBuffers (spare.rescale _)

theorem parallel_enact (name : String) (qs : List Qudit) (r : Resolution ℝ) :
    Parallel (Level (Turned f F)) Eq (enact name qs r) (enact name qs r) := by
  cases r with
  | unitary m => exact parallel_get fun b B level => reordered.parallel_applied level.state qs m
  | mixture branches key => exact reordered.parallel_applyMixture qs branches key
  | channel ops key => exact reordered.parallel_applyChannel qs ops key
  | skip => exact parallel_throw _
  | measure m => exact parallel_throw _
  | reset targets => exact parallel_throw _
  | stabilizer gates => exact parallel_throw _
  | parts ops => exact parallel_throw _

/-! Chances, measurements, and resets. -/

theorem marginal (turned : Turned f F ψ Ψ) {qs : List Qudit} {axes Axes : List ℕ} (layouts : Layouts f F qs axes Axes) :
    Ψ.marginal Axes = ψ.marginal axes := by
  rw [DenseState.marginal, DenseState.marginal, turned.near, turned.far]
  exact turned.joined.marginal reordered.spectator layouts.near layouts.far

theorem sampler (turned : Turned f F ψ Ψ) (qs : List Qudit) : Ψ.sampler qs = ψ.sampler qs := by
  rw [DenseState.sampler, DenseState.sampler, turned.near, turned.far]
  obtain ⟨axes, Axes, found, found', layouts⟩ | ⟨e, failed, failed'⟩ := reordered.axes qs
  · rw [found, found']
    simp only [reordered.marginal turned layouts]
  · rw [failed, failed']

theorem parallel_axes (turned : Turned f F ψ Ψ) (qs : List Qudit) :
    Parallel (Level (Turned f F)) (Layouts f F qs) (Step.ofExcept (ψ.frame.axes (R := ℝ) qs))
      (Step.ofExcept (Ψ.frame.axes (R := ℝ) qs)) := by
  rw [turned.near, turned.far]
  exact parallel_ofExcept (reordered.axes qs)

theorem parallel_observe (qs : List Qudit) :
    Parallel (Level (Turned f F)) Eq (observe qs : Step ℝ (DenseState ℝ) (List ℕ)) (observe qs) := by
  refine parallel_get fun b B level => parallel_bind (reordered.parallel_axes level.state qs) fun axes Axes layouts => ?_
  have turned := level.state
  have same := reordered.marginal turned layouts
  dsimp only
  rw [same]
  refine parallel_then (parallel_draw _) fun k => parallel_then (parallel_setState _ _ ?_) fun _ => parallel_pure _ _ rfl
  have length : (digits (Qudit.dims qs) k).length = qs.length := by rw [digits_length, Qudit.dims_length]
  rw [collapsed, collapsed, turned.near, turned.far]
  exact turned.setBuffers (turned.joined.project reordered.spectator layouts.near layouts.far _ length _)

theorem parallel_resetOne (q : Qudit) :
    Parallel (Level (Turned f F)) Eq (resetOne q : Step ℝ (DenseState ℝ) Unit) (resetOne q) := by
  refine parallel_then (reordered.parallel_observe [q]) fun values => ?_
  dsimp only
  split
  · exact parallel_get fun b B level => reordered.parallel_applied level.state [q] _
  · exact parallel_pure () () rfl

theorem parallel_reset (qs : List Qudit) :
    Parallel (Level (Turned f F)) Eq (reset qs : Step ℝ (DenseState ℝ) Unit) (reset qs) := by
  refine parallel_get fun b B level => parallel_bind (reordered.parallel_axes level.state qs) fun _ _ _ => ?_
  exact parallel_forM qs reordered.parallel_resetOne

theorem unseen : Representation.Unseen (R := ℝ) (Level (Turned f F)) where
  toLogged := logged_level
  draw d _ := parallel_draw d
  axes b B qs level := by
    change Agree _ (b.state.frame.axes qs) (B.state.frame.axes qs)
    rw [level.state.near, level.state.far]
    exact (reordered.axes qs).mono fun _ _ _ _ _ => trivial
  sampler b B qs level := reordered.sampler level.state qs
  enact := reordered.parallel_enact
  observe := reordered.parallel_observe
  reset := reordered.parallel_reset

theorem transposed (turned : Turned f F ψ Ψ) (framed : f.withQudits (R := ℝ) F.qudits = .ok F) :
    ∃ χ, ψ.transposed F.qudits = .ok χ ∧ χ.frame = Ψ.frame ∧ χ.amplitudes = Ψ.amplitudes := by
  have exact : ψ.frame.Exact := turned.near ▸ reordered.near
  have perm : F.qudits.Perm ψ.frame.qudits := by
    rw [turned.near]
    exact (List.perm_ext_iff_of_nodup reordered.spectator.far reordered.spectator.near).mpr fun q =>
      ⟨fun listed => reordered.all listed, fun listed => reordered.spectator.inside listed⟩
  obtain ⟨χ, done, made, -, full, same⟩ := transposed_sound ψ F.qudits exact perm
  rw [turned.near, framed] at made
  refine ⟨χ, done, (Except.ok.inj made).symm.trans turned.far.symm, ?_⟩
  refine wave_injective F.qudits _ _ reordered.spectator.far reordered.spectator.positive full turned.joined.far fun σ within => ?_
  rw [same σ within, turned.joined.product σ within, mul_one, wave, turned.near]

end Reordered

theorem Proper.reordered {ψ : DenseState ℝ} (proper : Proper ψ) (order : List Qudit) (perm : order.Perm ψ.frame.qudits) :
    ∃ φ, ψ.transposed order = .ok φ ∧ ψ.frame.withQudits (R := ℝ) order = .ok φ.frame ∧ φ.frame.qudits = order
      ∧ Reordered ψ.frame φ.frame ∧ Turned ψ.frame φ.frame ψ φ := by
  obtain ⟨φ, done, framed, listed, full, same⟩ := transposed_sound ψ order proper.exact perm
  obtain ⟨exact, -⟩ := Frame.exact_of _ _ _ _ framed
  have perm : φ.frame.qudits.Perm ψ.frame.qudits := listed.symm ▸ perm
  have small : size φ.frame.dims < wordSize := (size_perm _ _ (perm.map Qudit.dim)).trans_lt proper.small
  have positive : ∀ q ∈ φ.frame.qudits, 0 < q.dim := fun q member => proper.positive q (perm.mem_iff.mp member)
  refine ⟨φ, done, framed, listed, ⟨aside_all proper.exact exact perm positive small, perm.subset⟩, rfl, rfl, proper.full, ?_, ?_⟩
  · rw [listed]
    exact full
  · intro σ within
    rw [listed] at within ⊢
    rw [same σ within, mul_one, wave]

theorem axis_order_unobservable (ψ : DenseState ℝ) (proper : Proper ψ) (order : List Qudit) (perm : order.Perm ψ.frame.qudits)
    (op : Operation ℝ) (c : Cells) :
    ∃ turned, ψ.transposed order = .ok turned ∧ ∃ r φ Φ d χ, run (perform op) ψ c = (r, φ, d)
      ∧ run (perform op) turned c = (r, Φ, d) ∧ φ.transposed order = .ok χ ∧ χ.frame = Φ.frame ∧ χ.amplitudes = Φ.amplitudes := by
  obtain ⟨turned, done, framed, listed, reordered, pair⟩ := proper.reordered order perm
  obtain ⟨-, -, source, log⟩ := Frame.exact_of _ _ _ _ framed
  have level : Level (Turned ψ.frame turned.frame) (Representation.bench ψ c) (Representation.bench turned c) :=
    ⟨congrArg c.source source.symm, congrArg c.log log.symm, pair⟩
  obtain ⟨agree, after⟩ := Representation.parallel_performAs reordered.unseen op.name op.qudits op _ _ level
  cases stepped : Representation.performAs op.name op.qudits op (Representation.bench ψ c) with
  | mk r b =>
      cases stepped' : Representation.performAs op.name op.qudits op (Representation.bench turned c) with
      | mk r' b' =>
          rw [stepped, stepped'] at agree after
          have same : r = r' := agree.eq
          have cells : (c.setSource turned.frame.source b'.source).setLog turned.frame.log b'.log
              = (c.setSource ψ.frame.source b.source).setLog ψ.frame.log b.log := by rw [source, log, after.source, after.log]
          obtain ⟨χ, back, frames, amplitudes⟩ := reordered.transposed after.state (listed.symm ▸ framed)
          rw [listed] at back
          refine ⟨turned, done, r, b.state, b'.state, _, χ, Representation.run_of _ ψ c r b stepped, ?_, back, frames, amplitudes⟩
          exact (Representation.run_of _ turned c r' b' stepped').trans (Prod.ext same.symm (Prod.ext rfl cells))

theorem axis_order_unobservable_pair : ∃ (m : Measurement ℝ) (c : Cells) (ψ turned φ Φ χ : DenseState ℝ) (r : Except (SimError ℝ) Unit)
    (d : Cells), m.qudits = [Qudit.qubit 0] ∧ basisState [Qudit.qubit 0, Qudit.qubit 1] 1 ⟨0⟩ ⟨0⟩ = .ok ψ
      ∧ ψ.transposed [Qudit.qubit 1, Qudit.qubit 0] = .ok turned ∧ run (perform m.operation) ψ c = (r, φ, d)
      ∧ run (perform m.operation) turned c = (r, Φ, d) ∧ φ.transposed [Qudit.qubit 1, Qudit.qubit 0] = .ok χ
      ∧ χ.amplitudes = Φ.amplitudes := by
  obtain ⟨ψ, made, sound, named, -⟩ :=
    basisState_sound [Qudit.qubit 0, Qudit.qubit 1] 1 ⟨0⟩ ⟨0⟩ (by decide) (by decide) (by decide) (by decide)
  have small : size ψ.frame.dims < wordSize := by rw [Frame.dims, named]; decide
  let m : Measurement ℝ := { qudits := [Qudit.qubit 0], key := "m" }
  let c : Cells := { sources := #[.ofSeed 1], logs := #[{}] }
  obtain ⟨turned, done, r, φ, Φ, d, χ, first, second, back, -, same⟩ :=
    axis_order_unobservable ψ ⟨sound, small⟩ [Qudit.qubit 1, Qudit.qubit 0] (by rw [named]; decide) m.operation c
  exact ⟨m, c, ψ, turned, φ, Φ, χ, r, d, rfl, made, done, first, second, back, same⟩

end DenseState

end QuantumRegister
