import QuantumRegister.Proofs.Register.Exchanged
import QuantumRegister.Proofs.Register.Merged
import QuantumRegister.Proofs.Register.Reached
import QuantumRegister.Proofs.Stabilizer.Script

/-!
A single form of all qubits that goes through the events of a register of stabilizer states. The
product of the amplitudes of the states stays the amplitudes of the form, whatever the partition.
-/

set_option autoImplicit false

namespace QuantumRegister

open QuantumRegister.Representation (frame perform bench run_of)

/-! The amplitudes of one state. -/

namespace StabilizerState

noncomputable def signal (t : StabilizerState ℝ) : (Qudit → ZMod 2) → ℂ := t.form.across t.frame.qudits

structure Sound (t : StabilizerState ℝ) : Prop where
  exact : t.frame.Exact
  valid : Form.Tableau t.frame.qudits.length t.form

theorem basisState_found (qs : List Qudit) (index : ℕ) (source : SourceRef) (log : LogRef) (once : qs.Nodup)
    (two : ∀ q ∈ qs, q.dim = 2) (inside : qs.length < 64 → index < 2 ^ qs.length) :
    Representation.basisState qs index source log
      = .ok (⟨⟨qs, Frame.placesFrom 0 qs [], source, log⟩, Form.basis qs.length index⟩ : StabilizerState ℝ) := by
  have bounded : ¬(qs.length < 64 ∧ index >>> qs.length ≠ 0) := by
    rintro ⟨short, high⟩
    exact high (by rw [Nat.shiftRight_eq_div_pow, Nat.div_eq_of_lt (inside short)])
  have begun : Representation.basisState qs index source log = (basisState qs index source log : Except (SimError ℝ) _) := rfl
  simp only [begun, basisState, qubits_checked qs two, Frame.of_distinct (R := ℝ) qs source log once, bind, Except.bind]
  rw [if_neg bounded]

theorem kronecker_signal (t u : StabilizerState ℝ) (first : t.Sound) (second : u.Sound)
    (once : (t.frame.qudits ++ u.frame.qudits).Nodup) :
    ∃ v, t.kronecker u = .ok v ∧ v.Sound ∧ v.frame.qudits = t.frame.qudits ++ u.frame.qudits ∧ v.signal = t.signal * u.signal := by
  have joint := Frame.of_distinct (R := ℝ) _ t.frame.source t.frame.log once
  refine ⟨⟨_, t.form.kron u.form⟩, ?_, ⟨(Frame.exact_of _ _ _ _ joint).1, ?_⟩, rfl, ?_⟩
  · rw [kronecker, Frame.concat, Frame.withQudits, joint]
  · have held := first.valid.kron second.valid
    rwa [← List.length_append] at held
  · funext β
    exact Form.across_append _ _ first.valid second.valid β

theorem transposed_signal (t : StabilizerState ℝ) (order : List Qudit) (sound : t.Sound) (perm : order.Perm t.frame.qudits) :
    ∃ u, t.transposed order = .ok u ∧ u.Sound ∧ u.frame.qudits = order ∧ u.signal = t.signal := by
  have once : order.Nodup := perm.nodup_iff.mpr sound.exact.distinct
  obtain ⟨axes, found⟩ := sound.exact.axes_found (R := ℝ) order once perm.subset
  obtain ⟨listed, -⟩ := sound.exact.axes_idxOf order axes found
  have framed := Frame.of_distinct (R := ℝ) order t.frame.source t.frame.log once
  have permuted : t.frame.permutation (R := ℝ) order = .ok axes := by
    rw [Frame.permutation, if_neg (not_not.mpr perm.length_eq), found]
  have all : axes.Perm (List.range t.frame.qudits.length) := by
    have places : t.frame.qudits.map t.frame.qudits.idxOf = List.range t.frame.qudits.length := by
      refine List.ext_getElem (by simp) fun i left right => ?_
      rw [List.getElem_map, List.getElem_range, sound.exact.distinct.idxOf_getElem]
    rw [listed, ← places]
    exact perm.map _
  have reordered : axes.map (t.frame.qudits.getD · default) = order := by
    rw [listed, List.map_map]
    refine (List.map_congr_left fun q member => ?_).trans (List.map_id order)
    have bound := List.idxOf_lt_length_of_mem (perm.subset member)
    rw [Function.comp_apply, List.getD_eq_getElem _ _ bound, List.getElem_idxOf, id]
  refine ⟨⟨_, t.form.reindex axes⟩, ?_, ⟨(Frame.exact_of _ _ _ _ framed).1, ?_⟩, rfl, ?_⟩
  · rw [transposed, permuted]
    simp only [bind, Except.bind, Frame.withQudits, framed]
    rfl
  · have held := sound.valid.reindex axes all
    rwa [← perm.length_eq] at held
  · funext β
    exact Form.across_reindex _ _ sound.valid axes all reordered β

theorem merges_signal : Representation.Merges Sound (fun _ _ => True) signal where
  narrow _ _ := trivial
  joined t u first second once := by
    obtain ⟨v, joined, sound, listed, product⟩ := kronecker_signal t u first second once
    exact ⟨v, joined, sound, listed, fun β _ => congrFun product β⟩
  turned t order sound perm := by
    obtain ⟨u, turned, settled, listed, same⟩ := transposed_signal t order sound perm
    exact ⟨u, turned, settled, listed, fun β _ => congrFun same β⟩

end StabilizerState

namespace Register

open StabilizerState (signal)

variable {s : Settings ℝ} {r : Register ℝ (StabilizerState ℝ)} {Φ : Form ℝ}

theorem Exchanged.forms {r' : Register ℝ (StabilizerState ℝ)} {a b : Qudit} (exchanged : Exchanged a b r r') (j : ℕ)
    (u : StabilizerState ℝ) (here : r'.slots.get? j = some u) :
    ∃ t, r.slots.get? j = some t ∧ u.form = t.form ∧ u.frame.qudits = t.frame.qudits.map (Equiv.swap a b) := by
  obtain ⟨t, there, labels, listed⟩ := exchanged.before j u here
  refine ⟨t, there, ?_, listed⟩
  rcases labels with rfl | ⟨f, rfl⟩
  · rfl
  · rfl

theorem Exchanged.whole {r' : Register ℝ (StabilizerState ℝ)} {a b : Qudit} (exchanged : Exchanged a b r r') (β : Qudit → ZMod 2) :
    r'.slots.whole signal β = r.slots.whole signal (β ∘ Equiv.swap a b) := by
  rw [Slots.whole_at, Slots.whole_at]
  refine exchanged.product _ _ fun j t u before here => ?_
  obtain ⟨t', there, form, listed⟩ := exchanged.forms j u here
  rw [before] at there
  cases there
  rw [signal, form, listed]
  exact Form.across_map _ _ _ β

structure Mirrors (s : Settings ℝ) (r : Register ℝ (StabilizerState ℝ)) (Φ : Form ℝ) : Prop where
  arena : Arena s r
  valid : ∀ h t, r.slots.get? h = some t → Form.Tableau t.frame.qudits.length t.form
  whole : Form.Tableau r.qudits.length Φ
  signal : r.slots.whole signal = Φ.across r.qudits

def exchangeScript (a b : Qudit) : List Event := [.gate (.cx a b), .gate (.cx b a), .gate (.cx a b)]

theorem exchangeScript_names {L : List Qudit} {a b : Qudit} (names : Names L [a, b]) : ∀ e ∈ exchangeScript a b, Names L e.labels := by
  simp only [exchangeScript, List.forall_mem_cons]
  exact ⟨names, names.turned, names, fun _ member => (List.not_mem_nil member).elim⟩

namespace Mirrors

variable (mirrors : Mirrors s r Φ)

include mirrors

theorem sound (h : ℕ) (t : StabilizerState ℝ) (live : r.slots.get? h = some t) : t.Sound :=
  ⟨mirrors.arena.exact h t live, mirrors.valid h t live⟩

theorem regroup (r' : Register ℝ (StabilizerState ℝ)) (arena : Arena s r') (qudits : r'.qudits = r.qudits)
    (valid : ∀ h t, r'.slots.get? h = some t → Form.Tableau t.frame.qudits.length t.form)
    (same : r'.slots.whole StabilizerState.signal = r.slots.whole StabilizerState.signal) : Mirrors s r' Φ :=
  ⟨arena, valid, qudits ▸ mirrors.whole, by rw [same, mirrors.signal, qudits]⟩

theorem merge (qs : List Qudit) (h : ℕ) (r' : Register ℝ (StabilizerState ℝ)) (done : r.merge qs = .ok (h, r')) :
    Mirrors s r' Φ ∧ r'.qudits = r.qudits := by
  obtain ⟨arena, -⟩ := (mirrors.arena.merge qs).2 (h, r') done
  have kept := mirrors.arena.merge_keeps StabilizerState.merges_signal.toJoins mirrors.sound done
  refine ⟨mirrors.regroup r' arena kept.qudits (fun j u live => (kept.fits j u live).valid) (funext fun β => ?_), kept.qudits⟩
  rw [Slots.whole_at, Slots.whole_at]
  exact kept.whole β trivial

-- The part of the amplitudes that a state does not hold depends on other qubits only.
theorem rest_depends (h : ℕ) (t : StabilizerState ℝ) (live : r.slots.get? h = some t) :
    DependsOn (r.slots.rest StabilizerState.signal h) {q | q ∉ t.frame.qudits} := by
  intro β γ same
  rw [Slots.rest, Finset.prod_apply, Finset.prod_apply]
  refine Finset.prod_congr rfl fun k member => ?_
  cases found : r.slots.get? k with
  | none => rw [Slots.part_vacant _ k found]; rfl
  | some u =>
      rw [Slots.part_live _ k u found]
      refine Form.across_depends _ _ fun q owns => same q fun also => ?_
      exact (Finset.mem_erase.mp member).1 (mirrors.arena.once q k h u t found live owns also)

-- A state goes through events on its own qubits, and the single form through the same ones.
theorem follow (h : ℕ) (t u : StabilizerState ℝ) (live : r.slots.get? h = some t) (es : List Event)
    (frame : u.frame = t.frame) (form : u.form = Event.replay t.frame.qudits t.form es)
    (names : ∀ e ∈ es, Names t.frame.qudits e.labels) :
    Mirrors s { r with slots := r.slots.put h u } (Event.replay r.qudits Φ es)
      ∧ es.foldlM (Event.play? r.qudits) Φ = some (Event.replay r.qudits Φ es) := by
  have sound := mirrors.sound h t live
  have wide : ∀ e ∈ es, Names r.qudits e.labels := fun e member =>
    (names e member).mono fun q => mirrors.arena.listed q h t live
  obtain ⟨-, held, near⟩ := Event.replay_ok sound.exact.distinct sound.valid es names (mirrors.rest_depends h t live)
  obtain ⟨done, settled, far⟩ := Event.replay_alone mirrors.arena.canonical mirrors.whole es wide
  have exact : u.frame.Exact := frame ▸ sound.exact
  have arena := mirrors.arena.put h t u live exact (congrArg Frame.source frame) (congrArg Frame.log frame)
    fun q => iff_of_eq (congrArg (fun f : Frame => q ∈ f.qudits) frame)
  refine ⟨⟨arena, fun k v here => ?_, settled, ?_⟩, done⟩
  · rw [Slots.get?_put _ _ _ _ (Slots.get?_inside _ _ _ live)] at here
    split at here
    · cases here
      rw [frame, form]
      exact held
    · exact mirrors.valid k v here
  · have put : (r.slots.put h u).get? h = some u := Slots.get?_put_self _ _ _ (Slots.get?_inside _ _ _ live)
    have before := mirrors.signal
    rw [Slots.whole_split r.slots h t live] at before
    rw [Slots.whole_split _ h u put, Slots.rest_put _ h t u live, StabilizerState.signal, frame, form]
    exact near.symm.trans ((congrArg (Event.acts · es) before).trans far)

theorem exchange (a b : Qudit) (names : Names r.qudits [a, b]) (r' : Register ℝ (StabilizerState ℝ))
    (done : r.exchange a b = .ok r') :
    Mirrors s r' (Event.replay r.qudits Φ (exchangeScript a b))
      ∧ (exchangeScript a b).foldlM (Event.play? r.qudits) Φ = some (Event.replay r.qudits Φ (exchangeScript a b)) := by
  have exchanged := mirrors.arena.exchanged a b done
  have arena := (mirrors.arena.exchange a b).2 r' done
  obtain ⟨ran, settled, acted⟩ := Event.replay_alone mirrors.arena.canonical mirrors.whole _ (exchangeScript_names names)
  refine ⟨⟨arena, fun j u here => ?_, exchanged.qudits ▸ settled, ?_⟩, ran⟩
  · obtain ⟨t, before, form, listed⟩ := exchanged.forms j u here
    rw [form, listed, List.length_map]
    exact mirrors.valid j t before
  · funext β
    have moved := congrFun acted β
    rw [exchangeScript, Event.acts_exchange _ a b names.different] at moved
    rw [exchanged.whole, mirrors.signal, exchanged.qudits, moved]
    rfl

end Mirrors

end Register

end QuantumRegister
