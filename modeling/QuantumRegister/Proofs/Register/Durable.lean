import QuantumRegister.Proofs.Dense.Likeness
import QuantumRegister.Proofs.Register.Refinement

/-!
What all states of a register have for good: a property that basis states have and that everything done
to states keeps. The states of every register that a program reaches have it, however its work ended.
-/

set_option autoImplicit false

namespace QuantumRegister

open QuantumRegister.Representation (Unseen basisState duplicate enact factor frame kronecker observe perform setFrame)
open QuantumRegister.SimError (agree_refl)

/-! Steps that maintain a property of the state. -/

namespace Step

variable {R S α β : Type} {P : S → Prop}

def Maintains (P : S → Prop) (step : Step R S α) : Prop := ∀ b, P b.state → P (step b).2.state

theorem maintains_throw (e : SimError R) : Maintains P (throw e : Step R S α) := fun _ held => held

theorem maintains_pure (a : α) : Maintains P (pure a : Step R S α) := fun _ held => held

theorem maintains_bind {step : Step R S α} {next : α → Step R S β} (first : Maintains P step) (rest : ∀ a, Maintains P (next a)) :
    Maintains P (step >>= next) := by
  intro b held
  have between := first b held
  rw [bind_apply]
  generalize step b = outcome at between ⊢
  obtain ⟨e, m⟩ := outcome
  cases e with
  | ok a => exact rest a m between
  | error e => exact between

theorem maintains_get {next : Bench S → Step R S α} (rest : ∀ b, P b.state → Maintains P (next b)) :
    Maintains P (get >>= next) := fun b held => rest b held b held

theorem maintains_ofExcept (x : Except (SimError R) α) {next : α → Step R S β} (rest : ∀ a, x = .ok a → Maintains P (next a)) :
    Maintains P (ofExcept x >>= next) := by
  cases x with
  | ok a => exact rest a rfl
  | error e => exact maintains_throw e

theorem maintains_draw (d : Random.Draw α) {next : α → Step R S β} (rest : ∀ s, Maintains P (next (d s).1)) :
    Maintains P (draw d >>= next) := fun b held => rest b.source { b with source := (d b.source).2 } held

theorem maintains_setState (s : S) (held : P s) : Maintains P (setState s : Step R S Unit) := fun _ _ => held

end Step

open QuantumRegister.Step (Maintains Parallel)

structure Durable {R S : Type} [Scalar R] [Representation R S] (P : S → Prop) : Prop where
  exact : ∀ t, P t → (frame t).Exact
  begun : ∀ (qs : List Qudit) (index : ℕ) (source : SourceRef) (log : LogRef) (t : S), basisState qs index source log = .ok t → P t
  joined : ∀ t u v, P t → P u → kronecker t u = .ok v → P v
  parted : ∀ (t : S) (qs : List Qudit) (validate : Bool) (tolerance : R) (single rest : S), P t →
    factor t qs validate tolerance = .ok (single, rest) → P single ∧ P rest
  relabelled : ∀ (t : S) (f : Frame), P t → f.Exact → f.dims = (frame t).dims → P (setFrame t f)
  copied : ∀ (deep : Bool) (t : S) (source : SourceRef) (log : LogRef), P t →
    P (setFrame (duplicate deep t) ((frame t).rewired source log))
  enacted : ∀ (name : String) (qs : List Qudit) (r : Resolution R), Maintains P (enact name qs r : Step R S Unit)
  observed : ∀ qs : List Qudit, Maintains P (observe qs : Step R S (List ℕ))
  cleared : ∀ qs : List Qudit, Maintains P (Representation.reset qs : Step R S Unit)

/-! Values behind handles. -/

namespace Slots

variable {S : Type} {P : S → Prop} {a : Slots S}

def Each (P : S → Prop) (a : Slots S) : Prop := ∀ t, some t ∈ a.cells → P t

theorem Each.get (each : a.Each P) (h : ℕ) (t : S) (live : a.get? h = some t) : P t := by
  rw [get?, Option.join_eq_some_iff] at live
  exact each t (List.mem_of_getElem? live)

theorem Each.put (each : a.Each P) (h : ℕ) (s : S) (held : P s) : (a.put h s).Each P := by
  intro t member
  rcases List.mem_or_eq_of_mem_set member with old | new
  · exact each t old
  · cases new
    exact held

theorem Each.released (each : a.Each P) (hs : List ℕ) : (hs.foldl release a).Each P := by
  induction hs generalizing a with
  | nil => exact each
  | cons h hs ih =>
      refine ih fun t member => ?_
      rcases List.mem_or_eq_of_mem_set member with old | new
      · exact each t old
      · cases new

theorem Each.alloc (each : a.Each P) (s : S) (held : P s) : (a.alloc s).2.Each P := by
  rw [Slots.alloc]
  split
  · rename_i h free _
    exact each.put h s held
  · intro t member
    rcases List.mem_append.mp member with old | new
    · exact each t old
    · cases List.mem_singleton.mp new
      exact held

theorem Each.map {T : Type} {Q : T → Prop} {f : S → T} (each : a.Each P) (moved : ∀ t, P t → Q (f t)) : (a.map f).Each Q := by
  intro u member
  obtain ⟨cell, old, same⟩ := List.mem_map.mp member
  obtain ⟨t, rfl, rfl⟩ := Option.map_eq_some_iff.mp same
  exact moved t (each t old)

theorem each_ofList (states : List S) (all : ∀ t ∈ states, P t) : (Slots.ofList states).Each P := by
  intro t member
  obtain ⟨u, listed, same⟩ := List.mem_map.mp member
  cases same
  exact all t listed

end Slots

namespace Durable

variable {R S : Type} [Scalar R] [Representation R S] {P : S → Prop} {s : Settings R} {r r' : Register R S} (durable : Durable P)

include durable

theorem unseen : Unseen (R := R) fun b b' : Bench S => b' = b ∧ P b.state where
  log := by
    rintro b _ ⟨rfl, -⟩
    rfl
  rewritten := by
    rintro b _ l ⟨rfl, held⟩
    exact ⟨rfl, held⟩
  draw d _ := by
    rintro b _ ⟨rfl, held⟩
    exact ⟨agree_refl _, rfl, held⟩
  axes := by
    rintro b _ qs ⟨rfl, -⟩
    exact (agree_refl _).mono fun _ _ _ _ _ => trivial
  sampler := by
    rintro b _ qs ⟨rfl, -⟩
    rfl
  enact name qs r := by
    rintro b _ ⟨rfl, held⟩
    exact ⟨agree_refl _, rfl, durable.enacted name qs r _ held⟩
  observe qs := by
    rintro b _ ⟨rfl, held⟩
    exact ⟨agree_refl _, rfl, durable.observed qs _ held⟩
  reset qs := by
    rintro b _ ⟨rfl, held⟩
    exact ⟨agree_refl _, rfl, durable.cleared qs _ held⟩

theorem performed (op : Operation R) : Maintains P (perform op : Step R S Unit) := fun b held =>
  (Representation.parallel_performAs durable.unseen op.name op.qudits op b b ⟨rfl, held⟩).2.2

end Durable

namespace Register

/-! Work that leaves every state with a property. -/

section Upholding

variable {R S α β : Type} {P : S → Prop} {r r' : Register R S}

theorem each_state (each : r.slots.Each P) (h : ℕ) (t : S) (found : r.state h = .ok t) : P t :=
  each.get h t (live_of_state r h t found)

def Upholds (P : S → Prop) (act : Act R S α) : Prop := ∀ w, w.register.slots.Each P → (act w).2.register.slots.Each P

theorem upholds_bind {act : Act R S α} {next : α → Act R S β} (first : Upholds P act) (rest : ∀ a, Upholds P (next a)) :
    Upholds P (act >>= next) := by
  intro w each
  have between := first w each
  rw [act_bind_apply]
  generalize act w = outcome at between ⊢
  obtain ⟨e, m⟩ := outcome
  cases e with
  | ok a => exact rest a m between
  | error e => exact between

theorem upholds_pure (a : α) : Upholds P (pure a : Act R S α) := fun _ each => each

theorem upholds_change (f : Register R S → Except (SimError R) (α × Register R S))
    (kept : ∀ r a r', r.slots.Each P → f r = .ok (a, r') → r'.slots.Each P) : Upholds P (change f) := by
  intro w each
  rw [change]
  split
  · rename_i a r' done
    exact kept _ a r' each done
  · exact each

variable [Representation R S]

theorem upholds_runOn (h : ℕ) (step : Step R S α) (maintains : Maintains P step) : Upholds P (runOn h step) := by
  intro w each
  rw [runOn]
  split
  · exact each
  · rename_i t live
    exact each.put h _ (maintains _ (each.get h t live))

theorem each_reframe (each : r.slots.Each P) (h : ℕ) (change : Frame → Except (SimError R) Frame)
    (kept : ∀ t f, P t → change (frame t) = .ok f → P (setFrame t f)) (done : r.reframe h change = .ok r') : r'.slots.Each P := by
  obtain ⟨t, found, done⟩ := SimError.bind_ok done
  obtain ⟨f, changed, done⟩ := SimError.bind_ok done
  cases done
  exact each.put h _ (kept t f (each_state each h t found) changed)

end Upholding

variable {R S : Type} [Scalar R] [Representation R S] {P : S → Prop} {s : Settings R} {r r' : Register R S} (durable : Durable P)

include durable

theorem each_new (c c' : Cells) (made : Register.new s c = .ok (r, c')) : r.slots.Each P := by
  obtain ⟨qs, -, made⟩ := SimError.bind_ok made
  obtain ⟨states, built, made⟩ := SimError.bind_ok made
  cases made
  exact Slots.each_ofList states (initialStates_all durable.begun qs _ _ states built)

/-! The partition. -/

theorem each_product (each : r.slots.Each P) (first v : S) (hs : List ℕ) (held : P first) (done : r.product first hs = .ok v) :
    P v := by
  induction hs generalizing first with
  | nil =>
      cases done
      exact held
  | cons h hs ih =>
      obtain ⟨t, found, done⟩ := SimError.bind_ok done
      obtain ⟨u, joined, done⟩ := SimError.bind_ok done
      exact ih u (durable.joined first t u held (each_state each h t found) joined) done

theorem each_merge (each : r.slots.Each P) (qs : List Qudit) (h : ℕ) (done : r.merge qs = .ok (h, r')) : r'.slots.Each P := by
  obtain ⟨hs, -, done⟩ := SimError.bind_ok done
  match hs with
  | [] =>
      cases done
      exact each
  | [k] =>
      cases done
      exact each
  | k :: l :: rest =>
      obtain ⟨t, found, done⟩ := SimError.bind_ok done
      obtain ⟨v, joined, done⟩ := SimError.bind_ok done
      cases done
      have held := each_product durable each t v (l :: rest) (each_state each k t found) joined
      exact (each.released (k :: l :: rest)).alloc v held

theorem each_splitOff (each : r.slots.Each P) (q : Qudit) (done : r.splitOff q = .ok r') : r'.slots.Each P := by
  obtain ⟨h, -, done⟩ := SimError.bind_ok done
  obtain ⟨t, found, done⟩ := SimError.bind_ok done
  split at done
  · cases done
    exact each
  · obtain ⟨⟨single, rest⟩, parted, done⟩ := SimError.bind_ok done
    cases done
    obtain ⟨first, second⟩ := durable.parted _ _ _ _ _ _ (each_state each h t found) parted
    exact (each.put h rest second).alloc single first

theorem each_splitAll (each : r.slots.Each P) (qs : List Qudit) : (r.splitAll qs).2.slots.Each P := by
  induction qs generalizing r with
  | nil => exact each
  | cons q qs ih =>
      rw [splitAll]
      split
      · exact each
      · rename_i r' done
        exact ih (each_splitOff durable each q done)

theorem each_exchange (each : r.slots.Each P) (a b : Qudit) (done : r.exchange a b = .ok r') : r'.slots.Each P := by
  rw [Register.exchange] at done
  split at done
  · cases done
  · rename_i flat
    have flat : a.dim = b.dim := not_not.mp flat
    have renames (c d : Qudit) (same : c.dim = d.dim) (t : S) (f : Frame) (held : P t)
        (changed : (frame t).rename (R := R) c d = .ok f) : P (setFrame t f) := by
      have exact := durable.exact t held
      exact durable.relabelled t f held (Frame.rename_exact exact c d changed).1 (Frame.rename_dims exact c d same changed)
    obtain ⟨h, -, done⟩ := SimError.bind_ok done
    obtain ⟨k, -, done⟩ := SimError.bind_ok done
    split at done
    · refine each_reframe each h _ (fun t f held changed => ?_) done
      have exact := durable.exact t held
      exact durable.relabelled t f held (Frame.swapLabels_exact exact a b changed).1 (Frame.swapLabels_dims exact a b flat changed)
    · obtain ⟨r₁, first, done⟩ := SimError.bind_ok done
      obtain ⟨r₂, second, done⟩ := SimError.bind_ok done
      cases done
      have between := each_reframe each h _ (renames a b flat) first
      have after := each_reframe between k _ (renames b a flat.symm) second
      exact after

/-! Operations. -/

theorem upholds_separate (qs : List Qudit) : Upholds P (separate qs : Act R S Unit) := by
  intro w each
  rw [separate]
  split
  · exact each_splitAll durable each qs
  · exact each

theorem upholds_applyMerged (op : Operation R) : Upholds P (applyMerged op : Act R S Unit) := by
  refine upholds_bind (upholds_change _ fun r h r' each done => each_merge durable each op.qudits h done) fun h => ?_
  refine upholds_bind (upholds_runOn h _ (durable.performed op)) fun _ => ?_
  split
  · exact upholds_separate durable op.qudits
  · exact upholds_pure ()

theorem upholds_apply (op : Operation R) : Upholds P (apply op : Act R S Unit) := by
  rw [apply]
  split
  · exact upholds_pure ()
  · refine upholds_bind (upholds_change _ fun r a r' each done => ?_) fun _ => ?_
    · obtain ⟨_, -, done⟩ := SimError.bind_ok done
      cases done
      exact each
    · split
      · rename_i a b _ _
        refine upholds_change _ fun r u r' each done => ?_
        obtain ⟨r'', exchanged, done⟩ := SimError.bind_ok done
        cases done
        exact each_exchange durable each a b exchanged
      · exact upholds_applyMerged durable op

theorem upholds_applyAll (ops : List (Operation R)) : Upholds P (applyAll ops : Act R S Unit) := by
  induction ops with
  | nil => exact upholds_pure ()
  | cons op ops ih => exact upholds_bind (upholds_apply durable op) fun _ => ih

theorem Reached.each [LawfulRepresentation R S] {w : Workspace R S} (reached : Reached s w) : w.register.slots.Each P := by
  induction reached with
  | new r c c' made => exact each_new durable c c' made
  | apply w op _ held => exact upholds_apply durable op w held
  | applyAll w ops _ held => exact upholds_applyAll durable ops w held
  | copy w deep _ held =>
      rw [slots_copy]
      exact held.map fun t fits => durable.copied deep t _ _ fits
  | meanwhile w c _ held => exact held

end Register

/-! Dense states keep the size of the joint basis, stabilizer states keep a tableau. -/

theorem DenseState.durable_full {R : Type} [Scalar R] : Durable (Readable.Full : DenseState R → Prop) := by
  have alone (b : Bench (DenseState R)) (full : Readable.Full b.state) : Bench.Alike (frame b.state) b.source b b :=
    ⟨rfl, ⟨0, rfl, rfl⟩, rfl, .refl full⟩
  exact {
    exact := fun _ full => full.1
    begun := fun qs index source log t made => full_basisState qs index source log made
    joined := fun t u v first second done => ((agree_kronecker (.refl first) (.refl second)).held done done).first
    parted := fun t qs validate tolerance single rest full done => by
      obtain ⟨first, second⟩ := (agree_factor (.refl full) qs validate tolerance).held done done
      exact ⟨first.first, second.first⟩
    relabelled := fun t f full exact dims => (like_setFrame (.refl full) exact (.refl f) dims).first
    copied := fun deep t source log full => (like_duplicate deep full source log).second
    enacted := fun name qs r b full => (matches_enact name qs r _ b b (alone b full)).2.state.first
    observed := fun qs b full => (matches_observe qs _ b b (alone b full)).2.state.first
    cleared := fun qs b full => (matches_reset qs _ b b (alone b full)).2.state.first }

namespace StabilizerState

theorem Sound.replayed {t : StabilizerState ℝ} (sound : t.Sound) (es : List Event) (names : ∀ e ∈ es, Names t.frame.qudits e.labels) :
    (t.setForm (Event.replay t.frame.qudits t.form es)).Sound :=
  ⟨sound.exact, (Event.replay_alone sound.exact.distinct sound.valid es names).2.1⟩

theorem Sound.measured {t : StabilizerState ℝ} (sound : t.Sound) (qs : List Qudit) (axes : List ℕ)
    (found : t.frame.axes (R := ℝ) qs = .ok axes) (source : Random.Source) : (t.setForm (t.form.measureAll axes source).1.2).Sound := by
  obtain ⟨listed, names⟩ := sound.exact.axes_idxOf qs axes found
  rw [listed, replay_measureAll]
  refine sound.replayed _ fun e member => ?_
  obtain ⟨p, pair, rfl⟩ := List.mem_map.mp member
  exact names_single names _ ⟨p.1, (List.of_mem_zip pair).1, rfl⟩

theorem Sound.reset {t : StabilizerState ℝ} (sound : t.Sound) (qs : List Qudit) (axes : List ℕ)
    (found : t.frame.axes (R := ℝ) qs = .ok axes) (source : Random.Source) : (t.setForm (t.form.resetAll axes source).1).Sound := by
  obtain ⟨listed, names⟩ := sound.exact.axes_idxOf qs axes found
  rw [listed, replay_resetAll]
  exact sound.replayed _ fun e member => names_single names e (resetScript_labels _ _ _ _ e member)

theorem Sound.gates {t : StabilizerState ℝ} (sound : t.Sound) (gates : List (Generator Qudit)) (ks : List (Generator ℕ))
    (found : allOnAxes (R := ℝ) t.frame gates = .ok ks) : (t.applyAll ks).Sound := by
  obtain ⟨listed, names⟩ := allOnAxes_idxOf sound.exact gates ks found
  have held := sound.replayed (gates.map .gate) fun e member => by
    obtain ⟨k, listed, rfl⟩ := List.mem_map.mp member
    exact names k listed
  rw [Event.replay, List.foldl_map] at held
  rw [applyAll, listed, List.foldl_map]
  exact held

theorem maintains_enact (name : String) (qs : List Qudit) (r : Resolution ℝ) :
    Maintains Sound (enact name qs r : Step ℝ (StabilizerState ℝ) Unit) := by
  cases r with
  | stabilizer gates =>
      refine Step.maintains_ofExcept _ fun _ _ => Step.maintains_get fun b sound => ?_
      exact Step.maintains_ofExcept _ fun ks found => Step.maintains_setState _ (sound.gates gates ks found)
  | unitary m => exact Step.maintains_throw _
  | mixture branches key => exact Step.maintains_throw _
  | channel ops key => exact Step.maintains_throw _
  | skip => exact Step.maintains_throw _
  | measure m => exact Step.maintains_throw _
  | reset targets => exact Step.maintains_throw _
  | parts ops => exact Step.maintains_throw _

theorem durable_sound : Durable Sound where
  exact t sound := sound.exact
  begun qs index source log t made := by
    obtain ⟨exact, -⟩ := Register.basisState_exact qs index source log t made
    exact ⟨exact, (basisState_signal qs index source log t made).1⟩
  joined t u v first second done := by
    have framed := LawfulRepresentation.frame_kronecker (R := ℝ) t u v done
    obtain ⟨exact, listed, -⟩ := Frame.exact_of _ _ _ _ framed
    obtain ⟨v', made, sound, -⟩ := kronecker_signal t u first second (listed ▸ exact.distinct)
    cases done.symm.trans made
    exact sound
  parted _ _ _ _ _ _ _ done := by cases done
  relabelled t f sound exact dims := by
    have count (g : Frame) : g.dims.length = g.qudits.length := List.length_map _
    have length : f.qudits.length = t.frame.qudits.length := (count f).symm.trans ((congrArg List.length dims).trans (count t.frame))
    exact ⟨exact, length ▸ sound.valid⟩
  copied deep t source log sound := ⟨⟨sound.exact.distinct, sound.exact.inverse⟩, sound.valid⟩
  enacted := maintains_enact
  observed qs := by
    refine Step.maintains_get fun b sound => Step.maintains_ofExcept _ fun axes found => Step.maintains_draw _ fun source => ?_
    exact Step.maintains_bind (Step.maintains_setState _ (sound.measured qs axes found source)) fun _ => Step.maintains_pure _
  cleared qs := by
    refine Step.maintains_get fun b sound => Step.maintains_ofExcept _ fun axes found => Step.maintains_draw _ fun source => ?_
    exact Step.maintains_setState _ (sound.reset qs axes found source)

end StabilizerState

end QuantumRegister
