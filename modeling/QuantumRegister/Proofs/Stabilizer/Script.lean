import QuantumRegister.Proofs.Lawful
import QuantumRegister.Proofs.Stabilizer.Events
import QuantumRegister.Stabilizer.State

/-!
The events that an operation puts a stabilizer state through, with the outcomes that the run draws. A
state that an operation leaves is the one that its script, played on the state before, leads to.
-/

set_option autoImplicit false

namespace QuantumRegister

open QuantumRegister.Random (Source)

/-! Inverting steps that succeed. -/

namespace Step

variable {R S α β : Type}

theorem bind_done {step : Step R S α} {next : α → Step R S β} {b b' : Bench S} {v : β}
    (done : (step >>= next) b = (.ok v, b')) : ∃ a m, step b = (.ok a, m) ∧ next a m = (.ok v, b') := by
  rw [bind_apply] at done
  generalize first : step b = outcome at done
  obtain ⟨r, m⟩ := outcome
  cases r with
  | ok a => exact ⟨a, m, rfl, done⟩
  | error e => cases done

theorem ofExcept_done {r : Except (SimError R) α} {b b' : Bench S} {a : α} (done : (ofExcept r : Step R S α) b = (.ok a, b')) :
    r = .ok a ∧ b = b' := by
  cases r with
  | ok a' =>
      cases done
      exact ⟨rfl, rfl⟩
  | error e => cases done

end Step

namespace Frame

variable {R : Type} {f : Frame}

theorem Exact.place_idxOf (valid : f.Exact) (q : Qudit) (k : ℕ) (here : f.qudits[k]? = some q) :
    k = f.qudits.idxOf q ∧ q ∈ f.qudits := by
  have member := List.mem_of_getElem? here
  refine ⟨valid.unique here ?_, member⟩
  rw [List.getElem?_eq_getElem (List.idxOf_lt_length_of_mem member), List.getElem_idxOf]

theorem Exact.axis_idxOf (valid : f.Exact) (q : Qudit) (k : ℕ) (found : f.axis (R := R) q = .ok k) :
    k = f.qudits.idxOf q ∧ q ∈ f.qudits := by
  rw [axis] at found
  cases place : Assoc.find? q f.axisOf with
  | none => simp [place] at found
  | some j =>
      simp only [place, Except.ok.injEq] at found
      exact found ▸ valid.place_idxOf q j ((valid.inverse q j).mp place)

theorem Exact.axis_found (valid : f.Exact) (q : Qudit) (listed : q ∈ f.qudits) : f.axis (R := R) q = .ok (f.qudits.idxOf q) := by
  obtain ⟨k, place⟩ := valid.place q listed
  rw [axis, place, (valid.place_idxOf q k ((valid.inverse q k).mp place)).1]

theorem Exact.axes_idxOf (valid : f.Exact) (qs : List Qudit) (axes : List ℕ) (found : f.axes (R := R) qs = .ok axes) :
    axes = qs.map f.qudits.idxOf ∧ Names f.qudits qs := by
  obtain ⟨places, once⟩ := (valid.axes_iff qs axes).mp found
  have listed : axes = qs.map f.qudits.idxOf ∧ qs ⊆ f.qudits := by
    clear found once
    induction places with
    | nil => exact ⟨rfl, List.nil_subset _⟩
    | @cons q a qs axes here _ ih =>
        obtain ⟨first, member⟩ := valid.place_idxOf q a here
        exact ⟨by rw [List.map_cons, ← ih.1, ← first], List.cons_subset.mpr ⟨member, ih.2⟩⟩
  exact ⟨listed.1, (listed.1 ▸ once).of_map _, listed.2⟩

end Frame

namespace StabilizerState

variable {R : Type} [Scalar R]

/-! Scripts. -/

def measuredScript (m : Measurement R) (b : Bench (StabilizerState R)) : List Event :=
  if m.collapses then
    match (observe m.qudits b).1 with
    | .ok values => (m.qudits.zip values).map fun p => .project p.1 (p.2 == 1)
    | .error _ => []
  else []

def resetScript (order : List Qudit) (c : Form R) : List Qudit → Source → List Event
  | [], _ => []
  | q :: qs, source =>
    let ((b, d), source) := c.measure (order.idxOf q) source
    if b then .project q b :: .gate (.x q) :: resetScript order (d.applyX (order.idxOf q)) qs source
    else .project q b :: resetScript order d qs source

def carriedScript (b : Bench (StabilizerState R)) : Option (Resolution R) → List Event
  | some (.measure m) => measuredScript m b
  | some (.reset qs) => resetScript b.state.frame.qudits b.state.form qs b.source
  | some (.stabilizer gates) => gates.map .gate
  | _ => []

mutual

def script : Operation R → Bench (StabilizerState R) → List Event
  | ⟨_, _, some (key, inner)⟩, b => if b.log.conditionHolds key then script inner b else []
  | ⟨c, some parts, none⟩, b =>
    match c.resolve (some parts) (Representation.routes (StabilizerState R)) with
    | some (.parts _) => scriptAll parts b
    | r => carriedScript b r
  | ⟨c, none, none⟩, b => carriedScript b (c.resolve none (Representation.routes (StabilizerState R)))

def scriptAll : List (Operation R) → Bench (StabilizerState R) → List Event
  | [], _ => []
  | op :: ops, b => script op b ++ scriptAll ops (Representation.performAs op.name op.qudits op b).2

end

/-! A state follows its script. -/

structure Follows (b : Bench (StabilizerState R)) (es : List Event) (b' : Bench (StabilizerState R)) : Prop where
  frame : b'.state.frame = b.state.frame
  form : b'.state.form = Event.replay b.state.frame.qudits b.state.form es
  names : ∀ e ∈ es, Names b.state.frame.qudits e.labels

theorem follows_still {b b' : Bench (StabilizerState R)} (same : b'.state = b.state) : Follows b [] b' :=
  ⟨congrArg StabilizerState.frame same, congrArg StabilizerState.form same, fun _ member => (List.not_mem_nil member).elim⟩

theorem Follows.trans {b b' b'' : Bench (StabilizerState R)} {es es' : List Event} (first : Follows b es b')
    (second : Follows b' es' b'') : Follows b (es ++ es') b'' := by
  have order := congrArg Frame.qudits first.frame
  refine ⟨second.frame.trans first.frame, ?_, fun e member => ?_⟩
  · rw [second.form, first.form, order, Event.replay_append]
  · rcases List.mem_append.mp member with before | after
    · exact first.names e before
    · exact order ▸ second.names e after

theorem replay_measureAll (order : List Qudit) (c : Form R) (qs : List Qudit) (source : Source) :
    ((c.measureAll (qs.map order.idxOf) source).1).2
      = Event.replay order c ((qs.zip ((c.measureAll (qs.map order.idxOf) source).1).1).map fun p => .project p.1 p.2) := by
  induction qs generalizing c source with
  | nil => rfl
  | cons q qs ih => exact ih _ _

theorem replay_resetAll (order : List Qudit) (c : Form R) (qs : List Qudit) (source : Source) :
    (c.resetAll (qs.map order.idxOf) source).1 = Event.replay order c (resetScript order c qs source) := by
  induction qs generalizing c source with
  | nil => rfl
  | cons q qs ih =>
      generalize drawn : c.measure (order.idxOf q) source = outcome
      obtain ⟨⟨b, d⟩, rest⟩ := outcome
      have found : d = c.project (order.idxOf q) b := by
        cases drawn
        rfl
      have step : c.resetAll ((q :: qs).map order.idxOf) source
          = (if b then d.applyX (order.idxOf q) else d).resetAll (qs.map order.idxOf) rest := by
        rw [List.map_cons, Form.resetAll]
        simp only [bind, StateT.bind, drawn]
      rw [step, resetScript, drawn]
      cases b with
      | true => exact (ih _ rest).trans (by rw [found]; rfl)
      | false => exact (ih _ rest).trans (by rw [found]; rfl)

theorem resetScript_labels (order : List Qudit) (c : Form R) (qs : List Qudit) (source : Source) :
    ∀ e ∈ resetScript order c qs source, ∃ q ∈ qs, e.labels = [q] := by
  induction qs generalizing c source with
  | nil => exact fun e member => (List.not_mem_nil member).elim
  | cons q qs ih =>
      intro e member
      have later : ∀ d source, e ∈ resetScript order d qs source → ∃ p ∈ q :: qs, e.labels = [p] := fun d source member => by
        obtain ⟨p, listed, named⟩ := ih d source e member
        exact ⟨p, List.mem_cons_of_mem q listed, named⟩
      rw [resetScript] at member
      generalize c.measure (order.idxOf q) source = outcome at member
      obtain ⟨⟨b, d⟩, rest⟩ := outcome
      cases b with
      | true =>
          rcases List.mem_cons.mp member with rfl | member
          · exact ⟨q, List.mem_cons_self, rfl⟩
          · rcases List.mem_cons.mp member with rfl | member
            · exact ⟨q, List.mem_cons_self, rfl⟩
            · exact later _ _ member
      | false =>
          rcases List.mem_cons.mp member with rfl | member
          · exact ⟨q, List.mem_cons_self, rfl⟩
          · exact later _ _ member

theorem names_single {order qs : List Qudit} (names : Names order qs) (e : Event) (single : ∃ q ∈ qs, e.labels = [q]) :
    Names order e.labels := by
  obtain ⟨q, listed, named⟩ := single
  rw [named]
  exact ⟨List.nodup_singleton q, fun p member => List.mem_singleton.mp member ▸ names.inside listed⟩

variable {b b' : Bench (StabilizerState R)}

theorem observe_done (exact : b.state.frame.Exact) (qs : List Qudit) (values : List ℕ)
    (done : observe qs b = (.ok values, b')) :
    Follows b ((qs.zip values).map fun p => .project p.1 (p.2 == 1)) b' := by
  obtain ⟨_, _, read, done⟩ := Step.bind_done done
  cases read
  obtain ⟨axes, _, placed, done⟩ := Step.bind_done done
  obtain ⟨found, rfl⟩ := Step.ofExcept_done placed
  obtain ⟨listed, names⟩ := exact.axes_idxOf qs axes found
  cases done
  have bits : ∀ bits : List Bool, (qs.zip (bits.map Bool.toNat)).map (fun p => Event.project p.1 (p.2 == 1))
      = (qs.zip bits).map fun p => .project p.1 p.2 := by
    intro bits
    rw [List.zip_map_right, List.map_map]
    refine List.map_congr_left fun ⟨q, bit⟩ _ => ?_
    cases bit <;> rfl
  refine ⟨rfl, ?_, fun e member => ?_⟩
  · rw [bits, listed]
    exact replay_measureAll _ _ _ _
  · obtain ⟨p, pair, rfl⟩ := List.mem_map.mp member
    exact names_single names _ ⟨p.1, (List.of_mem_zip pair).1, rfl⟩

theorem reset_done (exact : b.state.frame.Exact) (qs : List Qudit) (done : reset qs b = (.ok (), b')) :
    Follows b (resetScript b.state.frame.qudits b.state.form qs b.source) b' := by
  obtain ⟨_, _, read, done⟩ := Step.bind_done done
  cases read
  obtain ⟨axes, _, placed, done⟩ := Step.bind_done done
  obtain ⟨found, rfl⟩ := Step.ofExcept_done placed
  obtain ⟨listed, names⟩ := exact.axes_idxOf qs axes found
  cases done
  refine ⟨rfl, ?_, fun e member => names_single names e (resetScript_labels _ _ _ _ e member)⟩
  rw [listed]
  exact replay_resetAll _ _ _ _

omit [Scalar R] in
theorem onAxes_idxOf {f : Frame} (exact : f.Exact) (k : Generator Qudit) (j : Generator ℕ)
    (found : onAxes (R := R) f k = .ok j) : j = k.map f.qudits.idxOf ∧ Names f.qudits k.labels := by
  have one (q : Qudit) (make : ℕ → Generator ℕ) (found : (f.axis (R := R) q).map make = .ok j) :
      j = make (f.qudits.idxOf q) ∧ Names f.qudits [q] := by
    cases place : f.axis (R := R) q with
    | error e => simp [place, Except.map] at found
    | ok a =>
        obtain ⟨index, member⟩ := exact.axis_idxOf q a place
        simp only [place, Except.map, Except.ok.injEq] at found
        exact ⟨by rw [← found, index], List.nodup_singleton q, fun p listed => List.mem_singleton.mp listed ▸ member⟩
  have two (a b : Qudit) (make : ℕ × ℕ → Generator ℕ) (found : (axisPair (R := R) f a b).map make = .ok j) :
      j = make (f.qudits.idxOf a, f.qudits.idxOf b) ∧ Names f.qudits [a, b] := by
    by_cases same : a = b
    · simp [axisPair, same, Except.map] at found
    · rw [axisPair, if_neg same] at found
      cases first : f.axis (R := R) a with
      | error e => simp [first, bind, Except.bind, Except.map] at found
      | ok i =>
          cases second : f.axis (R := R) b with
          | error e => simp [first, second, bind, Except.bind, Except.map] at found
          | ok k =>
              obtain ⟨index, member⟩ := exact.axis_idxOf a i first
              obtain ⟨index', member'⟩ := exact.axis_idxOf b k second
              simp only [first, second, bind, Except.bind, pure, Except.pure, Except.map, Except.ok.injEq] at found
              refine ⟨by rw [← found, index, index'], by simpa using same, fun p listed => ?_⟩
              rcases List.mem_cons.mp listed with rfl | listed
              · exact member
              · exact List.mem_singleton.mp listed ▸ member'
  cases k with
  | h q => exact one q .h found
  | s q => exact one q .s found
  | x q => exact one q .x found
  | y q => exact one q .y found
  | z q => exact one q .z found
  | cx a b => exact two a b (fun p => .cx p.1 p.2) found
  | cz a b => exact two a b (fun p => .cz p.1 p.2) found

omit [Scalar R] in
theorem allOnAxes_idxOf {f : Frame} (exact : f.Exact) (ks : List (Generator Qudit)) (js : List (Generator ℕ))
    (found : allOnAxes (R := R) f ks = .ok js) :
    js = ks.map (Generator.map f.qudits.idxOf) ∧ ∀ k ∈ ks, Names f.qudits k.labels := by
  induction ks generalizing js with
  | nil =>
      cases found
      exact ⟨rfl, fun _ member => (List.not_mem_nil member).elim⟩
  | cons k ks ih =>
      obtain ⟨j, first, found⟩ := SimError.bind_ok found
      obtain ⟨later, rest, found⟩ := SimError.bind_ok found
      cases found
      obtain ⟨own, names⟩ := onAxes_idxOf exact k j first
      obtain ⟨others, named⟩ := ih later rest
      exact ⟨by rw [List.map_cons, own, others], List.forall_mem_cons.mpr ⟨names, named⟩⟩

theorem gates_done (exact : b.state.frame.Exact) (name : String) (qs : List Qudit) (gates : List (Generator Qudit))
    (done : enact name qs (.stabilizer gates) b = (.ok (), b')) : Follows b (gates.map .gate) b' := by
  obtain ⟨_, _, checked, done⟩ := Step.bind_done done
  obtain ⟨-, rfl⟩ := Step.ofExcept_done checked
  obtain ⟨_, _, read, done⟩ := Step.bind_done done
  cases read
  obtain ⟨ks, _, placed, done⟩ := Step.bind_done done
  obtain ⟨found, rfl⟩ := Step.ofExcept_done placed
  obtain ⟨listed, names⟩ := allOnAxes_idxOf exact gates ks found
  cases done
  refine ⟨rfl, ?_, fun e member => ?_⟩
  · rw [listed, Event.replay, List.foldl_map]
    exact List.foldl_map
  · obtain ⟨k, listed, rfl⟩ := List.mem_map.mp member
    exact names k listed

omit [Scalar R] in
theorem onAxes_found {f : Frame} (exact : f.Exact) (k : Generator Qudit) (names : Names f.qudits k.labels) :
    onAxes (R := R) f k = .ok (k.map f.qudits.idxOf) := by
  have own := fun q (listed : q ∈ k.labels) => exact.axis_found (R := R) q (names.inside listed)
  have pair (a b : Qudit) (labels : k.labels = [a, b]) :
      axisPair (R := R) f a b = .ok (f.qudits.idxOf a, f.qudits.idxOf b) := by
    have different : a ≠ b := by simpa [labels] using names.once
    rw [axisPair, if_neg different, own a (by simp [labels]), own b (by simp [labels])]
    rfl
  cases k with
  | h q | s q | x q | y q | z q => rw [onAxes, own q List.mem_cons_self]; rfl
  | cx a b | cz a b => rw [onAxes, pair a b rfl]; rfl

omit [Scalar R] in
theorem allOnAxes_found {f : Frame} (exact : f.Exact) (ks : List (Generator Qudit)) (names : ∀ k ∈ ks, Names f.qudits k.labels) :
    allOnAxes (R := R) f ks = .ok (ks.map (Generator.map f.qudits.idxOf)) := by
  induction ks with
  | nil => rfl
  | cons k ks ih =>
      obtain ⟨first, later⟩ := List.forall_mem_cons.mp names
      rw [allOnAxes, onAxes_found exact k first, ih later]
      rfl

omit [Scalar R] in
theorem qubits_checked (qs : List Qudit) (qubits : ∀ q ∈ qs, q.dim = 2) : checkQubits (R := R) qs = .ok () := by
  rw [checkQubits, if_neg (by simpa using qubits)]

theorem gates_performed (t : StabilizerState R) (exact : t.frame.Exact) (name : String) (qs : List Qudit)
    (gates : List (Generator Qudit)) (qubits : ∀ q ∈ qs, q.dim = 2) (names : ∀ k ∈ gates, Names t.frame.qudits k.labels)
    (source : Source) (log : Log) : enact name qs (.stabilizer gates) ⟨source, log, t⟩
      = (.ok (), ⟨source, log, t.setForm (Event.replay t.frame.qudits t.form (gates.map .gate))⟩) := by
  have replayed : Event.replay t.frame.qudits t.form (gates.map .gate)
      = (gates.map (Generator.map t.frame.qudits.idxOf)).foldl Form.apply t.form := by
    rw [Event.replay, List.foldl_map, List.foldl_map]
    rfl
  rw [enact, qubits_checked qs qubits, replayed]
  have found := allOnAxes_found (R := R) exact gates names
  have unfolded : (Step.ofExcept (.ok ()) >>= fun _ => get >>= fun b : Bench (StabilizerState R) =>
      Step.ofExcept (allOnAxes b.state.frame gates) >>= fun ks => Step.setState (b.state.applyAll ks) : Step R (StabilizerState R) Unit)
        ⟨source, log, t⟩ = (Step.ofExcept (allOnAxes t.frame gates) >>= fun ks => Step.setState (t.applyAll ks)) ⟨source, log, t⟩ := rfl
  exact unfolded.trans (by rw [found]; rfl)

theorem performAs_generators (g : Gate R) (ks : List (Generator Qudit)) (listed : g.generators = some ks) (name : String)
    (qs : List Qudit) : Representation.performAs name qs g.operation
      = if g.isIdentity then pure () else (enact name qs (.stabilizer ks) : Step R (StabilizerState R) Unit) := by
  have lone : g.decomposition = none := by
    cases g with
    | ccx a b c => cases listed
    | _ => rfl
  have shape : g.operation = ⟨g.leaf.toCapabilities, none, none⟩ := by
    rw [Gate.operation, lone]
    rfl
  have resolved : g.leaf.toCapabilities.resolve none (Representation.routes (StabilizerState R))
      = if g.isIdentity then some .skip else some (.stabilizer ks) := by
    have offered : g.leaf.toCapabilities.onRoute none .stabilizer = some (.stabilizer ks) := congrArg (Option.map _) listed
    have found : [Route.stabilizer, .parts].findSome? (g.leaf.toCapabilities.onRoute none) = some (.stabilizer ks) := by
      rw [List.findSome?_cons, offered]
    exact congrArg (fun r => if g.isIdentity then some .skip else r) found
  rw [shape, Representation.performAs, resolved]
  split <;> rfl

theorem measure_done (exact : b.state.frame.Exact) (m : Measurement R) (values : List ℕ)
    (done : Representation.measure m b = (.ok values, b')) : Follows b (measuredScript m b) b' := by
  obtain ⟨_, _, read, done⟩ := Step.bind_done done
  cases read
  obtain ⟨_, _, checked, done⟩ := Step.bind_done done
  obtain ⟨-, rfl⟩ := Step.ofExcept_done checked
  obtain ⟨raw, b₁, found, done⟩ := Step.bind_done done
  have kept : b'.state = b₁.state := by
    obtain ⟨_, _, drawn, done⟩ := Step.bind_done done
    cases drawn
    obtain ⟨_, _, corrected, done⟩ := Step.bind_done done
    obtain ⟨-, rfl⟩ := Step.ofExcept_done corrected
    obtain ⟨_, _, recorded, done⟩ := Step.bind_done done
    rw [Step.edit_apply] at recorded
    cases done
    exact (congrArg (fun r => r.2.state) recorded).symm
  have follows : Follows b (measuredScript m b) b₁ := by
    rw [Representation.rawOutcome] at found
    rw [measuredScript]
    split at found
    · rename_i collapses
      have observed : observe m.qudits b = (.ok raw, b₁) := found
      rw [if_pos collapses, observed]
      exact observe_done exact m.qudits raw observed
    · rename_i peeks
      rw [if_neg peeks]
      obtain ⟨_, _, drawn, found⟩ := Step.bind_done found
      cases drawn
      obtain ⟨_, _, read, found⟩ := Step.bind_done found
      cases read
      obtain ⟨_, _, sampled, found⟩ := Step.bind_done found
      obtain ⟨-, rfl⟩ := Step.ofExcept_done sampled
      cases found
      exact follows_still rfl
  exact ⟨(congrArg StabilizerState.frame kept).trans follows.frame, (congrArg StabilizerState.form kept).trans follows.form,
    follows.names⟩

theorem carry_done (exact : b.state.frame.Exact) (name : String) (qs : List Qudit) (r : Option (Resolution R))
    (done : Representation.carry name qs r b = (.ok (), b')) : Follows b (carriedScript b r) b' := by
  cases r with
  | none => cases done
  | some r =>
      cases r with
      | skip =>
          cases done
          exact follows_still rfl
      | measure m =>
          obtain ⟨values, _, measured, done⟩ := Step.bind_done done
          cases done
          exact measure_done exact m values measured
      | reset targets => exact reset_done exact targets done
      | stabilizer gates => exact gates_done exact name qs gates done
      | parts ops => cases done
      | unitary m => cases done
      | mixture branches key => cases done
      | channel ops key => cases done

mutual

theorem performAs_done (name : String) (qs : List Qudit) : ∀ (op : Operation R) (b b' : Bench (StabilizerState R)),
    b.state.frame.Exact → Representation.performAs name qs op b = (.ok (), b') → Follows b (script op b) b'
  | ⟨_, _, some (key, inner)⟩, b, b', exact, done => by
      rw [Representation.performAs] at done
      obtain ⟨_, _, read, done⟩ := Step.bind_done done
      cases read
      rw [script]
      split at done
      · rename_i holds
        rw [if_pos holds]
        exact performAs_done name qs inner b b' exact done
      · rename_i fails
        rw [if_neg fails]
        cases done
        exact follows_still rfl
  | ⟨c, some parts, none⟩, b, b', exact, done => by
      rw [Representation.performAs] at done
      rw [script]
      generalize c.resolve (some parts) (Representation.routes (StabilizerState R)) = resolved at done ⊢
      match resolved, done with
      | some (.parts _), done => exact performAll_done parts b b' exact done
      | some .skip, done | some (.measure _), done | some (.reset _), done | some (.unitary _), done
      | some (.mixture _ _), done | some (.channel _ _), done | some (.stabilizer _), done | none, done =>
          exact carry_done exact name qs _ done
  | ⟨c, none, none⟩, b, b', exact, done => by
      rw [Representation.performAs] at done
      rw [script]
      exact carry_done exact name qs _ done

theorem performAll_done : ∀ (ops : List (Operation R)) (b b' : Bench (StabilizerState R)),
    b.state.frame.Exact → Representation.performAll ops b = (.ok (), b') → Follows b (scriptAll ops b) b'
  | [], b, b', _, done => by
      cases done
      exact follows_still rfl
  | op :: ops, b, b', exact, done => by
      rw [Representation.performAll] at done
      obtain ⟨_, m, first, done⟩ := Step.bind_done done
      have follows := performAs_done op.name op.qudits op b m exact first
      rw [scriptAll, first]
      exact follows.trans (performAll_done ops m b' (follows.frame ▸ exact) done)

end

end StabilizerState

end QuantumRegister
