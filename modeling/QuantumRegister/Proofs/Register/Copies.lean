import QuantumRegister.Proofs.Dense.Likeness
import QuantumRegister.Proofs.Register.Commands
import QuantumRegister.Proofs.Register.Reached
import QuantumRegister.Proofs.Stabilizer.Likeness

/-!
A register and its copy, worked on in any order. A deep copy and its original go on as if each were
alone. After a shallow copy they share one stream of random words, and nothing else.
-/

set_option autoImplicit false

namespace QuantumRegister

open QuantumRegister.Cells (Holds)
open QuantumRegister.Random (Source)
open QuantumRegister.Readable (content)
open QuantumRegister.Register (Twin)
open QuantumRegister.Representation (frame)

variable {R S : Type}

/-! What shows of a register. -/

namespace Workspace

def stream (w : Workspace R S) : Source := w.cells.source w.register.source

def fed (w : Workspace R S) (σ : Source) : Workspace R S := { w with cells := w.cells.setSource w.register.source σ }

theorem fed_stream (w : Workspace R S) : w.fed w.stream = w :=
  congrArg (Workspace.mk w.register) (w.cells.setSource_self w.register.source)

end Workspace

structure Observation (R S : Type) [Readable S] where
  joint : Except (SimError R) (Readable.Content S)
  states : List (List Qudit × Readable.Content S)
  owners : List (Qudit × ℕ)
  log : Log

section Observation

variable [Representation R S] [Readable S] {s : Settings R} {p p' : Wiring} {σ : Source} {w w' : Workspace R S}

theorem Register.Twin.streams (twin : Twin s p p' σ w w') :
    w.stream = w.cells.source p.source ∧ w'.stream = w'.cells.source p'.source := by
  obtain rfl := twin.alike.first
  obtain rfl := twin.alike.second
  exact ⟨rfl, rfl⟩

theorem Register.Twin.same_stream (twin : Twin s p p' σ w w') : w'.stream = w.stream := by
  rw [twin.streams.1, twin.streams.2, twin.same_source]

variable [Scalar R]

def Workspace.observed (w : Workspace R S) : Observation R S where
  joint := w.register.merged.map content
  states := w.register.states.map fun t => (Representation.qudits t, content t)
  owners := w.register.owners
  log := w.cells.log w.register.log

variable [UniformRepresentation R S]

theorem Register.Twin.observed (twin : Twin s p p' σ w w') : w'.observed = w.observed := by
  obtain rfl := twin.alike.first
  obtain rfl := twin.alike.second
  have joint : w'.register.merged.map content = w.register.merged.map content := by
    obtain ⟨t, u, first, second, same⟩ | ⟨e, first, second⟩ := twin.alike.merged
    · rw [first, second]
      exact congrArg Except.ok same.symm
    · rw [first, second]
  have states : List.Forall₂ Eq (w.register.states.map fun t => (Representation.qudits t, content t))
      (w'.register.states.map fun t => (Representation.qudits t, content t)) := by
    refine List.forall₂_map_left_iff.mpr (List.forall₂_map_right_iff.mpr ?_)
    exact twin.alike.slots.live.imp fun t u like => Prod.ext like.qudits.symm like.content
  rw [List.forall₂_eq_eq_eq] at states
  have log : w'.cells.log w'.register.log = w.cells.log w.register.log := twin.log
  rw [Workspace.observed, Workspace.observed, joint, states, twin.alike.owners, log]

end Observation

/-! Two registers on the same cells. -/

inductive Side where
  | original
  | copy
deriving DecidableEq

def own {α : Type} (d : Side) (xs : List (Side × α)) : List α := xs.filterMap fun x => if x.1 = d then some x.2 else none

theorem own_cons {α : Type} (d e : Side) (x : α) (xs : List (Side × α)) :
    own e ((d, x) :: xs) = (if e = d then [x] else []) ++ own e xs := by
  by_cases same : e = d
  · simp [own, same]
  · simp [own, same, Ne.symm same]

structure Pair (R S : Type) where
  registers : Side → Register R S
  cells : Cells

namespace Pair

def view (P : Pair R S) (d : Side) : Workspace R S := ⟨P.registers d, P.cells⟩

variable [Scalar R] [Representation R S]

def forked (deep : Bool) (w : Workspace R S) : Pair R S where
  registers
    | .original => w.register
    | .copy => (w.register.copy deep w.cells).1
  cells := (w.register.copy deep w.cells).2

def step (P : Pair R S) (d : Side) (c : Command R) : Answer R × Pair R S :=
  let (a, w) := c.run (P.view d)
  (a, ⟨Function.update P.registers d w.register, w.cells⟩)

def runAll (P : Pair R S) : List (Side × Command R) → List (Side × Answer R) × Pair R S
  | [] => ([], P)
  | (d, c) :: steps =>
    let (a, P) := P.step d c
    let (rest, P) := P.runAll steps
    ((d, a) :: rest, P)

theorem runAll_cons (P : Pair R S) (d : Side) (c : Command R) (steps : List (Side × Command R)) :
    P.runAll ((d, c) :: steps)
      = ((d, (P.step d c).1) :: ((P.step d c).2.runAll steps).1, ((P.step d c).2.runAll steps).2) := rfl

theorem runAll_append (P : Pair R S) (steps more : List (Side × Command R)) :
    (P.runAll (steps ++ more)).2 = ((P.runAll steps).2.runAll more).2 := by
  induction steps generalizing P with
  | nil => rfl
  | cons step steps ih => exact ih _

theorem view_self (P : Pair R S) (d : Side) (c : Command R) : (P.step d c).2.view d = (c.run (P.view d)).2 := by
  simp [step, view]

theorem view_other (P : Pair R S) (d e : Side) (c : Command R) (other : e ≠ d) :
    (P.step d c).2.view e = { P.view e with cells := (c.run (P.view d)).2.cells } := by
  simp [step, view, other]

end Pair

/-! Two registers on different cells. -/

section Apart

variable [Representation R S] [Readable S] {s : Settings R} {q q' : Side → Wiring} {σ : Side → Source} {P : Pair R S}
  {u : Side → Workspace R S}

-- Each side has a twin that knows nothing of the other side.
structure Apart (s : Settings R) (q q' : Side → Wiring) (σ : Side → Source) (P : Pair R S) (u : Side → Workspace R S) : Prop where
  twin : ∀ d, Twin s (q d) (q' d) (σ d) (P.view d) (u d)
  logs : ∀ d e, e ≠ d → (q e).log ≠ (q d).log
  sources : ∀ d e, e ≠ d → (q e).source ≠ (q d).source

variable [Scalar R] [LawfulRepresentation R S] [UniformRepresentation R S]

theorem Apart.step (apart : Apart s q q' σ P u) (d : Side) (c : Command R) :
    (P.step d c).1 = (c.run (u d)).1 ∧ Apart s q q' σ (P.step d c).2 (Function.update u d (c.run (u d)).2) := by
  obtain ⟨answer, after, only, -⟩ := c.uniform_run _ _ _ _ _ (apart.twin d)
  refine ⟨answer.symm, fun e => ?_, apart.logs, apart.sources⟩
  by_cases same : e = d
  · subst same
    rw [P.view_self, Function.update_self]
    exact after
  · have twin := apart.twin e
    rw [P.view_other d e c same, Function.update_of_ne same]
    refine twin.refilled _ (u e).cells (only.holds twin.live) twin.live' ?_ ?_
    · rw [only.log _ (apart.logs d e same)]
      exact twin.log
    · rw [only.source _ (apart.sources d e same)]
      exact twin.source

theorem Apart.runAll (apart : Apart s q q' σ P u) (steps : List (Side × Command R)) :
    (∀ d, own d (P.runAll steps).1 = (Command.runAll (own d steps) (u d)).1)
      ∧ Apart s q q' σ (P.runAll steps).2 fun d => (Command.runAll (own d steps) (u d)).2 := by
  induction steps generalizing P u with
  | nil => exact ⟨fun _ => rfl, apart⟩
  | cons step steps ih =>
      obtain ⟨d, c⟩ := step
      obtain ⟨answer, after⟩ := apart.step d c
      obtain ⟨answers, last⟩ := ih after
      have alone : ∀ e, Command.runAll (own e ((d, c) :: steps)) (u e)
          = ((if e = d then [(c.run (u d)).1] else [])
              ++ (Command.runAll (own e steps) (Function.update u d (c.run (u d)).2 e)).1,
            (Command.runAll (own e steps) (Function.update u d (c.run (u d)).2 e)).2) := by
        intro e
        rw [own_cons]
        by_cases same : e = d
        · subst same
          rw [Function.update_self, if_pos rfl, if_pos rfl]
          rfl
        · rw [Function.update_of_ne same, if_neg same, if_neg same]
          rfl
      refine ⟨fun e => ?_, ?_⟩
      · rw [P.runAll_cons, own_cons, alone, ← answers, answer]
      · simp only [alone]
        exact last

end Apart

/-! Two registers that hand one stream to each other. -/

/-- Each workspace has cells of its own; its source is put where the stream stands before each command. -/
structure Relay (R S : Type) where
  workspaces : Side → Workspace R S
  stream : Source

namespace Relay

variable [Scalar R] [Representation R S]

def step (L : Relay R S) (d : Side) (c : Command R) : Answer R × Relay R S :=
  let (a, w) := c.run ((L.workspaces d).fed L.stream)
  (a, ⟨Function.update L.workspaces d w, w.stream⟩)

def runAll (L : Relay R S) : List (Side × Command R) → List (Side × Answer R) × Relay R S
  | [] => ([], L)
  | (d, c) :: steps =>
    let (a, L) := L.step d c
    let (rest, L) := L.runAll steps
    ((d, a) :: rest, L)

theorem runAll_cons (L : Relay R S) (d : Side) (c : Command R) (steps : List (Side × Command R)) :
    L.runAll ((d, c) :: steps)
      = ((d, (L.step d c).1) :: ((L.step d c).2.runAll steps).1, ((L.step d c).2.runAll steps).2) := rfl

theorem fed_self (L : Relay R S) (d : Side) (c : Command R) :
    ((L.step d c).2.workspaces d).fed (L.step d c).2.stream = (c.run ((L.workspaces d).fed L.stream)).2 := by
  simp [step, Workspace.fed_stream]

theorem fed_other (L : Relay R S) (d e : Side) (c : Command R) (other : e ≠ d) :
    ((L.step d c).2.workspaces e).fed (L.step d c).2.stream = (L.workspaces e).fed (L.step d c).2.stream := by
  simp [step, other]

end Relay

section Shared

variable [Representation R S] [Readable S] {s : Settings R} {q q' : Side → Wiring} {σ τ : Source} {P : Pair R S} {L : Relay R S}
  {p p' : Wiring} {w u : Workspace R S}

theorem Register.Twin.refed (twin : Twin s p p' σ w (u.fed τ)) (τ' : Source) :
    Holds p' (u.fed τ').cells ∧ (u.fed τ').cells.source p'.source = τ' := by
  obtain rfl := twin.alike.second
  have inside : u.register.source.id < u.cells.sources.size := (Cells.sources_setSource τ).symm ▸ twin.live'.source
  exact ⟨⟨(Cells.sources_setSource τ').symm ▸ inside, twin.live'.log⟩, Cells.source_written inside τ'⟩

theorem Register.Twin.fed_source (twin : Twin s p p' σ w (u.fed τ)) : w.stream = τ := by
  rw [← twin.same_stream, twin.streams.2, (twin.refed τ).2]

-- Each side has a twin that shares nothing with the other side but the stream.
structure Shared (s : Settings R) (q q' : Side → Wiring) (σ : Source) (P : Pair R S) (L : Relay R S) : Prop where
  twin : ∀ d, Twin s (q d) (q' d) σ (P.view d) ((L.workspaces d).fed L.stream)
  logs : ∀ d e, e ≠ d → (q e).log ≠ (q d).log
  sources : ∀ d e, (q e).source = (q d).source

theorem Shared.moved (shared : Shared s q q' σ P L) : ∃ n, L.stream = σ.skip n := by
  have twin := shared.twin .original
  obtain ⟨n, first, -⟩ := twin.source
  exact ⟨n, twin.fed_source.symm.trans (twin.streams.1.trans first)⟩

theorem Shared.here (shared : Shared s q q' σ P L) : Shared s q q' L.stream P L := by
  refine ⟨fun d => ?_, shared.logs, shared.sources⟩
  have twin := shared.twin d
  exact twin.streams.1.symm.trans twin.fed_source ▸ twin.here

variable [Scalar R] [LawfulRepresentation R S] [UniformRepresentation R S]

theorem Shared.step (shared : Shared s q q' σ P L) (d : Side) (c : Command R) :
    (P.step d c).1 = (L.step d c).1 ∧ Shared s q q' σ (P.step d c).2 (L.step d c).2 := by
  obtain ⟨answer, after, only, -⟩ := c.uniform_run _ _ _ _ _ (shared.twin d)
  refine ⟨answer.symm, fun e => ?_, shared.logs, shared.sources⟩
  by_cases same : e = d
  · subst same
    rw [P.view_self, L.fed_self]
    exact after
  · have twin := shared.twin e
    obtain ⟨live, fed⟩ := twin.refed (L.step d c).2.stream
    rw [P.view_other d e c same, L.fed_other d e c same]
    refine twin.refilled _ _ (only.holds twin.live) live ?_ ?_
    · rw [only.log _ (shared.logs d e same)]
      exact twin.log
    · -- The other side finds the stream where this one left it.
      obtain ⟨n, first, second⟩ := after.source
      refine ⟨n, by rw [shared.sources d e, first], fed.trans ?_⟩
      exact after.streams.2.trans second

theorem Shared.runAll (shared : Shared s q q' σ P L) (steps : List (Side × Command R)) :
    (P.runAll steps).1 = (L.runAll steps).1 ∧ Shared s q q' σ (P.runAll steps).2 (L.runAll steps).2 := by
  induction steps generalizing P L with
  | nil => exact ⟨rfl, shared⟩
  | cons step steps ih =>
      obtain ⟨d, c⟩ := step
      obtain ⟨answer, after⟩ := shared.step d c
      obtain ⟨answers, last⟩ := ih after
      rw [P.runAll_cons, L.runAll_cons, answer, answers]
      exact ⟨rfl, last⟩

end Shared

/-! Copies. -/

section Copies

variable [Scalar R] [Representation R S] {s : Settings R}

structure Wired (deep : Bool) (P : Pair R S) : Prop where
  states : ∀ d h t, (P.registers d).slots.get? h = some t →
    (frame t).source = (P.registers d).source ∧ (frame t).log = (P.registers d).log
  logs : (P.registers .copy).log ≠ (P.registers .original).log
  sources : (P.registers .copy).source = (P.registers .original).source ↔ deep = false

variable [Readable S]

/-- What holds of a register and its copy, whatever is done to either of them and in which order. Each
side of a deep copy goes on as the register would have done alone. The sides of a shallow copy go on as
two registers that share nothing but pass one stream to and fro; the stream only ever moves on. -/
structure Isolated (w : Workspace R S) : Prop where
  deep : ∀ (steps : List (Side × Command R)) (d : Side),
    let together := (Pair.forked true w).runAll steps
    let alone := Command.runAll (own d steps) w
    own d together.1 = alone.1 ∧ (together.2.view d).observed = alone.2.observed ∧ (together.2.view d).stream = alone.2.stream
  shallow : ∀ steps : List (Side × Command R),
    let together := (Pair.forked false w).runAll steps
    let relay := (Relay.mk (fun _ => w) w.stream).runAll steps
    together.1 = relay.1
      ∧ ∀ d, (together.2.view d).observed = (relay.2.workspaces d).observed ∧ (together.2.view d).stream = relay.2.stream
  single : ∀ (steps more : List (Side × Command R)) (d e : Side), ∃ n,
    (((Pair.forked false w).runAll (steps ++ more)).2.view d).stream
      = (((Pair.forked false w).runAll steps).2.view e).stream.skip n
  wired : ∀ (deep : Bool) (steps : List (Side × Command R)), Wired deep ((Pair.forked deep w).runAll steps).2

variable [LawfulRepresentation R S] [UniformRepresentation R S] {w : Workspace R S}

-- Right after the copy both sides are twins of what the register was.
theorem Held.forked (held : Held s w) (deep : Bool) (d : Side) :
    Twin s ((Pair.forked deep w).registers d).wiring w.register.wiring w.stream ((Pair.forked deep w).view d) w := by
  have twin := held.twin
  have forked := w.register.copy_forked deep w.cells twin.live
  cases d with
  | original => exact twin.refilled _ w.cells forked.holds_kept twin.live forked.log_kept.symm ⟨0, forked.source_kept, rfl⟩
  | copy => exact twin.copied deep

theorem Side.apart {α : Type} (f : Side → α) (different : f .copy ≠ f .original) : ∀ d e : Side, e ≠ d → f e ≠ f d
  | .original, .original, other | .copy, .copy, other => absurd rfl other
  | .original, .copy, _ => different
  | .copy, .original, _ => different.symm

theorem Held.apart (held : Held s w) : Apart s (fun d => ((Pair.forked true w).registers d).wiring)
    (fun _ => w.register.wiring) (fun _ => w.stream) (Pair.forked true w) fun _ => w := by
  have forked := w.register.copy_forked true w.cells held.twin.live
  refine ⟨held.forked true, Side.apart (fun d => ((Pair.forked true w).registers d).log) forked.logs,
    Side.apart (fun d => ((Pair.forked true w).registers d).source) fun same => ?_⟩
  cases forked.sources.mp same

theorem Held.shared (held : Held s w) : Shared s (fun d => ((Pair.forked false w).registers d).wiring)
    (fun _ => w.register.wiring) w.stream (Pair.forked false w) ⟨fun _ => w, w.stream⟩ := by
  have forked := w.register.copy_forked false w.cells held.twin.live
  refine ⟨fun d => ?_, Side.apart (fun d => ((Pair.forked false w).registers d).log) forked.logs, fun d e => ?_⟩
  · rw [w.fed_stream]
    exact held.forked false d
  · cases d <;> cases e <;> rfl

theorem wired_of (held : Held s w) (deep : Bool) {q' : Side → Wiring} {σ : Side → Source} {P : Pair R S}
    {u : Side → Workspace R S}
    (twins : ∀ d, Twin s ((Pair.forked deep w).registers d).wiring (q' d) (σ d) (P.view d) (u d)) : Wired deep P := by
  have forked := w.register.copy_forked deep w.cells held.twin.live
  have kept : ∀ d, (P.registers d).wiring = ((Pair.forked deep w).registers d).wiring := fun d => (twins d).alike.first
  have logs := fun d => congrArg Wiring.log (kept d)
  have sources := fun d => congrArg Wiring.source (kept d)
  refine ⟨fun d => (twins d).first.wired, ?_, ?_⟩
  · exact fun same => forked.logs ((logs .copy).symm.trans (same.trans (logs .original)))
  · rw [← forked.sources]
    exact ⟨fun same => (sources .copy).symm.trans (same.trans (sources .original)),
      fun same => (sources .copy).trans (same.trans (sources .original).symm)⟩

theorem Held.isolated (held : Held s w) : Isolated w where
  deep steps d := by
    obtain ⟨answers, after⟩ := held.apart.runAll steps
    exact ⟨answers d, (after.twin d).observed.symm, (after.twin d).same_stream.symm⟩
  shallow steps := by
    obtain ⟨answers, after⟩ := held.shared.runAll steps
    exact ⟨answers, fun d => ⟨(after.twin d).observed.symm, (after.twin d).fed_source⟩⟩
  single steps more d e := by
    have after := (held.shared.runAll steps).2
    have last := (after.here.runAll more).2
    rw [Pair.runAll_append, (last.twin d).fed_source, (after.twin e).fed_source]
    exact last.moved
  wired deep steps := by
    cases deep with
    | true => exact wired_of held true (held.apart.runAll steps).2.twin
    | false => exact wired_of held false (held.shared.runAll steps).2.twin

end Copies

theorem copies_isolated {R : Type} [Scalar R] (s : Settings R) :
    (∀ w : Workspace R (DenseState R), Held s w → Isolated w) ∧ ∀ w : Workspace R (StabilizerState R), Held s w → Isolated w :=
  ⟨fun _ held => held.isolated, fun _ held => held.isolated⟩

theorem copies_isolated_pair :
    (∃ w : Workspace ℝ (DenseState ℝ), Held pairSettings w ∧ Isolated w)
      ∧ ∃ w : Workspace ℝ (StabilizerState ℝ), Held pairSettings w ∧ Isolated w := by
  let op : Operation ℝ := (Gate.cx (Qudit.qubit 0) (Qudit.qubit 1)).operation
  obtain ⟨r, c, made⟩ := pair_dense
  obtain ⟨r', c', made'⟩ := pair_stabilizer
  have held := Held.run _ (.apply op) (.new r {} c made)
  have held' := Held.run _ (.apply op) (.new r' {} c' made')
  obtain ⟨first, second⟩ := copies_isolated pairSettings
  exact ⟨⟨_, held, first _ held⟩, ⟨_, held', second _ held'⟩⟩

end QuantumRegister
