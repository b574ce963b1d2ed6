import QuantumRegister.Proofs.Register.Twins
import QuantumRegister.Register.Sample

/-!
All that can be asked of a register from outside, answered alike by registers that are alike; and the
registers that such commands and copies lead to.
-/

set_option autoImplicit false

namespace QuantumRegister

open QuantumRegister.Cells (Holds)
open QuantumRegister.Random (Source Draw Reads)
open QuantumRegister.Readable (Full)

namespace Register

variable {R S : Type}

def write (edit : Log.Edit R Unit) : Act R S Unit := fun w =>
  ((edit (w.cells.log w.register.log)).1, { w with cells := w.cells.setLog w.register.log (edit (w.cells.log w.register.log)).2 })

def drawn {α : Type} (d : Draw α) : Act R S α := fun w =>
  (.ok (w.cells.draw w.register.source d).1, { w with cells := (w.cells.draw w.register.source d).2 })

theorem write_apply (edit : Log.Edit R Unit) (w : Workspace R S) :
    write edit w = ((edit (w.cells.log w.register.log)).1, { w with
      cells := w.cells.written w.register.wiring (w.cells.source w.register.source) (edit (w.cells.log w.register.log)).2 }) :=
  congrArg (fun c => (_, Workspace.mk w.register c)) (Cells.written_log w.register.wiring w.cells _)

theorem drawn_apply {α : Type} (d : Draw α) (w : Workspace R S) :
    (drawn d : Act R S α) w = (.ok (d (w.cells.source w.register.source)).1, { w with
      cells := w.cells.written w.register.wiring (d (w.cells.source w.register.source)).2 (w.cells.log w.register.log) }) :=
  congrArg (fun c => (Except.ok _, Workspace.mk w.register c)) (Cells.written_source w.register.wiring w.cells _)

theorem sample_seeded [Scalar R] [Representation R S] (qs : List Qudit) (repetitions seed : ℕ) :
    (sample qs repetitions (some seed) : Act R S (List (List ℕ)))
      = change fun r => do return (← r.rows qs repetitions seed, r) := by
  funext w
  rw [sample, change]
  cases w.register.rows qs repetitions seed <;> rfl

theorem sample_drawn [Scalar R] [Representation R S] (qs : List Qudit) (repetitions : ℕ) :
    (sample qs repetitions none : Act R S (List (List ℕ)))
      = drawn Random.drawDouble >>= fun seed => sample qs repetitions (some seed) := rfl

variable [Representation R S] [Readable S] {s : Settings R}

theorem uniform_write (edit : Log.Edit R Unit) : Uniform s (write edit : Act R S Unit) := by
  intro p p' σ w w' twin
  obtain rfl := twin.alike.first
  obtain rfl := twin.alike.second
  have same : w'.cells.log w'.register.log = w.cells.log w.register.log := twin.log
  rw [write_apply, write_apply, same]
  exact ⟨rfl, twin.written _ _ _ _ twin.source rfl, Cells.local_written _ w.cells _ _, Cells.local_written _ w'.cells _ _⟩

theorem uniform_drawn {α : Type} (d : Draw α) (reads : Reads d) : Uniform s (drawn d : Act R S α) := by
  intro p p' σ w w' twin
  obtain rfl := twin.alike.first
  obtain rfl := twin.alike.second
  have same : w'.cells.source w'.register.source = w.cells.source w.register.source := twin.same_source
  obtain ⟨n, here, -⟩ := twin.source
  obtain ⟨m, moved⟩ := reads (w.cells.source w.register.source)
  have further : (d (w.cells.source w.register.source)).2 = σ.skip (n + m) := by
    rw [moved, show w.cells.source w.register.source = σ.skip n from here, Source.skip_skip]
  rw [drawn_apply, drawn_apply, same]
  exact ⟨rfl, twin.written _ _ _ _ ⟨n + m, further, further⟩ twin.log, Cells.local_written _ w.cells _ _,
    Cells.local_written _ w'.cells _ _⟩

variable [Scalar R] [UniformRepresentation R S]

theorem uniform_sample (qs : List Qudit) (repetitions : ℕ) (seed : Option ℕ) :
    Uniform s (sample qs repetitions seed : Act R S (List (List ℕ))) := by
  have seeded (n : ℕ) : Uniform s (sample qs repetitions (some n) : Act R S (List (List ℕ))) := by
    rw [sample_seeded]
    exact uniform_ask _ fun p p' r r' alike => alike.rows qs repetitions n
  cases seed with
  | some n => exact seeded n
  | none =>
      rw [sample_drawn]
      exact uniform_bind (uniform_drawn _ Random.reads_drawDouble) seeded

end Register

open Register (Arena Alike Twin Uniform)

/-! Commands. -/

inductive Command (R : Type) where
  | apply (op : Operation R)
  | circuit (ops : List (Operation R))
  | sample (qs : List Qudit) (repetitions : ℕ) (seed : Option ℕ)
  | record (key : String) (qs : List Qudit) (values : List ℕ)
  | branch (key : String) (index : ℕ)
  | number

inductive Answer (R : Type) where
  | outcome (result : Except (SimError R) Unit)
  | rows (result : Except (SimError R) (List (List ℕ)))
  | number (result : Except (SimError R) ℕ)

variable {R S : Type}

def Answer.of {α : Type} (form : Except (SimError R) α → Answer R) (act : Act R S α) (w : Workspace R S) :
    Answer R × Workspace R S :=
  (form (act w).1, (act w).2)

namespace Command

variable [Scalar R] [Representation R S]

def run : Command R → Workspace R S → Answer R × Workspace R S
  | apply op => Answer.of .outcome (Register.apply op)
  | circuit ops => Answer.of .outcome (Register.applyAll ops)
  | sample qs repetitions seed => Answer.of .rows (Register.sample qs repetitions seed)
  | record key qs values => Answer.of .outcome (Register.write (Log.recordMeasurement key qs values))
  | branch key index => Answer.of .outcome (Register.write (modify fun l => l.recordBranch key index))
  | number => Answer.of .number (Register.drawn Random.drawDouble)

def runAll : List (Command R) → Workspace R S → List (Answer R) × Workspace R S
  | [], w => ([], w)
  | c :: cs, w =>
    let (a, w) := c.run w
    let (rest, w) := runAll cs w
    (a :: rest, w)

variable [Readable S] [LawfulRepresentation R S] [UniformRepresentation R S] {s : Settings R}

theorem uniform_run (c : Command R) : Uniform s (c.run : Workspace R S → Answer R × Workspace R S) := by
  cases c with
  | apply op => exact Register.uniform_answer _ _ (Register.uniform_apply op)
  | circuit ops => exact Register.uniform_answer _ _ (Register.uniform_applyAll ops)
  | sample qs repetitions seed => exact Register.uniform_answer _ _ (Register.uniform_sample qs repetitions seed)
  | record key qs values => exact Register.uniform_answer _ _ (Register.uniform_write _)
  | branch key index => exact Register.uniform_answer _ _ (Register.uniform_write _)
  | number => exact Register.uniform_answer _ _ (Register.uniform_drawn _ Random.reads_drawDouble)

end Command

/-! Copies. -/

-- What a copy does to the cells: its own stand as those of the original, and are its own.
structure Cells.Forked (deep : Bool) (p q : Wiring) (c c' : Cells) : Prop where
  source : c'.source q.source = c.source p.source
  log : c'.log q.log = c.log p.log
  source_kept : c'.source p.source = c.source p.source
  log_kept : c'.log p.log = c.log p.log
  holds : Holds q c'
  holds_kept : Holds p c'
  logs : q.log ≠ p.log
  sources : q.source = p.source ↔ deep = false

theorem Cells.Forked.grown {deep : Bool} {p q : Wiring} {c d e : Cells} (forked : Cells.Forked deep p q c d) (grown : d.Grown e) :
    Cells.Forked deep p q c e where
  source := (grown.source _ forked.holds.source).trans forked.source
  log := (grown.log _ forked.holds.log).trans forked.log
  source_kept := (grown.source _ forked.holds_kept.source).trans forked.source_kept
  log_kept := (grown.log _ forked.holds_kept.log).trans forked.log_kept
  holds := ⟨forked.holds.source.trans_le grown.sources, forked.holds.log.trans_le grown.logs⟩
  holds_kept := ⟨forked.holds_kept.source.trans_le grown.sources, forked.holds_kept.log.trans_le grown.logs⟩
  logs := forked.logs
  sources := forked.sources

-- The cells that the states are forked with come after those of the copied register.
theorem Register.copy_forked [Representation R S] (r : Register R S) (deep : Bool) (c : Cells) (live : Holds r.wiring c) :
    Cells.Forked deep r.wiring (r.copy deep c).1.wiring c (r.copy deep c).2 := by
  have grown (source : SourceRef) (log : LogRef) (d : Cells) : d.Grown (r.slots.mapWith (copyState deep source log) d).2 :=
    Slots.mapWith_state (copyState deep source log) Cells.Grown .refl Cells.Grown.trans
      (fun t e => Representation.grown_copy deep t e) r.slots d
  refine Cells.Forked.grown ?_ (grown _ _ _)
  have inside : r.source.id < c.sources.size := live.source
  have held : r.log.id < c.logs.size := live.log
  have fresh : (⟨c.logs.size⟩ : LogRef) ≠ r.log := fun same => Nat.ne_of_lt held (congrArg LogRef.id same).symm
  have pushed : c.logs.size < (c.logs.push (c.log r.log)).size := by simp
  cases deep with
  | false =>
      refine ⟨rfl, Cells.log_new c (c.log r.log), rfl, Cells.log_kept held _, ⟨inside, pushed⟩, ⟨inside, held.trans pushed⟩,
        fresh, ?_⟩
      exact ⟨fun _ => rfl, fun _ => rfl⟩
  | true =>
      have other : (⟨c.sources.size⟩ : SourceRef) ≠ r.source := fun same => Nat.ne_of_lt inside (congrArg SourceRef.id same).symm
      have stacked : c.sources.size < (c.sources.push (c.source r.source)).size := by simp
      refine ⟨Cells.source_new c (c.source r.source), Cells.log_new (c.newSource _).2 (c.log r.log), Cells.source_kept inside _,
        Cells.log_kept (c := (c.newSource _).2) held _, ⟨stacked, pushed⟩, ⟨inside.trans stacked, held.trans pushed⟩, fresh, ?_⟩
      exact ⟨fun same => absurd same other, fun shallow => by cases shallow⟩

variable [Representation R S] [Readable S]

theorem Register.Alike.copied [Scalar R] [LawfulRepresentation R S] [UniformRepresentation R S] {p : Wiring} {r : Register R S}
    (alike : Alike p p r r) (deep : Bool) (c : Cells) : Alike (r.copy deep c).1.wiring p (r.copy deep c).1 r := by
  refine ⟨⟨?_, rfl⟩, rfl, rfl, rfl, rfl, rfl, rfl, alike.second⟩
  rw [Register.slots_copy]
  refine List.forall₂_map_left_iff.mpr (List.forall₂_same.mpr fun cell member => ?_)
  have same := List.forall₂_same.mp alike.slots.cells cell member
  cases same with
  | none => exact .none
  | some like => exact .some (UniformRepresentation.like_duplicate deep _ _ _ like.first).symm

theorem Register.Twin.copied [Scalar R] [LawfulRepresentation R S] [UniformRepresentation R S] {s : Settings R}
    {w : Workspace R S} (twin : Twin s w.register.wiring w.register.wiring (w.cells.source w.register.source) w w) (deep : Bool) :
    Twin s (w.register.copy deep w.cells).1.wiring w.register.wiring (w.cells.source w.register.source)
      ⟨(w.register.copy deep w.cells).1, (w.register.copy deep w.cells).2⟩ w := by
  have forked := w.register.copy_forked deep w.cells twin.live
  exact ⟨twin.first.copy deep w.cells, twin.second, twin.alike.copied deep w.cells, forked.log.symm, ⟨0, forked.source, rfl⟩,
    forked.holds, twin.live⟩

/-! Registers that a program reaches, with all their cells. -/

section Held

variable [Scalar R] {s : Settings R} {w : Workspace R S}

-- Others may draw from the cells and write to them, or take new ones, but none is given back.
inductive Held (s : Settings R) : Workspace R S → Prop where
  | new (r : Register R S) (c c' : Cells) (made : Register.new s c = .ok (r, c')) : Held s ⟨r, c'⟩
  | run (w : Workspace R S) (c : Command R) (before : Held s w) : Held s (c.run w).2
  | copy (w : Workspace R S) (deep : Bool) (before : Held s w) :
      Held s ⟨(w.register.copy deep w.cells).1, (w.register.copy deep w.cells).2⟩
  | meanwhile (w : Workspace R S) (c : Cells) (before : Held s w) (sources : w.cells.sources.size ≤ c.sources.size)
      (logs : w.cells.logs.size ≤ c.logs.size) : Held s ⟨w.register, c⟩

variable [UniformRepresentation R S]

variable [LawfulRepresentation R S]

theorem twin_new (r : Register R S) (c c' : Cells) (made : Register.new s c = .ok (r, c')) :
    Twin s r.wiring r.wiring (c'.source r.source) ⟨r, c'⟩ ⟨r, c'⟩ := by
  have valid := Register.new_arena c c' made
  obtain ⟨qs, -, made⟩ := SimError.bind_ok made
  obtain ⟨states, built, made⟩ := SimError.bind_ok made
  cases made
  have full := Register.initialStates_all UniformRepresentation.full_basisState qs _ _ states built
  have live : Holds ⟨⟨c.sources.size⟩, ⟨c.logs.size⟩⟩ ((c.newSource (Source.ofSeed s.seed)).2.newLog Log.empty).2 := by
    constructor <;> simp [Cells.newSource, Cells.newLog]
  refine ⟨valid, valid, Register.alike_refl _ fun h t found => full t ?_, rfl, ⟨0, rfl, rfl⟩, live, live⟩
  rw [Register.get?_ofList] at found
  exact List.mem_of_getElem? found

theorem Held.twin (held : Held s w) : Twin s w.register.wiring w.register.wiring (w.cells.source w.register.source) w w := by
  induction held with
  | new r c c' made => exact twin_new r c c' made
  | run w c _ ih => exact (Command.uniform_run c _ _ _ w w ih).2.1.alone
  | copy w deep _ ih => exact (ih.copied deep).alone
  | meanwhile w c _ sources logs ih =>
      have live : Holds w.register.wiring c := ⟨ih.live.source.trans_le sources, ih.live.log.trans_le logs⟩
      exact ⟨ih.first, ih.second, ih.alike, rfl, ⟨0, rfl, rfl⟩, live, live⟩

end Held

end QuantumRegister
