import Mathlib
import QuantumRegister.Cells

/-!
Reading and writing the cells of sources and logs.
-/

set_option autoImplicit false

namespace QuantumRegister.Cells

theorem set_getD {α : Type} (xs : Array α) (i : ℕ) (d : α) : xs.setIfInBounds i (xs.getD i d) = xs := by
  refine Array.ext (by simp) fun j inside bound => ?_
  rw [Array.getElem_setIfInBounds bound]
  by_cases here : i = j
  · subst here
    simp [bound]
  · rw [if_neg here]

theorem setSource_self (c : Cells) (h : SourceRef) : c.setSource h (c.source h) = c := by rw [setSource, source, set_getD]

theorem setLog_self (c : Cells) (l : LogRef) : c.setLog l (c.log l) = c := by rw [setLog, log, set_getD]

theorem written_back (c : Cells) (h : SourceRef) (l : LogRef) : (c.setSource h (c.source h)).setLog l (c.log l) = c := by
  rw [setSource_self, setLog_self]

/-! A cell that is written reads what was written, the others read what they did. -/

variable {c : Cells} {h k : SourceRef} {l m : LogRef}

theorem source_written (inside : h.id < c.sources.size) (s : Random.Source) : (c.setSource h s).source h = s := by
  simp [source, setSource, inside]

theorem source_other (s : Random.Source) (other : k ≠ h) : (c.setSource h s).source k = c.source k := by
  have apart : h.id ≠ k.id := fun same => other (congrArg SourceRef.mk same.symm)
  simp [source, setSource, apart]

theorem log_written (inside : l.id < c.logs.size) (t : Log) : (c.setLog l t).log l = t := by
  simp [log, setLog, inside]

theorem log_other (t : Log) (other : m ≠ l) : (c.setLog l t).log m = c.log m := by
  have apart : l.id ≠ m.id := fun same => other (congrArg LogRef.mk same.symm)
  simp [log, setLog, apart]

@[simp] theorem sources_setSource (s : Random.Source) : (c.setSource h s).sources.size = c.sources.size :=
  Array.size_setIfInBounds

@[simp] theorem logs_setLog (t : Log) : (c.setLog l t).logs.size = c.logs.size := Array.size_setIfInBounds

/-! New cells leave the others as they are. -/

theorem source_new (c : Cells) (s : Random.Source) : (c.newSource s).2.source (c.newSource s).1 = s := by
  simp [source, newSource]

theorem source_kept (inside : h.id < c.sources.size) (s : Random.Source) : (c.newSource s).2.source h = c.source h := by
  simp [source, newSource, Array.getElem?_push, Nat.ne_of_lt inside]

theorem log_new (c : Cells) (t : Log) : (c.newLog t).2.log (c.newLog t).1 = t := by
  simp [log, newLog]

theorem log_kept (inside : l.id < c.logs.size) (t : Log) : (c.newLog t).2.log l = c.log l := by
  simp [log, newLog, Array.getElem?_push, Nat.ne_of_lt inside]

theorem grown_size {α : Type} (xs : Array α) (a : α) : xs.size ≤ (xs.push a).size := by simp

/-- No cell is given back, and what was in the cells is still there. -/
structure Grown (c d : Cells) : Prop where
  sources : c.sources.size ≤ d.sources.size
  logs : c.logs.size ≤ d.logs.size
  source : ∀ h : SourceRef, h.id < c.sources.size → d.source h = c.source h
  log : ∀ l : LogRef, l.id < c.logs.size → d.log l = c.log l

theorem Grown.refl (c : Cells) : c.Grown c := ⟨le_rfl, le_rfl, fun _ _ => rfl, fun _ _ => rfl⟩

theorem Grown.trans (b c d : Cells) (first : b.Grown c) (second : c.Grown d) : b.Grown d where
  sources := first.sources.trans second.sources
  logs := first.logs.trans second.logs
  source h inside := (second.source h (inside.trans_le first.sources)).trans (first.source h inside)
  log l inside := (second.log l (inside.trans_le first.logs)).trans (first.log l inside)

theorem grown_newSource (c : Cells) (s : Random.Source) : c.Grown (c.newSource s).2 :=
  ⟨grown_size _ _, le_rfl, fun _ inside => source_kept inside s, fun _ _ => rfl⟩

theorem grown_newLog (c : Cells) (t : Log) : c.Grown (c.newLog t).2 :=
  ⟨le_rfl, grown_size _ _, fun _ _ => rfl, fun _ inside => log_kept inside t⟩

end QuantumRegister.Cells
