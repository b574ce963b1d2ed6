import QuantumRegister.Proofs.Operation
import QuantumRegister.Proofs.Register.Creation
import QuantumRegister.Proofs.Register.Shares

/-!
Work that may fail leaves the bookkeeping of a register in order, however far it gets.
-/

set_option autoImplicit false

namespace QuantumRegister

open QuantumRegister.SimError (Clean Ensures)
open QuantumRegister.Representation (frame)

namespace Register

variable {R S : Type}

theorem act_bind_apply {α β : Type} (act : Act R S α) (next : α → Act R S β) (w : Workspace R S) :
    (act >>= next) w = match act w with
      | (.ok a, w') => next a w'
      | (.error e, w') => (.error e, w') := by
  have unfolded : (act >>= next) w = ExceptT.bindCont next (act w).1 (act w).2 := rfl
  rw [unfolded]
  rcases act w with ⟨r, w'⟩
  cases r <;> rfl

theorem act_bind_done {α β : Type} {act : Act R S α} {next : α → Act R S β} {w w' : Workspace R S} {v : β}
    (done : (act >>= next) w = (.ok v, w')) : ∃ a m, act w = (.ok a, m) ∧ next a m = (.ok v, w') := by
  rw [act_bind_apply] at done
  generalize first : act w = outcome at done
  obtain ⟨e, m⟩ := outcome
  cases e with
  | ok a => exact ⟨a, m, rfl, done⟩
  | error e => cases done

theorem change_done {α : Type} {f : Register R S → Except (SimError R) (α × Register R S)} {w w' : Workspace R S} {a : α}
    (done : change f w = (.ok a, w')) : ∃ r, f w.register = .ok (a, r) ∧ w' = { w with register := r } := by
  rw [change] at done
  split at done
  · rename_i b r found
    cases done
    exact ⟨r, found, rfl⟩
  · cases done

variable [Representation R S] {s : Settings R} {r : Register R S}

theorem runOn_done {α : Type} {h : ℕ} {step : Step R S α} {w w' : Workspace R S} {a : α}
    (done : runOn h step w = (.ok a, w')) : ∃ t u, w.register.slots.get? h = some t
      ∧ step (Representation.bench t w.cells) = (.ok a, u)
      ∧ w'.register = { w.register with slots := w.register.slots.put h u.state } := by
  rw [runOn] at done
  split at done
  · cases done
  · rename_i t live
    generalize stepped : step (Representation.bench t w.cells) = outcome
    obtain ⟨e, u⟩ := outcome
    rw [Representation.run_of step t w.cells e u stepped] at done
    cases done
    exact ⟨t, u, live, stepped, rfl⟩

theorem runOn_vacant {α : Type} (h : ℕ) (step : Step R S α) (w : Workspace R S) (vacant : w.register.slots.get? h = none) :
    runOn h step w = (.error (.dangling h), w) := by
  rw [runOn, vacant]

theorem runOn_stepped {α : Type} (h : ℕ) (step : Step R S α) (w : Workspace R S) (valid : Arena s w.register) (t : S)
    (found : w.register.slots.get? h = some t) (e : Except (SimError R) α) (b : Bench S)
    (stepped : step (Representation.bench t w.cells) = (e, b)) :
    runOn h step w = (e, ⟨{ w.register with slots := w.register.slots.put h b.state },
      (w.cells.setSource w.register.source b.source).setLog w.register.log b.log⟩) := by
  obtain ⟨source, log⟩ := valid.wired h t found
  rw [runOn, found]
  dsimp only
  rw [Representation.run_of step t w.cells e b stepped, source, log]

theorem separate_on [Scalar R] (qs : List Qudit) (w : Workspace R S)
    (both : (w.register.split && Representation.allowsFactoring S) = true) : separate qs w = ((w.register.splitAll qs).1, { w with register := (w.register.splitAll qs).2 }) := by
  rw [separate, if_pos both]

theorem separate_off [Scalar R] (qs : List Qudit) (w : Workspace R S)
    (off : ¬(w.register.split && Representation.allowsFactoring S) = true) : separate qs w = (.ok (), w) := by
  rw [separate, if_neg off]

def Meets {α : Type} (s : Settings R) (P : Register R S → Prop) (act : Act R S α) (Q : α → Register R S → Prop) : Prop :=
  ∀ w, P w.register → Arena s (act w).2.register ∧ Clean (act w).1 ∧ ∀ a, (act w).1 = .ok a → Q a (act w).2.register

theorem meets_bind {α β : Type} {P : Register R S → Prop} {Q : α → Register R S → Prop} {T : β → Register R S → Prop}
    {act : Act R S α} {next : α → Act R S β} (first : Meets s P act Q) (rest : ∀ a, Meets s (Q a) (next a) T) :
    Meets s P (act >>= next) T := by
  intro w before
  have middle := first w before
  rw [act_bind_apply]
  generalize act w = outcome at middle ⊢
  obtain ⟨r, w'⟩ := outcome
  obtain ⟨valid, clean, found⟩ := middle
  cases r with
  | ok a => exact rest a w' (found a rfl)
  | error e => exact ⟨valid, SimError.clean_passed _ e clean rfl, fun _ same => by cases same⟩

theorem meets_pure {α : Type} (P : Register R S → Prop) (a : α) (Q : α → Register R S → Prop) (valid : ∀ r, P r → Arena s r)
    (held : ∀ r, P r → Q a r) : Meets s P (pure a : Act R S α) Q := by
  intro w before
  exact ⟨valid _ before, SimError.clean_ok a, fun _ same => by cases same; exact held _ before⟩

theorem meets_change {α : Type} {Q : α → Register R S → Prop} (f : Register R S → Except (SimError R) (α × Register R S))
    (held : ∀ r, Arena s r → Ensures (fun p => Arena s p.2 ∧ Q p.1 p.2) (f r)) : Meets s (Arena s) (change f) Q := by
  intro w valid
  obtain ⟨clean, found⟩ := held w.register valid
  rw [change]
  split
  · rename_i a r' done
    obtain ⟨after, post⟩ := found (a, r') done
    exact ⟨after, SimError.clean_ok a, fun _ same => by cases same; exact post⟩
  · rename_i e failed
    exact ⟨valid, SimError.clean_passed _ e clean failed, fun _ same => by cases same⟩

theorem meets_runOn {α : Type} (h : ℕ) (step : Step R S α) (keeps : ∀ f, Step.Keeps f step) :
    Meets s (fun r => Arena s r ∧ ∃ t, r.slots.get? h = some t) (runOn h step) fun _ => Arena s := by
  rintro w ⟨valid, t, live⟩
  obtain ⟨same, clean⟩ := Representation.run_keeps step t w.cells (keeps _)
  have after := valid.put h t (Representation.run step t w.cells).2.1 live (by rw [same]; exact valid.exact h t live)
    (by rw [same]) (by rw [same]) fun q => by rw [Representation.qudits, same]; rfl
  have run : runOn h step w = ((Representation.run step t w.cells).1,
      ⟨{ w.register with slots := w.register.slots.put h (Representation.run step t w.cells).2.1 },
        (Representation.run step t w.cells).2.2⟩) := by
    rw [runOn, live]
  rw [run]
  exact ⟨after, clean, fun _ _ => after⟩

theorem Arena.checkTargets (valid : Arena s r) (qs : List Qudit) : Clean (r.checkTargets qs) := by
  refine SimError.clean_bind _ _ (valid.ownersOf qs).1 fun hs _ => ?_
  intro h
  split <;> simp

theorem Arena.checkTargets_names (valid : Arena s r) (qs : List Qudit) (checked : r.checkTargets qs = .ok ()) :
    Names r.qudits qs := by
  obtain ⟨hs, found, checked⟩ := SimError.bind_ok checked
  obtain ⟨-, -, owned⟩ := (valid.ownersOf qs).2 hs found
  refine ⟨?_, fun q listed => ?_⟩
  · split at checked
    · cases checked
    · rename_i none
      exact (Qudit.repeatedAfter_none [] qs none).1
  · obtain ⟨h, -, owns⟩ := owned q listed
    exact valid.holdings_listed h q owns

theorem Arena.checkTargets_done (valid : Arena s r) (qs : List Qudit) (names : Names r.qudits qs) : r.checkTargets qs = .ok () := by
  obtain ⟨hs, found⟩ := valid.owners_found qs names.inside
  rw [Register.checkTargets, found]
  simp only [bind, Except.bind, Qudit.firstRepeated_none qs names.once]

variable [Scalar R]

theorem apply_swap (a b : Qudit) : (apply (Gate.swap a b : Gate R).operation : Act R S Unit) = change (fun r => do
    r.checkTargets [a, b]
    return ((), r)) >>= fun _ => change fun r => do return ((), ← r.exchange a b) := rfl

variable [LawfulRepresentation R S]

theorem meets_separate (qs : List Qudit) : Meets s (Arena s) (separate qs : Act R S Unit) fun _ => Arena s := by
  intro w valid
  rw [separate]
  split
  · rename_i both
    have split : w.register.split = true := (Bool.and_eq_true_iff.mp both).1
    obtain ⟨clean, after⟩ := valid.splitAll split qs
    exact ⟨after, clean, fun _ _ => after⟩
  · exact ⟨valid, SimError.clean_ok (), fun _ _ => valid⟩

theorem meets_applyMerged (op : Operation R) : Meets s (Arena s) (applyMerged op : Act R S Unit) fun _ => Arena s := by
  refine meets_bind (meets_change (Q := fun h r => Arena s r ∧ ∃ t, r.slots.get? h = some t) _ fun r valid => ?_) fun h => ?_
  · obtain ⟨clean, merged⟩ := valid.merge op.qudits
    refine ⟨clean, fun p done => ?_⟩
    obtain ⟨after, t, live, -⟩ := merged p done
    exact ⟨after, after, t, live⟩
  · refine meets_bind (meets_runOn h _ fun f => Representation.keeps_performAs op.name op.qudits op) fun _ => ?_
    split
    · exact meets_separate op.qudits
    · exact meets_pure _ () _ (fun _ valid => valid) fun _ valid => valid

theorem meets_apply (op : Operation R) : Meets s (Arena s) (apply op : Act R S Unit) fun _ => Arena s := by
  rw [apply]
  split
  · exact meets_pure _ () _ (fun _ valid => valid) fun _ valid => valid
  · refine meets_bind (meets_change (Q := fun _ => Arena s) _ fun r valid => ?_) fun _ => ?_
    · exact SimError.ensures_bind (SimError.ensures_clean _ (valid.checkTargets op.qudits)) fun _ _ =>
        SimError.ensures_ok _ _ ⟨valid, valid⟩
    · split
      · rename_i a b _ _
        refine meets_change _ fun r valid => ?_
        exact SimError.ensures_bind (valid.exchange a b) fun r' after => SimError.ensures_ok _ _ ⟨after, after⟩
      · exact meets_applyMerged op

theorem meets_applyAll (ops : List (Operation R)) : Meets s (Arena s) (applyAll ops : Act R S Unit) fun _ => Arena s := by
  induction ops with
  | nil => exact meets_pure _ () _ (fun _ valid => valid) fun _ valid => valid
  | cons op ops ih => exact meets_bind (meets_apply op) fun _ => ih

end Register

end QuantumRegister
