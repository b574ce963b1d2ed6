import QuantumRegister.Proofs.Cells
import QuantumRegister.Proofs.Register.Alike
import QuantumRegister.Proofs.Register.Work

/-!
Two registers that are alike, with equal logs and at the same place of their sources. All work gives
the same answers on both and leaves them so, and it touches no cells but those of the register that it
works on.
-/

set_option autoImplicit false

namespace QuantumRegister

open QuantumRegister.SimError (Agree agree_ok agree_refl agree_bind)
open QuantumRegister.Random (Source)
open QuantumRegister.Representation (frame)

/-! The cells of one register. -/

namespace Cells

structure Holds (p : Wiring) (c : Cells) : Prop where
  source : p.source.id < c.sources.size
  log : p.log.id < c.logs.size

structure Local (p : Wiring) (c c' : Cells) : Prop where
  sources : c'.sources.size = c.sources.size
  logs : c'.logs.size = c.logs.size
  source : ∀ h, h ≠ p.source → c'.source h = c.source h
  log : ∀ l, l ≠ p.log → c'.log l = c.log l

def written (p : Wiring) (c : Cells) (s : Source) (l : Log) : Cells := (c.setSource p.source s).setLog p.log l

variable {p : Wiring} {c c' c'' : Cells}

theorem Local.refl (p : Wiring) (c : Cells) : Local p c c := ⟨rfl, rfl, fun _ _ => rfl, fun _ _ => rfl⟩

theorem Local.trans (first : Local p c c') (second : Local p c' c'') : Local p c c'' :=
  ⟨second.sources.trans first.sources, second.logs.trans first.logs,
    fun h other => (second.source h other).trans (first.source h other),
    fun l other => (second.log l other).trans (first.log l other)⟩

theorem Local.holds (only : Local p c c') {q : Wiring} (holds : Holds q c) : Holds q c' :=
  ⟨only.sources ▸ holds.source, only.logs ▸ holds.log⟩

theorem local_written (p : Wiring) (c : Cells) (s : Source) (l : Log) : Local p c (c.written p s l) :=
  ⟨sources_setSource s, logs_setLog l, fun _ other => source_other s other, fun _ other => log_other l other⟩

theorem written_log (p : Wiring) (c : Cells) (l : Log) : c.setLog p.log l = c.written p (c.source p.source) l := by
  rw [written, setSource_self]

theorem written_source (p : Wiring) (c : Cells) (τ : Source) : c.setSource p.source τ = c.written p τ (c.log p.log) :=
  ((c.setSource p.source τ).setLog_self p.log).symm

theorem written_wired {R S : Type} {r : Register R S} (wired : r.wiring = p) (c : Cells) (τ : Source) (l : Log) :
    (c.setSource r.source τ).setLog r.log l = c.written p τ l := wired ▸ rfl

theorem Holds.source_written (holds : Holds p c) (s : Source) (l : Log) : (c.written p s l).source p.source = s :=
  Cells.source_written holds.source s

theorem Holds.log_written (holds : Holds p c) (s : Source) (l : Log) : (c.written p s l).log p.log = l :=
  Cells.log_written holds.log l

end Cells

open QuantumRegister.Cells (Holds Local)

namespace Register

variable {R S : Type} [Representation R S] [Readable S]

-- Both sources stand at the same place after `σ`.
structure Twin (s : Settings R) (p p' : Wiring) (σ : Source) (w w' : Workspace R S) : Prop where
  first : Arena s w.register
  second : Arena s w'.register
  alike : Alike p p' w.register w'.register
  log : w'.cells.log p'.log = w.cells.log p.log
  source : ∃ n, w.cells.source p.source = σ.skip n ∧ w'.cells.source p'.source = σ.skip n
  live : Holds p w.cells
  live' : Holds p' w'.cells

variable {s : Settings R} {p p' : Wiring} {σ : Source} {w w' : Workspace R S}

theorem Twin.same_source (twin : Twin s p p' σ w w') : w'.cells.source p'.source = w.cells.source p.source := by
  obtain ⟨n, first, second⟩ := twin.source
  rw [first, second]

theorem Twin.here (twin : Twin s p p' σ w w') : Twin s p p' (w.cells.source p.source) w w' :=
  ⟨twin.first, twin.second, twin.alike, twin.log, ⟨0, rfl, twin.same_source⟩, twin.live, twin.live'⟩

theorem Twin.alone (twin : Twin s p p' σ w w') :
    Twin s w.register.wiring w.register.wiring (w.cells.source w.register.source) w w := by
  have live : Holds w.register.wiring w.cells := twin.alike.first.symm ▸ twin.live
  refine ⟨twin.first, twin.first, alike_refl w.register fun h t found => ?_, rfl, ⟨0, rfl, rfl⟩, live, live⟩
  obtain ⟨u, -, like⟩ := twin.alike.slots.found h t found
  exact like.first

theorem Twin.bench (twin : Twin s p p' σ w w') (h : ℕ) (t t' : S) (found : w.register.slots.get? h = some t)
    (found' : w'.register.slots.get? h = some t') (like : Like t t') :
    Bench.Alike (frame t) σ (Representation.bench t w.cells) (Representation.bench t' w'.cells) := by
  obtain ⟨source, log⟩ := twin.first.wired h t found
  obtain ⟨source', log'⟩ := twin.second.wired h t' found'
  have same := twin.alike.first
  have same' := twin.alike.second
  refine ⟨rfl, ?_, ?_, like⟩
  · rw [Representation.bench, Representation.bench, source, source']
    subst same same'
    exact twin.source
  · rw [Representation.bench, Representation.bench, log, log']
    subst same same'
    exact twin.log

theorem Twin.registers (twin : Twin s p p' σ w w') (r r' : Register R S) (first : Arena s r) (second : Arena s r')
    (alike : Alike p p' r r') : Twin s p p' σ { w with register := r } { w' with register := r' } :=
  ⟨first, second, alike, twin.log, twin.source, twin.live, twin.live'⟩

theorem Twin.refilled (twin : Twin s p p' σ w w') (c c' : Cells) (live : Holds p c) (live' : Holds p' c')
    (log : c'.log p'.log = c.log p.log) (source : ∃ n, c.source p.source = σ.skip n ∧ c'.source p'.source = σ.skip n) :
    Twin s p p' σ { w with cells := c } { w' with cells := c' } :=
  ⟨twin.first, twin.second, twin.alike, log, source, live, live'⟩

theorem Twin.written (twin : Twin s p p' σ w w') (τ τ' : Source) (l l' : Log) (moved : ∃ n, τ = σ.skip n ∧ τ' = σ.skip n)
    (same : l' = l) :
    Twin s p p' σ { w with cells := w.cells.written p τ l } { w' with cells := w'.cells.written p' τ' l' } := by
  have live := (Cells.local_written p w.cells τ l).holds twin.live
  have live' := (Cells.local_written p' w'.cells τ' l').holds twin.live'
  refine twin.refilled _ _ live live' ?_ ?_
  · rw [twin.live.log_written, twin.live'.log_written, same]
  · rw [twin.live.source_written, twin.live'.source_written]
    exact moved

/-! Work that cannot tell two twins apart. -/

def Uniform {β : Type} (s : Settings R) (work : Workspace R S → β × Workspace R S) : Prop :=
  ∀ p p' σ w w', Twin s p p' σ w w' → (work w').1 = (work w).1 ∧ Twin s p p' σ (work w).2 (work w').2
    ∧ Local p w.cells (work w).2.cells ∧ Local p' w'.cells (work w').2.cells

theorem uniform_answer {β γ : Type} (form : β → γ) (work : Workspace R S → β × Workspace R S) (uniform : Uniform s work) :
    Uniform s fun w => (form (work w).1, (work w).2) := by
  intro p p' σ w w' twin
  obtain ⟨same, rest⟩ := uniform p p' σ w w' twin
  exact ⟨congrArg form same, rest⟩

theorem uniform_pure {α : Type} (a : α) : Uniform s (pure a : Act R S α) :=
  fun _ _ _ w w' twin => ⟨rfl, twin, .refl _ w.cells, .refl _ w'.cells⟩

theorem uniform_bind {α β : Type} {act : Act R S α} {next : α → Act R S β} (first : Uniform s act)
    (rest : ∀ a, Uniform s (next a)) : Uniform s (act >>= next) := by
  intro p p' σ w w' twin
  obtain ⟨same, middle, only, only'⟩ := first p p' σ w w' twin
  rw [act_bind_apply, act_bind_apply]
  generalize act w = x at same middle only ⊢
  generalize act w' = y at same middle only' ⊢
  obtain ⟨e, m⟩ := x
  obtain ⟨e', m'⟩ := y
  cases same
  cases e with
  | ok a =>
      obtain ⟨answer, after, further, further'⟩ := rest a p p' σ m m' middle
      exact ⟨answer, after, only.trans further, only'.trans further'⟩
  | error e => exact ⟨rfl, middle, only, only'⟩

theorem uniform_change {α : Type} (f : Register R S → Except (SimError R) (α × Register R S))
    (keeps : ∀ r m, Arena s r → f r = .ok m → Arena s m.2)
    (agrees : ∀ p p' r r', Arena s r → Alike p p' r r' → Agree (Moved p p') (f r) (f r')) : Uniform s (change f) := by
  intro p p' σ w w' twin
  rw [change, change]
  obtain ⟨⟨a, r⟩, ⟨a', r'⟩, done, done', same, alike⟩ | ⟨e, failed, failed'⟩ :=
    agrees p p' w.register w'.register twin.first twin.alike
  · rw [done, done']
    have first := keeps w.register _ twin.first done
    have second := keeps w'.register _ twin.second done'
    exact ⟨congrArg Except.ok same, twin.registers r r' first second alike, .refl p w.cells, .refl p' w'.cells⟩
  · rw [failed, failed']
    exact ⟨rfl, twin, .refl p w.cells, .refl p' w'.cells⟩

theorem uniform_ask {α : Type} (f : Register R S → Except (SimError R) α)
    (same : ∀ p p' r r', Alike p p' r r' → f r' = f r) : Uniform s (change fun r => do return (← f r, r)) := by
  refine uniform_change _ (fun r m valid done => ?_) fun p p' r r' _ alike => ?_
  · obtain ⟨a, -, done⟩ := SimError.bind_ok done
    cases done
    exact valid
  · rw [same p p' r r' alike]
    refine agree_bind (agree_refl _) fun a _ _ _ equal => ?_
    exact agree_ok _ _ ⟨equal.symm, alike⟩

theorem uniform_runOn {α : Type} (h : ℕ) (step : Step R S α) (keeps : ∀ f, Step.Keeps f step)
    (same : ∀ f, Step.Matches f Eq step step) : Uniform s (runOn h step) := by
  intro p p' σ w w' twin
  cases found : w.register.slots.get? h with
  | none =>
      rw [runOn_vacant h step w found, runOn_vacant h step w' (twin.alike.slots.vacant h found)]
      exact ⟨rfl, twin, .refl p w.cells, .refl p' w'.cells⟩
  | some t =>
      obtain ⟨t', found', like⟩ := twin.alike.slots.found h t found
      obtain ⟨answers, after⟩ := same _ _ _ _ (twin.bench h t t' found found' like)
      have first := (meets_runOn h step keeps w ⟨twin.first, t, found⟩).1
      have second := (meets_runOn h step keeps w' ⟨twin.second, t', found'⟩).1
      generalize stepped : step (Representation.bench t w.cells) = x at answers after
      generalize stepped' : step (Representation.bench t' w'.cells) = y at answers after
      obtain ⟨e, b⟩ := x
      obtain ⟨e', b'⟩ := y
      rw [runOn_stepped h step w twin.first t found e b stepped, Cells.written_wired twin.alike.first] at first ⊢
      rw [runOn_stepped h step w' twin.second t' found' e' b' stepped', Cells.written_wired twin.alike.second] at second ⊢
      have alike := twin.alike.setSlots _ _ (twin.alike.slots.put h b.state b'.state after.state)
      exact ⟨answers.eq.symm, (twin.written _ _ _ _ after.source after.log).registers _ _ first second alike,
        Cells.local_written p w.cells b.source b.log, Cells.local_written p' w'.cells b'.source b'.log⟩

variable [Scalar R] [LawfulRepresentation R S] [UniformRepresentation R S]

theorem uniform_separate (qs : List Qudit) : Uniform s (separate qs : Act R S Unit) := by
  intro p p' σ w w' twin
  by_cases both : (w.register.split && Representation.allowsFactoring S) = true
  · have split := (Bool.and_eq_true_iff.mp both).1
    obtain ⟨answer, alike⟩ := twin.alike.splitAll qs
    have first := (twin.first.splitAll split qs).2
    have second := (twin.second.splitAll (twin.alike.split.trans split) qs).2
    rw [separate_on qs w both, separate_on qs w' (twin.alike.split.symm ▸ both)]
    exact ⟨answer, twin.registers _ _ first second alike, .refl p w.cells, .refl p' w'.cells⟩
  · rw [separate_off qs w both, separate_off qs w' (twin.alike.split.symm ▸ both)]
    exact ⟨rfl, twin, .refl p w.cells, .refl p' w'.cells⟩

/-! Operations. -/

theorem uniform_merge (qs : List Qudit) : Uniform s (change (·.merge qs) : Act R S ℕ) :=
  uniform_change _ (fun _ m valid done => ((valid.merge qs).2 m done).1) fun _ _ _ _ _ alike => alike.merge qs

theorem uniform_perform (h : ℕ) (op : Operation R) : Uniform s (runOn h (Representation.perform op) : Act R S Unit) :=
  uniform_runOn h _ (fun _ => Representation.keeps_performAs op.name op.qudits op)
    fun _ => Representation.matches_performAs op.name op.qudits op

omit [Scalar R] [LawfulRepresentation R S] [UniformRepresentation R S] in
theorem uniform_checkTargets (qs : List Qudit) : Uniform s (change fun r => do
    r.checkTargets qs
    return ((), r) : Act R S Unit) :=
  uniform_ask (fun r => r.checkTargets qs) fun _ _ _ _ alike => alike.checkTargets qs

theorem uniform_applyMerged (op : Operation R) : Uniform s (applyMerged op : Act R S Unit) := by
  refine uniform_bind (uniform_merge op.qudits) fun h => uniform_bind (uniform_perform h op) fun _ => ?_
  split
  · exact uniform_separate op.qudits
  · exact uniform_pure ()

theorem uniform_apply (op : Operation R) : Uniform s (apply op : Act R S Unit) := by
  rw [apply]
  split
  · exact uniform_pure ()
  · refine uniform_bind (uniform_checkTargets op.qudits) fun _ => ?_
    split
    · rename_i a b _ _
      refine uniform_change _ (fun r m valid done => ?_) fun p p' r r' valid alike => ?_
      · obtain ⟨r', exchanged, done⟩ := SimError.bind_ok done
        cases done
        exact (valid.exchange a b).2 r' exchanged
      · exact agree_bind (alike.exchange valid a b) fun r₁ r₁' _ _ after => agree_ok _ _ ⟨rfl, after⟩
    · exact uniform_applyMerged op

theorem uniform_applyAll (ops : List (Operation R)) : Uniform s (applyAll ops : Act R S Unit) := by
  induction ops with
  | nil => exact uniform_pure ()
  | cons op ops ih => exact uniform_bind (uniform_apply op) fun _ => ih

end Register

end QuantumRegister
