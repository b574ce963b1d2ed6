import QuantumRegister.Proofs.Register.Transition

/-!
The same register without splitting. An operation asks whether its register splits only after all its
other work, so that both registers are the same up to that question.
-/

set_option autoImplicit false

namespace QuantumRegister

open QuantumRegister.Representation (perform)

def Register.unsplit {R S : Type} (r : Register R S) : Register R S := { r with split := false }

def Workspace.unsplit {R S : Type} (w : Workspace R S) : Workspace R S := { w with register := w.register.unsplit }

namespace Register

/-! Work that does not ask whether the register splits. -/

section Blind

variable {R S α β : Type}

def Blind (act : Act R S α) : Prop := ∀ w, act w.unsplit = ((act w).1, (act w).2.unsplit)

theorem Blind.done {act : Act R S α} (blind : Blind act) {w m : Workspace R S} {a : α} (done : act w = (.ok a, m)) :
    act w.unsplit = (.ok a, m.unsplit) := by rw [blind w, done]

theorem blind_pure (a : α) : Blind (pure a : Act R S α) := fun _ => rfl

theorem blind_bind {act : Act R S α} {next : α → Act R S β} (first : Blind act) (rest : ∀ a, Blind (next a)) : Blind (act >>= next) := by
  intro w
  rw [act_bind_apply, act_bind_apply, first w]
  generalize act w = outcome
  obtain ⟨e, m⟩ := outcome
  cases e with
  | ok a => exact rest a m
  | error e => rfl

theorem blind_change {f : Register R S → Except (SimError R) (α × Register R S)}
    (same : ∀ r, f r.unsplit = (f r).map fun p => (p.1, p.2.unsplit)) : Blind (change f) := by
  intro w
  have asked : f w.unsplit.register = (f w.register).map fun p => (p.1, p.2.unsplit) := same w.register
  rw [change, change, asked]
  cases f w.register with
  | ok p => rfl
  | error e => rfl

theorem blind_runOn [Representation R S] (h : ℕ) (step : Step R S α) : Blind (runOn h step) := by
  intro w
  have here : w.unsplit.register.slots = w.register.slots := rfl
  rw [runOn, runOn, here]
  cases w.register.slots.get? h with
  | none => rfl
  | some t => rfl

theorem blind_check (qs : List Qudit) : Blind (check qs : Act R S Unit) := by
  refine blind_change fun r => ?_
  have checked : r.unsplit.checkTargets qs = r.checkTargets qs := rfl
  rw [checked]
  cases r.checkTargets qs with
  | error e => rfl
  | ok u => rfl

end Blind

/-! Changes of the partition. -/

section Partition

variable {R S : Type} [Representation R S] (r : Register R S)

theorem product_unsplit (first : S) (hs : List ℕ) : r.unsplit.product first hs = r.product first hs := by
  induction hs generalizing first with
  | nil => rfl
  | cons h hs ih =>
      rw [product, product]
      exact congrArg (r.state h >>= ·) (funext fun t => congrArg (Representation.kronecker first t >>= ·) (funext ih))

theorem merge_unsplit (qs : List Qudit) : r.unsplit.merge qs = (r.merge qs).map fun p => (p.1, p.2.unsplit) := by
  have owners : r.unsplit.ownersOf qs = r.ownersOf qs := rfl
  rw [merge, merge, owners]
  cases r.ownersOf qs with
  | error e => rfl
  | ok hs =>
      obtain _ | ⟨h, _ | ⟨k, rest⟩⟩ := hs
      · rfl
      · rfl
      · have state : r.unsplit.state h = r.state h := rfl
        simp only [bind, Except.bind, state]
        cases r.state h with
        | error e => rfl
        | ok t =>
            simp only [product_unsplit]
            cases r.product t (k :: rest) with
            | error e => rfl
            | ok v => rfl

theorem reframe_unsplit (h : ℕ) (change : Frame → Except (SimError R) Frame) :
    r.unsplit.reframe h change = (r.reframe h change).map unsplit := by
  have state : r.unsplit.state h = r.state h := rfl
  rw [reframe, reframe, state]
  cases r.state h with
  | error e => rfl
  | ok t =>
      simp only [bind, Except.bind]
      cases change (Representation.frame t) with
      | error e => rfl
      | ok f => rfl

theorem exchange_unsplit (a b : Qudit) : r.unsplit.exchange a b = (r.exchange a b).map unsplit := by
  have owner (q : Qudit) : r.unsplit.owner q = r.owner q := rfl
  rw [exchange, exchange]
  split
  · rfl
  · simp only [bind, Except.bind, owner]
    cases r.owner a with
    | error e => rfl
    | ok h =>
        cases r.owner b with
        | error e => rfl
        | ok k =>
            dsimp only
            split
            · exact r.reframe_unsplit h _
            · rw [reframe_unsplit]
              cases r.reframe h (·.rename a b) with
              | error e => rfl
              | ok r₁ =>
                  simp only [Except.map, reframe_unsplit]
                  cases r₁.reframe k (·.rename b a) with
                  | error e => rfl
                  | ok r₂ => rfl

theorem blind_exchange (a b : Qudit) : Blind (change fun r : Register R S => do return ((), ← r.exchange a b)) := by
  refine blind_change fun r => ?_
  rw [exchange_unsplit]
  cases r.exchange a b with
  | error e => rfl
  | ok r' => rfl

theorem merged_unsplit : r.unsplit.merged = r.merged := by
  have state (h : ℕ) : r.unsplit.state h = r.state h := rfl
  simp only [merged, product_unsplit, state]
  rfl

end Partition

/-! Operations. -/

section Operations

variable {R S : Type} [Scalar R] [Representation R S] {op : Operation R} {w w' m : Workspace R S}

theorem blind_work (op : Operation R) : Blind (work op : Act R S Unit) :=
  blind_bind (blind_change fun r => r.merge_unsplit op.qudits) fun h => blind_runOn h _

structure Divided (op : Operation R) (w m w' : Workspace R S) : Prop where
  split : m.register.split = true
  collapses : op.collapses = true
  worked : work op w = (.ok (), m)
  done : (m.register.splitAll op.qudits).1 = .ok ()
  parted : w' = { m with register := (m.register.splitAll op.qudits).2 }

theorem work_unsplit (worked : work op w = (.ok (), m)) : applyMerged op w.unsplit = (.ok (), m.unsplit) := by
  rw [applyMerged_work, act_bind_apply, (blind_work op).done worked]
  dsimp only
  split
  · exact separate_off op.qudits m.unsplit fun both => Bool.false_ne_true (Bool.and_eq_true_iff.mp both).1
  · rfl

theorem applyMerged_unsplit (done : applyMerged op w = (.ok (), w')) :
    ∃ m, applyMerged op w.unsplit = (.ok (), m.unsplit) ∧ (w' = m ∨ Divided op w m w') := by
  rw [applyMerged_work] at done
  obtain ⟨u, m, worked, done⟩ := act_bind_done done
  refine ⟨m, work_unsplit worked, ?_⟩
  split at done
  · rename_i collapses
    by_cases both : (m.register.split && Representation.allowsFactoring S) = true
    · rw [separate_on op.qudits m both] at done
      injection done with done parted
      exact Or.inr ⟨(Bool.and_eq_true_iff.mp both).1, collapses, worked, done, parted.symm⟩
    · rw [separate_off op.qudits m both] at done
      cases done
      exact Or.inl rfl
  · cases done
    exact Or.inl rfl

theorem apply_unsplit (done : apply op w = (.ok (), w')) : ∃ m, apply op w.unsplit = (.ok (), m.unsplit)
    ∧ (w' = m ∨ op.isIdentity = false ∧ (op.isSwap = true → op.qudits.length ≠ 2) ∧ Divided op w m w') := by
  obtain idle | ⟨a, b, exchanges⟩ | ⟨acts, joint⟩ := apply_forms (S := S) op
  · rw [idle] at done ⊢
    exact ⟨w', (blind_pure ()).done done, Or.inl rfl⟩
  · rw [exchanges] at done ⊢
    exact ⟨w', (blind_bind (blind_check op.qudits) fun _ => blind_exchange a b).done done, Or.inl rfl⟩
  · rw [apply_united acts joint] at done ⊢
    obtain ⟨u, w₁, checked, done⟩ := act_bind_done done
    cases check_done checked
    obtain ⟨m, unsplit, either⟩ := applyMerged_unsplit done
    refine ⟨m, ?_, either.imp_right fun divided => ⟨acts, joint, divided⟩⟩
    rw [act_bind_apply, (blind_check op.qudits).done checked]
    exact unsplit

end Operations

end Register

end QuantumRegister
