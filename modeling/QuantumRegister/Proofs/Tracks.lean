import QuantumRegister.Proofs.Representation

/-!
One step keeps up with another: on benches whose states are related, with the same source and log,
it succeeds whenever the other does, and leaves such benches again.
-/

set_option autoImplicit false

namespace QuantumRegister.Step

variable {R S α β γ δ : Type}

structure Level (rel : S → S → Prop) (near far : Bench S) : Prop where
  source : near.source = far.source
  log : near.log = far.log
  state : rel near.state far.state

def Tracks (rel : S → S → Prop) (value : α → β → Prop) (near : Step R S α) (far : Step R S β) : Prop :=
  ∀ b B, Level rel b B → ∀ v, (far B).1 = .ok v → ∃ u, (near b).1 = .ok u ∧ value u v ∧ Level rel (near b).2 (far B).2

variable {rel : S → S → Prop} {value : α → β → Prop} {value' : γ → δ → Prop}

theorem tracks_pure (u : α) (v : β) (same : value u v) : Tracks (R := R) rel value (pure u) (pure v) := by
  intro b B level w found
  cases found
  exact ⟨u, rfl, same, level⟩

theorem tracks_throw (near : Step R S α) (e : SimError R) : Tracks rel value near (throw e : Step R S β) := by
  intro b B _ v found
  cases found

theorem tracks_bind {near : Step R S α} {far : Step R S β} (next : α → Step R S γ) (later : β → Step R S δ)
    (first : Tracks rel value near far) (rest : ∀ u v, value u v → Tracks rel value' (next u) (later v)) :
    Tracks rel value' (near >>= next) (far >>= later) := by
  intro b B level w found
  rw [bind_apply] at found
  rw [bind_apply, bind_apply]
  have begun := first b B level
  generalize near b = nearOutcome at begun ⊢
  generalize far B = farOutcome at begun found ⊢
  obtain ⟨r, b'⟩ := nearOutcome
  obtain ⟨t, B'⟩ := farOutcome
  cases t with
  | error e => cases found
  | ok v =>
      obtain ⟨u, done, related, after⟩ := begun v rfl
      dsimp only at done after
      subst done
      exact rest u v related b' B' after w found

theorem tracks_get (next : Bench S → Step R S α) (later : Bench S → Step R S β)
    (rest : ∀ b B, Level rel b B → Tracks rel value (next b) (later B)) : Tracks rel value (get >>= next) (get >>= later) :=
  fun b B level => rest b B level b B level

theorem tracks_setState (s t : S) (same : rel s t) : Tracks rel Eq (setState s : Step R S Unit) (setState t) := by
  intro b B level _ _
  exact ⟨(), rfl, rfl, level.source, level.log, same⟩

theorem tracks_edit (e : Log.Edit R α) : Tracks rel Eq (edit e : Step R S α) (edit e) := by
  intro b B level v found
  rw [edit_apply] at found ⊢
  rw [edit_apply, level.log]
  exact ⟨v, found, rfl, level.source, rfl, level.state⟩

theorem tracks_draw (d : Random.Draw α) (p : α → Prop) (held : ∀ s, p (d s).1) :
    Tracks rel (fun u v => u = v ∧ p v) (draw d : Step R S α) (draw d) := by
  intro b B level v found
  have drawn : (d B.source).1 = v := by
    cases found
    rfl
  have source : (d b.source).2 = (d B.source).2 := by rw [level.source]
  refine ⟨v, ?_, ⟨rfl, drawn ▸ held B.source⟩, source, level.log, level.state⟩
  rw [← drawn, ← level.source]
  rfl

theorem tracks_ofExcept (r : Except (SimError R) α) (t : Except (SimError R) β)
    (both : ∀ v, t = .ok v → ∃ u, r = .ok u ∧ value u v) : Tracks rel value (ofExcept r : Step R S α) (ofExcept t) := by
  cases t with
  | error e => exact tracks_throw _ e
  | ok v =>
      obtain ⟨u, done, related⟩ := both v rfl
      rw [done]
      exact tracks_pure u v related

theorem tracks_same (r : Except (SimError R) α) : Tracks rel (fun u v => u = v ∧ r = .ok v) (ofExcept r : Step R S α) (ofExcept r) :=
  tracks_ofExcept r r fun v found => ⟨v, found, rfl, found⟩

theorem tracks_guard (p q : Prop) [Decidable p] [Decidable q] (e e' : SimError R) (next : Step R S α) (later : Step R S β)
    (passes : ¬q → ¬p) (rest : ¬q → Tracks rel value next later) :
    Tracks rel value (if p then (throw e : Step R S Unit) >>= fun _ => next else next)
      (if q then (throw e' : Step R S Unit) >>= fun _ => later else later) := by
  by_cases failed : q
  · rw [if_pos failed]
    exact tracks_throw _ e'
  · rw [if_neg failed, if_neg (passes failed)]
    exact rest failed

theorem tracks_recordBranch (key : Option String) (index : ℕ) :
    Tracks rel Eq (recordBranch key index : Step R S Unit) (recordBranch key index) := by
  cases key with
  | none => exact tracks_pure () () rfl
  | some k =>
      intro b B level _ _
      have log : b.log.recordBranch k index = B.log.recordBranch k index := by rw [level.log]
      exact ⟨(), rfl, rfl, level.source, log, level.state⟩

theorem tracks_weaken {near : Step R S α} {far : Step R S β} {other : α → β → Prop} (tracks : Tracks rel value near far)
    (weaker : ∀ u v, value u v → other u v) : Tracks rel other near far := by
  intro b B level v found
  obtain ⟨u, done, related, after⟩ := tracks b B level v found
  exact ⟨u, done, weaker u v related, after⟩

end QuantumRegister.Step
