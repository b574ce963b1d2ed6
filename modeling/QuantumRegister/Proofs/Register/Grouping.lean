import QuantumRegister.Proofs.Register.Durable
import QuantumRegister.Proofs.Register.Joint

/-!
Which qudits share a state. An operation unites the states that own its qudits, and a collapse then
splits its qudits off again; nothing else changes the groups.
-/

set_option autoImplicit false

namespace QuantumRegister

open QuantumRegister.Representation (Joins frame)

theorem Slots.mem_live {S : Type} (a : Slots S) (t : S) : t ∈ a.live ↔ ∃ h, a.get? h = some t := by
  rw [live, List.mem_filterMap]
  constructor
  · rintro ⟨cell, member, rfl⟩
    obtain ⟨h, found⟩ := List.mem_iff_getElem?.mp member
    exact ⟨h, by rw [get?, found]; rfl⟩
  · rintro ⟨h, found⟩
    exact ⟨some t, List.mem_of_getElem? (Option.join_eq_some_iff.mp found), rfl⟩

namespace Register

variable {R S : Type} [Scalar R] [Representation R S]

def Together (r : Register R S) (a b : Qudit) : Prop := ∃ g ∈ r.groups, a ∈ g ∧ b ∈ g

/-- The state of a qudit owns one of the listed ones. -/
def Touched (r : Register R S) (qs : List Qudit) (a : Qudit) : Prop := ∃ q ∈ qs, r.Together q a

/-- Together, if all states that own a listed qudit are taken as one. -/
def United (r : Register R S) (qs : List Qudit) (a b : Qudit) : Prop :=
  r.Together a b ∨ r.Touched qs a ∧ r.Touched qs b

variable {s : Settings R} {r r' : Register R S} {qs : List Qudit} {a b c q : Qudit}

theorem together_iff : r.Together a b ↔ ∃ h, a ∈ r.holdings h ∧ b ∈ r.holdings h := by
  constructor
  · rintro ⟨g, member, first, second⟩
    obtain ⟨t, live, rfl⟩ := List.mem_map.mp member
    obtain ⟨h, here⟩ := (Slots.mem_live _ t).mp live
    rw [← holdings_of_live r h t here] at first second
    exact ⟨h, first, second⟩
  · rintro ⟨h, first, second⟩
    obtain ⟨t, here, -⟩ := (mem_holdings r h a).mp first
    rw [holdings_of_live r h t here] at first second
    exact ⟨_, List.mem_map.mpr ⟨t, (Slots.mem_live _ t).mpr ⟨h, here⟩, rfl⟩, first, second⟩

theorem Together.symm (together : r.Together a b) : r.Together b a := by
  obtain ⟨g, member, first, second⟩ := together
  exact ⟨g, member, second, first⟩

omit [Scalar R] in
theorem Arena.one_holder (valid : Arena s r) {h k : ℕ} (first : q ∈ r.holdings h) (second : q ∈ r.holdings k) : h = k := by
  obtain ⟨t, here, owns⟩ := (mem_holdings r h q).mp first
  obtain ⟨u, there, owns'⟩ := (mem_holdings r k q).mp second
  exact valid.once q h k t u here there owns owns'

theorem Arena.together_self (valid : Arena s r) (listed : q ∈ r.qudits) : r.Together q q := by
  obtain ⟨h, t, -, here, owns⟩ := valid.owner_found q listed
  have held := (mem_holdings r h q).mpr ⟨t, here, owns⟩
  exact together_iff.mpr ⟨h, held, held⟩

theorem Arena.touched_iff (valid : Arena s r) {hs : List ℕ} (found : r.ownersOf qs = .ok hs) :
    r.Touched qs a ↔ ∃ h ∈ hs, a ∈ r.holdings h := by
  obtain ⟨-, named, owned⟩ := (valid.ownersOf qs).2 hs found
  constructor
  · rintro ⟨q, listed, together⟩
    obtain ⟨k, holds, owns⟩ := together_iff.mp together
    obtain ⟨h, member, held⟩ := owned q listed
    exact ⟨k, valid.one_holder held holds ▸ member, owns⟩
  · rintro ⟨h, member, owns⟩
    obtain ⟨q, listed, holds⟩ := named h member
    exact ⟨q, listed, together_iff.mpr ⟨h, holds, owns⟩⟩

/-! Uniting. -/

theorem Arena.replace_together (valid : Arena s r) {hs : List ℕ} (v : S) (found : r.ownersOf qs = .ok hs) (some : hs ≠ [])
    (listed : ∀ q, q ∈ Representation.qudits v ↔ ∃ h ∈ hs, q ∈ r.holdings h) :
    (r.replace hs v).2.Together a b ↔ r.United qs a b := by
  have inside : ∀ h ∈ hs, h < r.slots.cells.length := by
    intro h member
    obtain ⟨q, -, owns⟩ := ((valid.ownersOf qs).2 hs found).2.1 h member
    obtain ⟨t, here, -⟩ := (mem_holdings r h q).mp owns
    exact Slots.get?_inside _ _ _ here
  obtain ⟨kept, -, read⟩ := replace_slots r hs v some inside
  have holds (p : Qudit) (j : ℕ) : p ∈ (r.replace hs v).2.holdings j
      ↔ j = (r.replace hs v).1 ∧ p ∈ Representation.qudits v ∨ j ∉ hs ∧ p ∈ r.holdings j := by
    rw [holdings, read]
    by_cases here : j = (r.replace hs v).1
    · subst here
      simp [kept]
    · by_cases dropped : j ∈ hs
      · simp [here, dropped]
      · rw [if_neg here, if_neg dropped]
        simp [here, dropped, holdings]
  rw [United, valid.touched_iff found, valid.touched_iff found, ← listed, ← listed, together_iff, together_iff]
  constructor
  · rintro ⟨j, first, second⟩
    obtain ⟨here, first⟩ | ⟨outside, first⟩ := (holds a j).mp first
    · obtain ⟨-, second⟩ | ⟨outside, -⟩ := (holds b j).mp second
      · exact Or.inr ⟨first, second⟩
      · exact absurd (here ▸ kept) outside
    · obtain ⟨here, -⟩ | ⟨-, second⟩ := (holds b j).mp second
      · exact absurd (here ▸ kept) outside
      · exact Or.inl ⟨j, first, second⟩
  · rintro (⟨j, first, second⟩ | ⟨first, second⟩)
    · by_cases dropped : j ∈ hs
      · exact ⟨_, (holds a _).mpr (Or.inl ⟨rfl, (listed a).mpr ⟨j, dropped, first⟩⟩),
          (holds b _).mpr (Or.inl ⟨rfl, (listed b).mpr ⟨j, dropped, second⟩⟩)⟩
      · exact ⟨j, (holds a j).mpr (Or.inr ⟨dropped, first⟩), (holds b j).mpr (Or.inr ⟨dropped, second⟩)⟩
    · exact ⟨_, (holds a _).mpr (Or.inl ⟨rfl, first⟩), (holds b _).mpr (Or.inl ⟨rfl, second⟩)⟩

theorem Arena.united_single (valid : Arena s r) {hs : List ℕ} (found : r.ownersOf qs = .ok hs) (h : ℕ) (single : ∀ k ∈ hs, k = h) :
    r.United qs a b ↔ r.Together a b := by
  refine ⟨fun united => united.elim id fun ⟨first, second⟩ => ?_, Or.inl⟩
  obtain ⟨k, member, owns⟩ := (valid.touched_iff found).mp first
  obtain ⟨l, member', owns'⟩ := (valid.touched_iff found).mp second
  rw [single k member] at owns
  rw [single l member'] at owns'
  exact together_iff.mpr ⟨h, owns, owns'⟩

variable [LawfulRepresentation R S]

theorem Arena.merge_together (valid : Arena s r) {h : ℕ} (done : r.merge qs = .ok (h, r')) :
    r'.Together a b ↔ r.United qs a b := by
  obtain ⟨hs, found, done⟩ := SimError.bind_ok done
  obtain ⟨once, named, -⟩ := (valid.ownersOf qs).2 hs found
  match hs with
  | [] =>
      cases done
      exact (valid.united_single found 0 fun k member => (List.not_mem_nil member).elim).symm
  | [k] =>
      cases done
      exact (valid.united_single found h fun l member => List.mem_singleton.mp member).symm
  | k :: l :: rest =>
      obtain ⟨t, first, done⟩ := SimError.bind_ok done
      obtain ⟨v, made, done⟩ := SimError.bind_ok done
      cases done
      have here := live_of_state r k t first
      have others : ∀ j ∈ l :: rest, ∃ u, r.slots.get? j = some u := by
        intro j member
        obtain ⟨q, -, owns⟩ := named j (List.mem_cons_of_mem k member)
        obtain ⟨u, there, -⟩ := (mem_holdings r j q).mp owns
        exact ⟨u, there⟩
      have listed := ((product_exact r t (l :: rest) others (valid.exact k t here)).2 v made).2.1
      refine valid.replace_together v found (List.cons_ne_nil _ _) fun q => ?_
      have joined : Representation.qudits v = r.holdings k ++ (l :: rest).flatMap r.holdings := by
        rw [holdings_of_live r k t here]
        exact listed
      rw [joined, ← List.flatMap_cons, List.mem_flatMap]

/-! Work on one state. -/

omit [Scalar R] [LawfulRepresentation R S] in
theorem runOn_holdings {α : Type} (h : ℕ) (step : Step R S α) (keeps : ∀ f, Step.Keeps f step) (w : Workspace R S) (j : ℕ) :
    (runOn h step w).2.register.holdings j = w.register.holdings j := by
  rw [runOn]
  split
  · rfl
  · rename_i t live
    have kept := (Representation.run_keeps step t w.cells (keeps _)).1
    have read := Slots.get?_put w.register.slots h j (Representation.run step t w.cells).2.1 (Slots.get?_inside _ _ _ live)
    rw [holdings, holdings]
    dsimp only
    rw [read]
    by_cases here : j = h
    · rw [if_pos here, here, live]
      exact congrArg Frame.qudits kept
    · rw [if_neg here]

/-! Splitting off. -/

/-- What splitting off a qudit does: nothing if it is alone, otherwise it leaves its state for a handle
that was free. -/
inductive Detached (r r' : Register R S) (q : Qudit) : Prop
  | alone (h : ℕ) (t : S) (here : r.slots.get? h = some t) (only : Representation.qudits t = [q]) (same : r' = r)
  | parted (h x : ℕ) (t single rest : S) (here : r.slots.get? h = some t) (owns : q ∈ Representation.qudits t)
      (vacant : r.slots.get? x = none) (factored : Representation.factor t [q] false r.tolerance = .ok (single, rest))
      (first : Representation.qudits single = [q])
      (second : ∀ p, p ∈ Representation.qudits rest ↔ p ∈ Representation.qudits t ∧ p ≠ q)
      (length : r'.slots.cells.length = r.slots.cells.length)
      (read : ∀ j, r'.slots.get? j = if j = x then some single else if j = h then some rest else r.slots.get? j)

theorem Arena.splitOff_detached (valid : Arena s r) (split : r.split = true) (done : r.splitOff q = .ok r') :
    Detached r r' q := by
  obtain ⟨h, owner, done⟩ := SimError.bind_ok done
  obtain ⟨t, found, done⟩ := SimError.bind_ok done
  obtain ⟨_, here, owns⟩ := (valid.owner q).2 h owner
  cases (live_of_state r h t found).symm.trans here
  split at done
  · rename_i few
    cases done
    obtain ⟨p, only⟩ := List.length_eq_one_iff.mp (few.antisymm (List.length_pos_of_mem owns))
    rw [only, List.mem_singleton] at owns
    exact .alone h t here (owns ▸ only) rfl
  · rename_i crowded
    obtain ⟨⟨single, rest⟩, factored, done⟩ := SimError.bind_ok done
    cases done
    obtain ⟨-, -, first, second, -⟩ := (factor_exact (R := R) t q false r.tolerance (valid.exact h t here)).2 _ factored
    obtain ⟨x, free, spare⟩ := List.exists_cons_of_ne_nil (valid.room h t here split (not_le.mp crowded))
    have vacant := (valid.vacant x).mp (spare ▸ List.mem_cons_self)
    exact .parted h x t single rest here owns vacant.2 factored first second
      ((Slots.alloc_length (r.slots.put h rest) x free single spare).trans List.length_set)
      (Slots.get?_detached r.slots h x free rest single spare (Slots.get?_inside _ _ _ here) vacant.1)

theorem Arena.splitOff_together (valid : Arena s r) (split : r.split = true) (done : r.splitOff q = .ok r') :
    r'.Together a b ↔ r.Together a b ∧ (a = q ↔ b = q) := by
  cases valid.splitOff_detached split done with
  | alone h t here only same =>
      subst same
      refine ⟨fun together => ⟨together, ?_⟩, And.left⟩
      have owns : q ∈ r'.holdings h := by
        rw [holdings_of_live r' h t here, only]
        exact List.mem_cons_self
      -- Whoever is with the qudit is in its state, which has no other.
      have partner (p : Qudit) (near : r'.Together q p) : p = q := by
        obtain ⟨k, own, other⟩ := together_iff.mp near
        rw [valid.one_holder own owns, holdings_of_live r' h t here, only] at other
        exact List.mem_singleton.mp other
      exact ⟨fun same => partner b (same ▸ together), fun same => partner a (same ▸ together.symm)⟩
  | parted h x t single rest here owns vacant factored first second length read =>
      have holds (p : Qudit) (j : ℕ) : p ∈ r'.holdings j ↔ if j = x then p = q else p ∈ r.holdings j ∧ p ≠ q := by
        rw [holdings, read]
        by_cases isNew : j = x
        · rw [if_pos isNew, if_pos isNew]
          simp [first]
        · rw [if_neg isNew, if_neg isNew]
          by_cases atOld : j = h
          · subst atOld
            rw [if_pos rfl, holdings_of_live r j t here]
            exact second p
          · rw [if_neg atOld]
            refine ⟨fun held => ⟨held, fun same => atOld ?_⟩, And.left⟩
            exact valid.one_holder (same ▸ held) ((mem_holdings r h q).mpr ⟨t, here, owns⟩)
      have empty : r.holdings x = [] := by rw [holdings, vacant]; rfl
      rw [together_iff, together_iff]
      constructor
      · rintro ⟨j, left, right⟩
        rw [holds] at left right
        by_cases isNew : j = x
        · rw [if_pos isNew] at left right
          subst left right
          have held := (mem_holdings r h b).mpr ⟨t, here, owns⟩
          exact ⟨⟨h, held, held⟩, Iff.rfl⟩
        · rw [if_neg isNew] at left right
          exact ⟨⟨j, left.1, right.1⟩, iff_of_false left.2 right.2⟩
      · rintro ⟨⟨j, left, right⟩, both⟩
        have used : j ≠ x := by
          rintro rfl
          rw [empty] at left
          cases left
        by_cases isOwn : a = q
        · exact ⟨x, (holds a x).mpr (by rw [if_pos rfl]; exact isOwn), (holds b x).mpr (by rw [if_pos rfl]; exact both.mp isOwn)⟩
        · refine ⟨j, (holds a j).mpr ?_, (holds b j).mpr ?_⟩
          · rw [if_neg used]
            exact ⟨left, isOwn⟩
          · rw [if_neg used]
            exact ⟨right, fun same => isOwn (both.mpr same)⟩

theorem Arena.splitAll_together (valid : Arena s r) (split : r.split = true) (done : (r.splitAll qs).1 = .ok ()) :
    (r.splitAll qs).2.Together a b ↔ r.Together a b ∧ ∀ q ∈ qs, (a = q ↔ b = q) := by
  induction qs generalizing r with
  | nil => simp [Register.splitAll]
  | cons q qs ih =>
      rw [Register.splitAll] at done ⊢
      cases first : r.splitOff q with
      | error e =>
          rw [first] at done
          cases done
      | ok r' =>
          rw [first] at done
          have after := (valid.splitOff split q).2 r' first
          have still : r'.split = true := after.mode.trans (valid.mode.symm.trans split)
          rw [List.forall_mem_cons, ← and_assoc, ← valid.splitOff_together split first]
          exact ih after still done

omit [LawfulRepresentation R S] in
theorem Arena.alone (valid : Arena s r) (listed : q ∈ r.qudits) (only : ∀ p, r.Together q p → p = q) : [q] ∈ r.groups := by
  obtain ⟨h, t, -, here, owns⟩ := valid.owner_found q listed
  have single : Representation.qudits t = [q] := by
    have each : ∀ p ∈ Representation.qudits t, p = q := fun p member =>
      only p (together_iff.mpr ⟨h, (mem_holdings r h q).mpr ⟨t, here, owns⟩, (mem_holdings r h p).mpr ⟨t, here, member⟩⟩)
    have replicated := List.eq_replicate_of_mem each
    have short : (Representation.qudits t).length ≤ 1 := by
      by_contra many
      obtain ⟨p, member, other⟩ := another_member _ (not_le.mp many) (valid.exact h t here).distinct q
      exact other (each p member)
    rw [short.antisymm (List.length_pos_of_mem owns)] at replicated
    exact replicated
  exact List.mem_map.mpr ⟨t, (Slots.mem_live _ t).mpr ⟨h, here⟩, single⟩

end Register

end QuantumRegister
