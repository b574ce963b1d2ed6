import QuantumRegister.Proofs.MixedRadix
import QuantumRegister.Proofs.Register.Arena

/-!
New registers, and copies of registers, have their bookkeeping in order.
-/

set_option autoImplicit false

namespace QuantumRegister

open QuantumRegister.SimError (Clean Ensures)
open QuantumRegister.Representation (frame)

theorem Qudit.repeatedAfter_none (seen qs : List Qudit) (none : repeatedAfter seen qs = none) :
    qs.Nodup ∧ ∀ q ∈ qs, q ∉ seen := by
  induction qs generalizing seen with
  | nil => exact ⟨List.nodup_nil, by simp⟩
  | cons q qs ih =>
      rw [repeatedAfter] at none
      split at none
      · cases none
      · rename_i fresh
        obtain ⟨once, later⟩ := ih (q :: seen) none
        refine ⟨List.nodup_cons.mpr ⟨fun member => later q member List.mem_cons_self, once⟩, fun p member => ?_⟩
        rcases List.mem_cons.mp member with rfl | member
        · exact fun known => fresh (List.contains_iff_mem.mpr known)
        · exact fun known => later p member (List.mem_cons_of_mem q known)

theorem Qudit.firstRepeated_none (qs : List Qudit) (once : qs.Nodup) : Qudit.firstRepeated qs = none := by
  have always : ∀ seen : List Qudit, (∀ q ∈ qs, q ∉ seen) → Qudit.repeatedAfter seen qs = none := by
    induction qs with
    | nil => exact fun _ _ => rfl
    | cons q qs ih =>
        intro seen fresh
        obtain ⟨absent, later⟩ := List.nodup_cons.mp once
        have unseen : ¬ seen.contains q = true := fun member => fresh q List.mem_cons_self (List.contains_iff_mem.mp member)
        rw [Qudit.repeatedAfter, if_neg unseen]
        refine ih later (q :: seen) fun p listed old => ?_
        rcases List.mem_cons.mp old with rfl | before
        · exact absent listed
        · exact fresh p (List.mem_cons_of_mem q listed) before
  exact always [] fun q _ => List.not_mem_nil

structure Settings.Valid {R : Type} [Scalar R] (s : Settings R) (qs : List Qudit) : Prop where
  order : s.qudits = some qs
  canonical : qs.Nodup
  positive : ∀ q ∈ qs, 0 < q.dim
  inRange : Settings.inRange qs s.initial = true

theorem Settings.validate_ok {R : Type} [Scalar R] (s : Settings R) (qs : List Qudit) (checked : s.validate = .ok qs) :
    s.Valid qs := by
  cases given : s.qudits with
  | none => simp [validate, given] at checked
  | some listed =>
      simp only [validate, given] at checked
      split at checked
      · cases checked
      · rename_i none
        split at checked
        · cases checked
        · rename_i levels
          split at checked
          · cases checked
          · split at checked
            · rename_i inRange
              cases checked
              refine ⟨given, (Qudit.repeatedAfter_none [] _ none).1, fun q member => Nat.pos_of_ne_zero fun zero => ?_, inRange⟩
              exact List.find?_eq_none.mp levels q member (by simp [zero])
            · cases checked

namespace Register

variable {R S : Type} [Representation R S] {s : Settings R} {r : Register R S}

/-! Creation. -/

theorem get?_ofList (states : List S) (h : ℕ) : (Slots.ofList states).get? h = states[h]? := by
  simp only [Slots.get?, Slots.ofList, List.getElem?_map]
  cases states[h]? <;> rfl

theorem vacant_ofList (states : List S) (h : ℕ) :
    h ∈ (Slots.ofList states).free
      ↔ h < (Slots.ofList states).cells.length ∧ (Slots.ofList states).get? h = none := by
  rw [get?_ofList]
  simp [Slots.ofList]

theorem whole_arena (qs : List Qudit) (order : s.qudits = some qs) (mode : s.split = false) (canonical : qs.Nodup)
    (source : SourceRef) (log : LogRef) (t : S) (exact : (frame t).Exact) (listed : Representation.qudits t = qs)
    (wired : (frame t).source = source ∧ (frame t).log = log) :
    Arena s (⟨Slots.ofList [t], qs.map (·, 0), 0, qs, false, s.tolerance, source, log⟩ : Register R S) := by
  have only : ∀ h u, (Slots.ofList [t]).get? h = some u → h = 0 ∧ u = t := by
    intro h u live
    rw [get?_ofList] at live
    cases h with
    | zero =>
        cases live
        exact ⟨rfl, rfl⟩
    | succ h => cases live
  have keys : (qs.map fun q => (q, 0)).map Prod.fst = qs := by
    rw [List.map_map]
    exact List.map_id qs
  refine ⟨order, mode.symm, canonical, keys, List.nodup_nil, vacant_ofList [t], fun q h => ?_, fun h u live => ?_,
    fun h u live => ?_, ⟨t, rfl, fun split => by cases split⟩, fun h u live away => ?_, rfl⟩
  · rw [Assoc.find?_eq_some _ (keys.symm ▸ canonical)]
    constructor
    · intro member
      obtain ⟨p, inside, same⟩ := List.mem_map.mp member
      cases same
      exact ⟨t, rfl, listed ▸ inside⟩
    · rintro ⟨u, live, member⟩
      obtain ⟨rfl, rfl⟩ := only h u live
      exact List.mem_map.mpr ⟨q, listed ▸ member, rfl⟩
  · exact (only h u live).2 ▸ exact
  · exact (only h u live).2 ▸ wired
  · exact absurd (only h u live).1 away

theorem split_arena (qs : List Qudit) (order : s.qudits = some qs) (mode : s.split = true) (canonical : qs.Nodup)
    (source : SourceRef) (log : LogRef) (states : List S) (t : S) (length : states.length = qs.length)
    (inner : ∀ h (inside : h < qs.length), ∃ u, states[h]? = some u ∧ (frame u).Exact
      ∧ Representation.qudits u = [qs[h]] ∧ (frame u).source = source ∧ (frame u).log = log)
    (exact : (frame t).Exact) (empty : Representation.qudits t = [])
    (wired : (frame t).source = source ∧ (frame t).log = log) :
    Arena s (⟨Slots.ofList (states ++ [t]), qs.zip (List.range qs.length), qs.length, qs, true, s.tolerance, source, log⟩
      : Register R S) := by
  have outer : (Slots.ofList (states ++ [t])).get? qs.length = some t := by
    rw [get?_ofList, ← length]
    exact List.getElem?_concat_length
  have read : ∀ h u, (Slots.ofList (states ++ [t])).get? h = some u →
      (∃ inside : h < qs.length, (frame u).Exact ∧ Representation.qudits u = [qs[h]]
        ∧ (frame u).source = source ∧ (frame u).log = log)
      ∨ (h = qs.length ∧ u = t) := by
    intro h u live
    rw [get?_ofList] at live
    rcases Nat.lt_trichotomy h qs.length with inside | same | outside
    · obtain ⟨v, here, facts⟩ := inner h inside
      rw [List.getElem?_append_left (length ▸ inside), here] at live
      cases live
      exact Or.inl ⟨inside, facts⟩
    · subst same
      rw [get?_ofList] at outer
      rw [outer] at live
      cases live
      exact Or.inr ⟨rfl, rfl⟩
    · rw [List.getElem?_eq_none (by simp; omega)] at live
      cases live
  have keys : (qs.zip (List.range qs.length)).map Prod.fst = qs := List.map_fst_zip (by simp)
  refine ⟨order, mode.symm, canonical, keys, List.nodup_nil, vacant_ofList _, fun q h => ?_, fun h u live => ?_,
    fun h u live => ?_, ⟨t, outer, fun _ => empty⟩, fun h u live away => ?_, ?_⟩
  · rw [Assoc.find?_eq_some _ (keys.symm ▸ canonical), List.mem_iff_getElem?]
    constructor
    · rintro ⟨k, place⟩
      obtain ⟨listed, counted⟩ := List.getElem?_zip_eq_some.mp place
      obtain ⟨inside, same⟩ := List.getElem?_eq_some_iff.mp counted
      have equal : k = h := by simpa using same
      subst equal
      obtain ⟨bound, found⟩ := List.getElem?_eq_some_iff.mp listed
      obtain ⟨u, here, -, own, -⟩ := inner k bound
      refine ⟨u, ?_, by rw [own, found]; exact List.mem_singleton_self _⟩
      rw [get?_ofList, List.getElem?_append_left (length ▸ bound), here]
    · rintro ⟨u, live, member⟩
      rcases read h u live with ⟨inside, -, own, -⟩ | ⟨-, rfl⟩
      · rw [own, List.mem_singleton] at member
        refine ⟨h, List.getElem?_zip_eq_some.mpr ⟨?_, ?_⟩⟩
        · rw [member]
          exact List.getElem?_eq_getElem inside
        · simp [inside]
      · rw [empty] at member
        cases member
  · rcases read h u live with ⟨_, exact', -⟩ | ⟨-, rfl⟩
    · exact exact'
    · exact exact
  · rcases read h u live with ⟨_, -, -, wired'⟩ | ⟨-, rfl⟩
    · exact wired'
    · exact wired
  · rcases read h u live with ⟨_, -, own, -⟩ | ⟨same, -⟩
    · exact ⟨rfl, by rw [own]; exact List.cons_ne_nil _ _⟩
    · exact absurd same away
  · simp [Slots.ofList, length]

section Begun

variable {P : S → Prop} (begun : ∀ (qs : List Qudit) (index : ℕ) (source : SourceRef) (log : LogRef) (t : S),
  Representation.basisState qs index source log = .ok t → P t)

include begun

theorem singles_all (source : SourceRef) (log : LogRef) (given : List (Qudit × ℕ)) (states : List S)
    (made : singles source log given = .ok states) : ∀ t ∈ states, P t := by
  induction given generalizing states with
  | nil =>
      cases made
      exact fun _ member => (List.not_mem_nil member).elim
  | cons g given ih =>
      obtain ⟨u, first, made⟩ := SimError.bind_ok made
      obtain ⟨rest, later, made⟩ := SimError.bind_ok made
      cases made
      exact List.forall_mem_cons.mpr ⟨begun _ _ _ _ u first, ih rest later⟩

theorem initialStates_all (qs : List Qudit) (source : SourceRef) (log : LogRef) (states : List S)
    (made : initialStates s qs source log = .ok states) : ∀ t ∈ states, P t := by
  rw [initialStates] at made
  split at made
  · obtain ⟨rest, each, made⟩ := SimError.bind_ok made
    obtain ⟨u, last, made⟩ := SimError.bind_ok made
    cases made
    refine List.forall_mem_append.mpr ⟨singles_all begun _ _ _ rest each, ?_⟩
    exact List.forall_mem_singleton.mpr (begun _ _ _ _ u last)
  · obtain ⟨u, only, made⟩ := SimError.bind_ok made
    cases made
    exact List.forall_mem_singleton.mpr (begun _ _ _ _ u only)

end Begun

variable [Scalar R] [LawfulRepresentation R S]

theorem basisState_exact (qs : List Qudit) (index : ℕ) (source : SourceRef) (log : LogRef) (t : S)
    (made : Representation.basisState qs index source log = .ok t) :
    (frame t).Exact ∧ Representation.qudits t = qs ∧ (frame t).source = source ∧ (frame t).log = log :=
  Frame.exact_of _ _ _ _ (LawfulRepresentation.frame_basisState (R := R) qs index source log t made)

theorem singles_exact (source : SourceRef) (log : LogRef) (given : List (Qudit × ℕ)) (states : List S)
    (made : singles source log given = .ok states) :
    List.Forall₂ (fun p t => (frame t).Exact ∧ Representation.qudits t = [p.1] ∧ (frame t).source = source
      ∧ (frame t).log = log) given states := by
  induction given generalizing states with
  | nil =>
      cases made
      exact .nil
  | cons p given ih =>
      obtain ⟨t, first, made⟩ := SimError.bind_ok made
      obtain ⟨rest, later, made⟩ := SimError.bind_ok made
      cases made
      exact .cons (basisState_exact [p.1] p.2 source log t first) (ih rest later)

theorem singles_live (source : SourceRef) (log : LogRef) (qs : List Qudit) (initial : ℕ) (states : List S)
    (made : singles source log (qs.zip (MixedRadix.digits (Qudit.dims qs) initial)) = .ok states) :
    states.length = qs.length ∧ ∀ h (inside : h < qs.length), ∃ u, states[h]? = some u ∧ (frame u).Exact
      ∧ Representation.qudits u = [qs[h]] ∧ (frame u).source = source ∧ (frame u).log = log := by
  have count : (qs.zip (MixedRadix.digits (Qudit.dims qs) initial)).length = qs.length := by
    simp [MixedRadix.digits_length, Qudit.dims]
  have parts := List.forall₂_iff_get.mp (singles_exact source log _ states made)
  have length : states.length = qs.length := parts.1.symm.trans count
  refine ⟨length, fun h inside => ?_⟩
  have part := parts.2 h (count ▸ inside) (length ▸ inside)
  simp only [List.get_eq_getElem, List.getElem_zip] at part
  exact ⟨_, List.getElem?_eq_getElem (length ▸ inside), part⟩

theorem new_arena (c c' : Cells) (made : Register.new s c = .ok (r, c')) : Arena s r := by
  obtain ⟨qs, checked, made⟩ := SimError.bind_ok made
  obtain ⟨order, canonical, -, -⟩ := s.validate_ok qs checked
  obtain ⟨states, built, made⟩ := SimError.bind_ok made
  cases made
  cases mode : s.split with
  | false =>
      simp only [initialStates, mode, Bool.false_eq_true, if_false] at built ⊢
      obtain ⟨t, first, built⟩ := SimError.bind_ok built
      cases built
      obtain ⟨exact, listed, wired⟩ := basisState_exact _ _ _ _ t first
      exact whole_arena qs order mode canonical _ _ t exact listed wired
  | true =>
      simp only [initialStates, mode, if_true] at built ⊢
      obtain ⟨singles, each, built⟩ := SimError.bind_ok built
      obtain ⟨t, last, built⟩ := SimError.bind_ok built
      cases built
      obtain ⟨exact, empty, wired⟩ := basisState_exact _ _ _ _ t last
      obtain ⟨length, inner⟩ := singles_live _ _ qs s.initial singles each
      exact split_arena qs order mode canonical _ _ singles t length inner exact empty wired

/-! Copies. -/

theorem Arena.rewired (valid : Arena s r) (deep : Bool) (source : SourceRef) (log : LogRef) :
    Arena s { r with
      slots := r.slots.map fun t => Representation.setFrame (Representation.duplicate deep t) ((frame t).rewired source log)
      source := source
      log := log } := by
  have framed := fun t : S => LawfulRepresentation.frame_setFrame (R := R) (Representation.duplicate deep t)
    ((frame t).rewired source log)
  have listed : ∀ t : S, Representation.qudits
      (Representation.setFrame (Representation.duplicate deep t) ((frame t).rewired source log)) = Representation.qudits t :=
    fun t => (congrArg Frame.qudits (framed t)).trans rfl
  have read : ∀ h u, (r.slots.map fun t => Representation.setFrame (Representation.duplicate deep t)
      ((frame t).rewired source log)).get? h = some u → ∃ t, r.slots.get? h = some t
        ∧ u = Representation.setFrame (Representation.duplicate deep t) ((frame t).rewired source log) := by
    intro h u live
    rw [Slots.get?_map] at live
    obtain ⟨t, here, same⟩ := Option.map_eq_some_iff.mp live
    exact ⟨t, here, same.symm⟩
  refine ⟨valid.order, valid.mode, valid.canonical, valid.keys, valid.free, fun h => ?_, fun q h => ?_, fun h u live => ?_,
    fun h u live => ?_, ?_, fun h u live away => ?_, ?_⟩
  · rw [Slots.get?_map, Option.map_eq_none_iff]
    simpa [Slots.map] using valid.vacant h
  · rw [valid.owned]
    constructor
    · rintro ⟨t, here, member⟩
      exact ⟨_, by rw [Slots.get?_map, here]; rfl, (listed t).symm ▸ member⟩
    · rintro ⟨u, live, member⟩
      obtain ⟨t, here, rfl⟩ := read h u live
      exact ⟨t, here, listed t ▸ member⟩
  · obtain ⟨t, here, rfl⟩ := read h u live
    have exact := valid.exact h t here
    rw [framed]
    exact ⟨exact.distinct, exact.inverse⟩
  · obtain ⟨t, here, rfl⟩ := read h u live
    rw [framed]
    exact ⟨rfl, rfl⟩
  · obtain ⟨t, atHome, empty⟩ := valid.home
    exact ⟨_, by rw [Slots.get?_map, atHome]; rfl, fun split => (listed t).trans (empty split)⟩
  · obtain ⟨t, here, rfl⟩ := read h u live
    rw [listed]
    exact valid.others h t here away
  · simpa [Slots.map] using valid.size

theorem slots_copy (r : Register R S) (deep : Bool) (c : Cells) : (r.copy deep c).1.slots = r.slots.map fun t =>
    Representation.setFrame (Representation.duplicate deep t) ((frame t).rewired (r.copy deep c).1.source (r.copy deep c).1.log) :=
  Slots.mapWith_value _ _ (fun t d => Representation.copy_rewired deep t d _ _) r.slots _

theorem Arena.copy (valid : Arena s r) (deep : Bool) (c : Cells) : Arena s (r.copy deep c).1 := by
  have rewired := valid.rewired deep (r.copy deep c).1.source (r.copy deep c).1.log
  rw [← slots_copy] at rewired
  exact rewired

end Register

end QuantumRegister
