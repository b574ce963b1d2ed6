import QuantumRegister.Proofs.Register.Shares

/-!
An exchange of two labels succeeds for any two qudits of one dimension that are owned. Every state keeps
its handle and everything but its labels, so the partition is the old one with the labels exchanged.
-/

set_option autoImplicit false

namespace QuantumRegister

open QuantumRegister.Representation (frame)

namespace Register

theorem swap_absent (L : List Qudit) (a b : Qudit) (first : a ∉ L) (second : b ∉ L) : L.map (Equiv.swap a b) = L := by
  refine (List.map_congr_left fun q listed => ?_).trans (List.map_id L)
  exact Equiv.swap_apply_of_ne_of_ne (ne_of_mem_of_not_mem listed first) (ne_of_mem_of_not_mem listed second)

variable {R S : Type} [Representation R S] {s : Settings R} {r r' : Register R S}

-- States keep their handles and everything but their labels.
structure Exchanged (a b : Qudit) (r r' : Register R S) : Prop where
  qudits : r'.qudits = r.qudits
  length : r'.slots.cells.length = r.slots.cells.length
  vacant : ∀ j, r.slots.get? j = none → r'.slots.get? j = none
  live : ∀ j t, r.slots.get? j = some t → ∃ u, r'.slots.get? j = some u
    ∧ (u = t ∨ ∃ f, u = Representation.setFrame t f) ∧ Representation.qudits u = (Representation.qudits t).map (Equiv.swap a b)

theorem untouched (r : Register R S) (a b : Qudit) (j : ℕ) (t : S) (live : r.slots.get? j = some t)
    (first : a ∉ r.holdings j) (second : b ∉ r.holdings j) :
    Representation.qudits t = (Representation.qudits t).map (Equiv.swap a b) := by
  rw [holdings_of_live r j t live] at first second
  exact (swap_absent _ a b first second).symm

theorem vacant_ne (a : Slots S) (h j : ℕ) (t : S) (live : a.get? h = some t) (vacant : a.get? j = none) : j ≠ h := by
  rintro rfl
  rw [live] at vacant
  cases vacant

theorem Exchanged.before {a b : Qudit} (exchanged : Exchanged a b r r') (j : ℕ) (u : S) (here : r'.slots.get? j = some u) :
    ∃ t, r.slots.get? j = some t ∧ (u = t ∨ ∃ f, u = Representation.setFrame t f)
      ∧ Representation.qudits u = (Representation.qudits t).map (Equiv.swap a b) := by
  cases found : r.slots.get? j with
  | none =>
      rw [exchanged.vacant j found] at here
      cases here
  | some t =>
      obtain ⟨v, there, labels, listed⟩ := exchanged.live j t found
      rw [here] at there
      cases there
      exact ⟨t, rfl, labels, listed⟩

theorem Exchanged.product {M : Type} [CommMonoid M] {a b : Qudit} (exchanged : Exchanged a b r r') (f g : S → M)
    (each : ∀ j t u, r.slots.get? j = some t → r'.slots.get? j = some u → f u = g t) : r'.slots.whole f = r.slots.whole g := by
  rw [Slots.whole, Slots.whole, exchanged.length]
  refine Finset.prod_congr rfl fun j _ => ?_
  cases found : r.slots.get? j with
  | none => rw [Slots.part_vacant _ j found, Slots.part_vacant _ j (exchanged.vacant j found)]
  | some t =>
      obtain ⟨u, here, -⟩ := exchanged.live j t found
      rw [Slots.part_live _ j t found, Slots.part_live _ j u here]
      exact each j t u found here

theorem Exchanged.labels {a b : Qudit} (exchanged : Exchanged a b r r') (free : r'.slots.free = r.slots.free) :
    r'.slots.map Representation.qudits = r.slots.map fun t => (Representation.qudits t).map (Equiv.swap a b) := by
  have read (x : Slots S) (j : ℕ) (inside : j < x.cells.length) : x.cells[j] = x.get? j := by
    rw [Slots.get?, List.getElem?_eq_getElem inside, Option.join_some]
  refine congrArg₂ Slots.mk (List.ext_getElem (by simp [exchanged.length]) fun j left right => ?_) free
  rw [List.getElem_map, List.getElem_map, read, read]
  cases found : r.slots.get? j with
  | none => rw [exchanged.vacant j found]; rfl
  | some t =>
      obtain ⟨u, here, -, listed⟩ := exchanged.live j t found
      rw [here]
      exact congrArg some listed

theorem Arena.swapped_owner {a b : Qudit} (valid : Arena s r) (valid' : Arena s r') (exchanged : Exchanged a b r r')
    (first : a ∈ r.qudits) (second : b ∈ r.qudits) (q : Qudit) : r'.owner q = r.owner (Equiv.swap a b q) := by
  have same : Assoc.find? q r'.owners = Assoc.find? (Equiv.swap a b q) r.owners := by
    refine Option.ext fun h => ?_
    rw [valid'.owned q h, valid.owned _ h]
    constructor
    · rintro ⟨u, here, owns⟩
      obtain ⟨t, there, -, listed⟩ := exchanged.before h u here
      rw [listed] at owns
      obtain ⟨p, member, rfl⟩ := List.mem_map.mp owns
      exact ⟨t, there, by rwa [Equiv.swap_apply_self]⟩
    · rintro ⟨t, there, owns⟩
      obtain ⟨u, here, -, listed⟩ := exchanged.live h t there
      exact ⟨u, here, listed ▸ List.mem_map.mpr ⟨_, owns, Equiv.swap_apply_self a b q⟩⟩
  rw [Register.owner, Register.owner, same]
  cases found : Assoc.find? (Equiv.swap a b q) r.owners with
  | some h => rfl
  | none =>
      -- Nobody owns the qudit, so it is neither of the two.
      have unknown : q ∉ r.qudits := fun listed => by
        have known := (valid.known _).mpr (mem_swap r.qudits a b q first second listed)
        rw [found] at known
        cases known
      rw [Equiv.swap_apply_of_ne_of_ne (ne_of_mem_of_not_mem first unknown).symm (ne_of_mem_of_not_mem second unknown).symm]

theorem reframe_kept {h : ℕ} {change : Frame → Except (SimError R) Frame} (done : r.reframe h change = .ok r') :
    r'.source = r.source ∧ r'.log = r.log ∧ r'.slots.free = r.slots.free := by
  obtain ⟨t, -, done⟩ := SimError.bind_ok done
  obtain ⟨f, -, done⟩ := SimError.bind_ok done
  cases done
  exact ⟨rfl, rfl, rfl⟩

theorem exchange_kept {a b : Qudit} (done : r.exchange a b = .ok r') :
    r'.source = r.source ∧ r'.log = r.log ∧ r'.slots.free = r.slots.free := by
  rw [Register.exchange] at done
  split at done
  · cases done
  · obtain ⟨h, -, done⟩ := SimError.bind_ok done
    obtain ⟨k, -, done⟩ := SimError.bind_ok done
    split at done
    · exact reframe_kept done
    · obtain ⟨r₁, first, done⟩ := SimError.bind_ok done
      obtain ⟨r₂, second, done⟩ := SimError.bind_ok done
      cases done
      obtain ⟨source, log, free⟩ := reframe_kept first
      obtain ⟨source', log', free'⟩ := reframe_kept second
      exact ⟨source'.trans source, log'.trans log, free'.trans free⟩

theorem reframe_done (r : Register R S) (h : ℕ) (change : Frame → Except (SimError R) Frame) (t : S) (f : Frame)
    (live : r.slots.get? h = some t) (changed : change (frame t) = .ok f) :
    r.reframe h change = .ok { r with slots := r.slots.put h (Representation.setFrame t f) } := by
  rw [Register.reframe, state_of_live r h t live]
  simp only [bind, Except.bind, changed]
  rfl

theorem Arena.exchange_done (valid : Arena s r) (a b : Qudit) (flat : a.dim = b.dim) (first : a ∈ r.qudits)
    (second : b ∈ r.qudits) : ∃ r', r.exchange a b = .ok r' := by
  obtain ⟨h, t, ownerFirst, live, aInside⟩ := valid.owner_found a first
  obtain ⟨k, u, ownerSecond, live', bInside⟩ := valid.owner_found b second
  simp only [Register.exchange, flat, ne_eq, not_true, if_false, ownerFirst, ownerSecond, bind, Except.bind]
  by_cases same : h = k
  · subst same
    rw [live] at live'
    cases live'
    obtain ⟨f, changed⟩ := (valid.exact h t live).swaps (R := R) a b aInside bInside
    exact ⟨_, by rw [if_pos rfl, reframe_done r h _ t f live changed]⟩
  · have notSecond : b ∉ Representation.qudits t := fun also => same (valid.once b h k t u live live' also bInside)
    have notFirst : a ∉ Representation.qudits u := fun also => same (valid.once a h k t u live live' aInside also)
    obtain ⟨f, changed⟩ := (valid.exact h t live).renames (R := R) a b aInside notSecond
    obtain ⟨g, changed'⟩ := (valid.exact k u live').renames (R := R) b a bInside notFirst
    have between : (r.slots.put h (Representation.setFrame t f)).get? k = some u := by
      rw [Slots.get?_put_other _ _ _ _ same, live']
    rw [if_neg same, reframe_done r h _ t f live changed]
    dsimp only
    rw [reframe_done _ k _ u g between changed']
    exact ⟨_, rfl⟩

variable [Scalar R] [LawfulRepresentation R S]

theorem qudits_setFrame (t : S) (f : Frame) : Representation.qudits (Representation.setFrame t f) = f.qudits :=
  congrArg Frame.qudits (LawfulRepresentation.frame_setFrame (R := R) t f)

theorem Arena.exchanged_inside (valid : Arena s r) (a b : Qudit) (h : ℕ) (t : S) (f : Frame) (first : r.slots.get? h = some t)
    (aInside : a ∈ Representation.qudits t) (bInside : b ∈ Representation.qudits t)
    (swapped : (frame t).swapLabels (R := R) a b = .ok f) :
    Exchanged a b r { r with slots := r.slots.put h (Representation.setFrame t f) } := by
  have read := fun j => Slots.get?_put r.slots h j (Representation.setFrame t f) (Slots.get?_inside _ _ _ first)
  have listed := (Frame.swapLabels_exact (valid.exact h t first) a b swapped).2.1
  refine ⟨rfl, List.length_set, fun j vacant => ?_, fun j v live => ?_⟩
  · exact (read j).trans ((if_neg (vacant_ne r.slots h j t first vacant)).trans vacant)
  · by_cases here : j = h
    · subst here
      rw [first] at live
      cases live
      exact ⟨_, (read j).trans (if_pos rfl), Or.inr ⟨f, rfl⟩, (qudits_setFrame t f).trans listed⟩
    · exact ⟨v, (read j).trans ((if_neg here).trans live), Or.inl rfl,
        untouched r a b j v live (valid.apart a h t first aInside j here) (valid.apart b h t first bInside j here)⟩

theorem Arena.exchanged_across (valid : Arena s r) (a b : Qudit) (h k : ℕ) (t u : S) (f g : Frame) (different : h ≠ k)
    (first : r.slots.get? h = some t) (second : r.slots.get? k = some u) (aInside : a ∈ Representation.qudits t)
    (bInside : b ∈ Representation.qudits u) (renamed : (frame t).rename (R := R) a b = .ok f)
    (renamed' : (frame u).rename (R := R) b a = .ok g) :
    Exchanged a b r (({ r with
      slots := (r.slots.put h (Representation.setFrame t f)).put k (Representation.setFrame u g) }.assign [a] k).assign [b] h) := by
  have read := Slots.get?_put_twice r.slots h k (Representation.setFrame t f) (Representation.setFrame u g)
    (Slots.get?_inside _ _ _ first) (Slots.get?_inside _ _ _ second)
  have notSecond : b ∉ Representation.qudits t := fun also => different (valid.once b h k t u first second also bInside)
  have notFirst : a ∉ Representation.qudits u := fun also => different (valid.once a h k t u first second aInside also)
  refine ⟨rfl, List.length_set.trans List.length_set, fun j vacant => ?_, fun j v live => ?_⟩
  · exact (read j).trans ((if_neg (vacant_ne r.slots k j u second vacant)).trans
      ((if_neg (vacant_ne r.slots h j t first vacant)).trans vacant))
  · by_cases atSecond : j = k
    · subst atSecond
      rw [second] at live
      cases live
      have listed := (Frame.rename_exact (valid.exact j u second) b a renamed').2.1
      rw [Equiv.swap_comm]
      exact ⟨_, (read j).trans (if_pos rfl), Or.inr ⟨g, rfl⟩,
        (qudits_setFrame u g).trans (listed.trans (Qudit.renamed_swap _ b a notFirst))⟩
    · by_cases atFirst : j = h
      · subst atFirst
        rw [first] at live
        cases live
        have listed := (Frame.rename_exact (valid.exact j t first) a b renamed).2.1
        exact ⟨_, (read j).trans ((if_neg atSecond).trans (if_pos rfl)), Or.inr ⟨f, rfl⟩,
          (qudits_setFrame t f).trans (listed.trans (Qudit.renamed_swap _ a b notSecond))⟩
      · exact ⟨v, (read j).trans ((if_neg atSecond).trans ((if_neg atFirst).trans live)), Or.inl rfl,
          untouched r a b j v live (valid.apart a h t first aInside j atFirst) (valid.apart b k u second bInside j atSecond)⟩

theorem Arena.exchanged (valid : Arena s r) (a b : Qudit) (done : r.exchange a b = .ok r') : Exchanged a b r r' := by
  rw [Register.exchange] at done
  split at done
  · cases done
  · obtain ⟨h, ownerFirst, done⟩ := SimError.bind_ok done
    obtain ⟨k, ownerSecond, done⟩ := SimError.bind_ok done
    obtain ⟨t, first, aInside⟩ := (valid.owner a).2 h ownerFirst
    obtain ⟨u, second, bInside⟩ := (valid.owner b).2 k ownerSecond
    have clean := Frame.clean_rename (R := R)
    split at done
    · rename_i same
      subst same
      rw [first] at second
      cases second
      obtain ⟨f, swapped, rfl⟩ := (ensures_reframe r h _ t first (Frame.clean_swapLabels (frame t) a b)).2 r' done
      exact valid.exchanged_inside a b h t f first aInside bInside swapped
    · rename_i different
      obtain ⟨r₁, reframed, done⟩ := SimError.bind_ok done
      obtain ⟨f, renamed, rfl⟩ := (ensures_reframe r h _ t first (clean (frame t) a b)).2 r₁ reframed
      have still : (r.slots.put h (Representation.setFrame t f)).get? k = some u := by
        rw [Slots.get?_put_other _ _ _ _ different, second]
      obtain ⟨r₂, reframed', done⟩ := SimError.bind_ok done
      obtain ⟨g, renamed', rfl⟩ := (ensures_reframe _ k _ u still (clean (frame u) b a)).2 r₂ reframed'
      cases done
      exact valid.exchanged_across a b h k t u f g different first second aInside bInside renamed renamed'

end Register

end QuantumRegister
