import QuantumRegister.Proofs.Representation
import QuantumRegister.Register.Run

/-!
The bookkeeping of a register: every handle is either live or free, every qudit has exactly one
owner, and only the state at home may own nothing.
-/

set_option autoImplicit false

namespace QuantumRegister

open QuantumRegister.SimError (Clean Ensures)
open QuantumRegister.Representation (frame)

namespace Slots

variable {S : Type}

theorem get?_inside (a : Slots S) (h : ℕ) (s : S) (live : a.get? h = some s) : h < a.cells.length := by
  by_contra outside
  simp [get?, List.getElem?_eq_none (Nat.not_lt.mp outside)] at live

theorem get?_put (a : Slots S) (h k : ℕ) (s : S) (inside : h < a.cells.length) :
    (a.put h s).get? k = if k = h then some s else a.get? k := by
  by_cases same : k = h
  · subst same
    rw [if_pos rfl, get?_put_self a k s inside]
  · rw [if_neg same, get?_put_other a h k s (Ne.symm same)]

theorem get?_released (a : Slots S) (hs : List ℕ) (k : ℕ) :
    (hs.foldl release a).get? k = if k ∈ hs then none else a.get? k := by
  induction hs generalizing a with
  | nil => simp
  | cons h hs ih =>
      rw [List.foldl_cons, ih]
      by_cases later : k ∈ hs
      · simp [later]
      · by_cases here : k = h
        · subst here
          rw [if_neg later, if_pos List.mem_cons_self]
          by_cases inside : k < a.cells.length
          · exact get?_release_self a k inside
          · simp [get?, release, inside]
        · rw [if_neg later, if_neg (by simp [here, later]), get?_release_other a h k (Ne.symm here)]

theorem released_free (a : Slots S) (hs : List ℕ) : (hs.foldl release a).free = hs.reverse ++ a.free := by
  induction hs generalizing a with
  | nil => rfl
  | cons h hs ih =>
      rw [List.foldl_cons, ih, List.reverse_cons, List.append_assoc]
      rfl

theorem released_last (a : Slots S) (front : List ℕ) (h : ℕ) :
    ((front ++ [h]).foldl release a).free = h :: (front.reverse ++ a.free) := by
  rw [released_free, List.reverse_append]
  rfl

theorem released_length (a : Slots S) (hs : List ℕ) : (hs.foldl release a).cells.length = a.cells.length := by
  induction hs generalizing a with
  | nil => rfl
  | cons h hs ih =>
      rw [List.foldl_cons, ih]
      simp [release]

theorem alloc_free (a : Slots S) (h : ℕ) (free : List ℕ) (s : S) (found : a.free = h :: free) :
    a.alloc s = (h, ⟨a.cells.set h (some s), free⟩) := by
  rw [alloc, found]

theorem get?_alloc (a : Slots S) (h : ℕ) (free : List ℕ) (s : S) (found : a.free = h :: free) (inside : h < a.cells.length)
    (k : ℕ) : (a.alloc s).2.get? k = if k = h then some s else a.get? k := by
  rw [alloc_free a h free s found]
  exact get?_put a h k s inside

theorem alloc_length (a : Slots S) (h : ℕ) (free : List ℕ) (s : S) (found : a.free = h :: free) :
    (a.alloc s).2.cells.length = a.cells.length := by
  rw [alloc_free a h free s found]
  exact List.length_set

theorem get?_detached (a : Slots S) (h x : ℕ) (free : List ℕ) (rest single : S) (spare : a.free = x :: free)
    (hInside : h < a.cells.length) (xInside : x < a.cells.length) (j : ℕ) :
    ((a.put h rest).alloc single).2.get? j = if j = x then some single else if j = h then some rest else a.get? j := by
  rw [← get?_put a h j rest hInside]
  exact get?_alloc (a.put h rest) x free single spare (by simpa [put] using xInside) j

theorem get?_put_twice (a : Slots S) (h k : ℕ) (s t : S) (hInside : h < a.cells.length) (kInside : k < a.cells.length) (j : ℕ) :
    ((a.put h s).put k t).get? j = if j = k then some t else if j = h then some s else a.get? j := by
  rw [← get?_put a h j s hInside]
  exact get?_put (a.put h s) k j t (by simpa [put] using kInside)

/-! The free handles are the ones without a value, each listed once. -/

structure Tidy (a : Slots S) : Prop where
  once : a.free.Nodup
  vacant : ∀ h, h ∈ a.free ↔ h < a.cells.length ∧ a.get? h = none

variable {a : Slots S}

theorem Tidy.put (tidy : a.Tidy) (h : ℕ) (s t : S) (live : a.get? h = some s) : (a.put h t).Tidy := by
  refine ⟨tidy.once, fun k => ?_⟩
  have length : (a.put h t).cells.length = a.cells.length := List.length_set
  rw [get?_put a h k t (get?_inside a h s live), length, show (a.put h t).free = a.free from rfl, tidy.vacant k]
  by_cases here : k = h
  · subst here
    simp [live]
  · rw [if_neg here]

theorem Tidy.release (tidy : a.Tidy) (h : ℕ) (s : S) (live : a.get? h = some s) : (a.release h).Tidy := by
  have busy : h ∉ a.free := fun member => by
    rw [((tidy.vacant h).mp member).2] at live
    cases live
  have inside := get?_inside a h s live
  have length : (a.release h).cells.length = a.cells.length := List.length_set
  refine ⟨List.nodup_cons.mpr ⟨busy, tidy.once⟩, fun k => ?_⟩
  rw [length, show (a.release h).free = h :: a.free from rfl, List.mem_cons]
  by_cases here : k = h
  · subst here
    simp [inside, get?_release_self a k inside]
  · rw [get?_release_other a h k (Ne.symm here), ← tidy.vacant k]
    simp [here]

theorem Tidy.released (tidy : a.Tidy) (hs : List ℕ) (once : hs.Nodup) (live : ∀ h ∈ hs, ∃ s, a.get? h = some s) :
    (hs.foldl Slots.release a).Tidy := by
  induction hs generalizing a with
  | nil => exact tidy
  | cons h hs ih =>
      obtain ⟨fresh, once⟩ := List.nodup_cons.mp once
      obtain ⟨s, here⟩ := live h List.mem_cons_self
      refine ih (tidy.release h s here) once fun k member => ?_
      obtain ⟨t, there⟩ := live k (List.mem_cons_of_mem h member)
      exact ⟨t, (get?_release_other a h k fun same => fresh (same ▸ member)).trans there⟩

theorem Tidy.alloc (tidy : a.Tidy) (x : ℕ) (free : List ℕ) (s : S) (spare : a.free = x :: free) : (a.alloc s).2.Tidy := by
  have inside := ((tidy.vacant x).mp (spare ▸ List.mem_cons_self)).1
  have once : (x :: free).Nodup := spare ▸ tidy.once
  have shrunk : (a.alloc s).2.free = free := by rw [alloc_free a x free s spare]
  refine ⟨shrunk ▸ (List.nodup_cons.mp once).2, fun k => ?_⟩
  rw [get?_alloc a x free s spare inside, alloc_length a x free s spare, shrunk]
  by_cases here : k = x
  · subst here
    simp [(List.nodup_cons.mp once).1]
  · rw [if_neg here, ← tidy.vacant k, spare]
    simp [here]

section MapWith

variable {T σ : Type} (f : S → StateM σ T)

theorem mapWith_value (g : S → T) (alone : ∀ s x, (f s x).1 = g s) (a : Slots S) (x : σ) : (a.mapWith f x).1 = a.map g := by
  have cells : ∀ (cells : List (Option S)) (x : σ), (cells.mapM (Option.mapM f) x).1 = cells.map (Option.map g) := by
    intro cells
    induction cells with
    | nil => exact fun x => rfl
    | cons cell cells ih =>
        intro x
        rw [List.mapM_cons]
        cases cell with
        | none => exact congrArg (none :: ·) (ih x)
        | some s => exact congrArg₂ (some · :: ·) (alone s x) (ih (f s x).2)
  exact congrArg (Slots.mk · a.free) (cells a.cells x)

theorem mapWith_state (rel : σ → σ → Prop) (refl : ∀ x, rel x x) (trans : ∀ x y z, rel x y → rel y z → rel x z)
    (each : ∀ s x, rel x (f s x).2) (a : Slots S) (x : σ) : rel x (a.mapWith f x).2 := by
  have cells : ∀ (cells : List (Option S)) (x : σ), rel x (cells.mapM (Option.mapM f) x).2 := by
    intro cells
    induction cells with
    | nil => exact fun x => refl x
    | cons cell cells ih =>
        intro x
        rw [List.mapM_cons]
        cases cell with
        | none => exact ih x
        | some s => exact trans _ _ _ (each s x) (ih _)
  exact cells a.cells x

end MapWith

end Slots

namespace Register

variable {R S : Type}

theorem state_of_live (r : Register R S) (h : ℕ) (t : S) (live : r.slots.get? h = some t) : r.state h = .ok t := by
  rw [state, live]

theorem live_of_state (r : Register R S) (h : ℕ) (t : S) (found : r.state h = .ok t) : r.slots.get? h = some t := by
  rw [Register.state] at found
  split at found
  · rename_i u live
    cases found
    exact live
  · cases found

theorem ensures_state {α : Type} {Q : α → Prop} {f : S → Except (SimError R) α} (r : Register R S) (h : ℕ) (t : S)
    (live : r.slots.get? h = some t) (rest : Ensures Q (f t)) : Ensures Q (r.state h >>= f) := by
  rw [state_of_live r h t live]
  exact SimError.ensures_bind (SimError.ensures_ok (· = t) t rfl) fun u same => same ▸ rest

variable [Representation R S]

structure Arena (s : Settings R) (r : Register R S) : Prop where
  order : s.qudits = some r.qudits
  mode : r.split = s.split
  canonical : r.qudits.Nodup
  keys : r.owners.map Prod.fst = r.qudits
  free : r.slots.free.Nodup
  vacant : ∀ h, h ∈ r.slots.free ↔ h < r.slots.cells.length ∧ r.slots.get? h = none
  owned : ∀ q h, Assoc.find? q r.owners = some h ↔ ∃ s, r.slots.get? h = some s ∧ q ∈ Representation.qudits s
  exact : ∀ h s, r.slots.get? h = some s → (frame s).Exact
  wired : ∀ h s, r.slots.get? h = some s → (frame s).source = r.source ∧ (frame s).log = r.log
  home : ∃ s, r.slots.get? r.home = some s ∧ (r.split = true → Representation.qudits s = [])
  others : ∀ h s, r.slots.get? h = some s → h ≠ r.home → r.split = true ∧ Representation.qudits s ≠ []
  size : r.slots.cells.length = if r.split then r.qudits.length + 1 else 1

variable {s : Settings R} {r : Register R S}

theorem Arena.tidy (valid : Arena s r) : r.slots.Tidy := ⟨valid.free, valid.vacant⟩

theorem Arena.known (valid : Arena s r) (q : Qudit) : (Assoc.find? q r.owners).isSome ↔ q ∈ r.qudits := by
  rw [Assoc.find?_isSome, valid.keys]

theorem Arena.once (valid : Arena s r) (q : Qudit) (h k : ℕ) (s t : S) (first : r.slots.get? h = some s)
    (second : r.slots.get? k = some t) (inFirst : q ∈ Representation.qudits s) (inSecond : q ∈ Representation.qudits t) :
    h = k := by
  have one := (valid.owned q h).mpr ⟨s, first, inFirst⟩
  rw [(valid.owned q k).mpr ⟨t, second, inSecond⟩] at one
  exact (Option.some.inj one).symm

theorem Arena.listed (valid : Arena s r) (q : Qudit) (h : ℕ) (t : S) (live : r.slots.get? h = some t)
    (member : q ∈ Representation.qudits t) : q ∈ r.qudits := by
  rw [← valid.known, (valid.owned q h).mpr ⟨t, live, member⟩]
  rfl

theorem Arena.qudits_kept {r' : Register R S} (before : Arena s r) (after : Arena s r') : r'.qudits = r.qudits :=
  Option.some.inj (after.order.symm.trans before.order)

theorem two_members (qs : List Qudit) (crowded : 2 ≤ qs.length) : ∃ p q rest, qs = p :: q :: rest := by
  cases qs with
  | nil => cases crowded
  | cons p qs =>
      cases qs with
      | nil => exact absurd crowded (Nat.lt_irrefl 1)
      | cons q rest => exact ⟨p, q, rest, rfl⟩

theorem another_member (qs : List Qudit) (crowded : 2 ≤ qs.length) (distinct : qs.Nodup) (q : Qudit) : ∃ p ∈ qs, p ≠ q := by
  obtain ⟨first, second, rest, rfl⟩ := two_members qs crowded
  by_cases same : first = q
  · refine ⟨second, by simp, fun equal => ?_⟩
    exact (List.nodup_cons.mp distinct).1 (by rw [same, equal]; exact List.mem_cons_self)
  · exact ⟨first, by simp, same⟩

-- With one qudit to each state but the one at home, all states are live.
theorem Arena.room (valid : Arena s r) (h : ℕ) (t : S) (live : r.slots.get? h = some t) (split : r.split = true)
    (crowded : 2 ≤ (Representation.qudits t).length) : r.slots.free ≠ [] := by
  intro full
  have everywhere : ∀ k, k < r.slots.cells.length → ∃ u, r.slots.get? k = some u := by
    intro k inside
    cases found : r.slots.get? k with
    | some u => exact ⟨u, rfl⟩
    | none =>
        have member := (valid.vacant k).mpr ⟨inside, found⟩
        rw [full] at member
        cases member
  have size := valid.size
  rw [if_pos split] at size
  obtain ⟨base, atHome, empty⟩ := valid.home
  have homeInside := Slots.get?_inside _ _ _ atHome
  -- The owners of the qudits reach all handles but home, and there are as many of one as of the other.
  let handles := (Finset.range r.slots.cells.length).erase r.home
  let ownerOf : Qudit → ℕ := fun q => (Assoc.find? q r.owners).getD 0
  have counted : r.qudits.toFinset.card ≤ handles.card := by
    rw [Finset.card_erase_of_mem (Finset.mem_range.mpr homeInside), Finset.card_range, size,
      List.toFinset_card_of_nodup valid.canonical]
    omega
  have reached : Set.SurjOn ownerOf r.qudits.toFinset handles := by
    intro k member
    obtain ⟨away, inside⟩ := Finset.mem_erase.mp member
    obtain ⟨u, found⟩ := everywhere k (Finset.mem_range.mp inside)
    obtain ⟨q, owns⟩ := List.exists_mem_of_ne_nil _ (valid.others k u found away).2
    refine ⟨q, ?_, ?_⟩
    · simpa using valid.listed q k u found owns
    · simp only [ownerOf, (valid.owned q k).mpr ⟨u, found, owns⟩, Option.getD_some]
  have injective := Finset.injOn_of_surjOn_of_card_le ownerOf ?_ reached counted
  · obtain ⟨p, q, rest, shape⟩ := two_members _ crowded
    have first : p ∈ Representation.qudits t := shape ▸ List.mem_cons_self
    have second : q ∈ Representation.qudits t := shape ▸ List.mem_cons_of_mem p List.mem_cons_self
    have together : ownerOf p = ownerOf q := by
      simp only [ownerOf, (valid.owned p h).mpr ⟨t, live, first⟩, (valid.owned q h).mpr ⟨t, live, second⟩]
    have same := injective (by simpa using valid.listed p h t live first) (by simpa using valid.listed q h t live second)
      together
    have distinct := (valid.exact h t live).distinct
    rw [show (frame t).qudits = p :: q :: rest from shape, same] at distinct
    exact (List.nodup_cons.mp distinct).1 List.mem_cons_self
  · intro q member
    have known := (valid.known q).mpr (by simpa using member)
    obtain ⟨k, found⟩ := Option.isSome_iff_exists.mp known
    obtain ⟨u, there, owns⟩ := (valid.owned q k).mp found
    simp only [ownerOf, found, Option.getD_some]
    refine Finset.mem_erase.mpr ⟨fun same => ?_, Finset.mem_range.mpr (Slots.get?_inside _ _ _ there)⟩
    rw [same, atHome] at there
    cases there
    rw [empty split] at owns
    cases owns

/-! Changing the labels of one state. -/

theorem Arena.put (valid : Arena s r) (h : ℕ) (t u : S) (live : r.slots.get? h = some t) (exact : (frame u).Exact)
    (source : (frame u).source = (frame t).source) (log : (frame u).log = (frame t).log)
    (same : ∀ q, q ∈ Representation.qudits u ↔ q ∈ Representation.qudits t) :
    Arena s { r with slots := r.slots.put h u } := by
  have inside := Slots.get?_inside _ _ _ live
  have read := fun k => Slots.get?_put r.slots h k u inside
  have empty : Representation.qudits u = [] ↔ Representation.qudits t = [] := by
    simp only [List.eq_nil_iff_forall_not_mem, same]
  have tidy := valid.tidy.put h t u live
  refine ⟨valid.order, valid.mode, valid.canonical, valid.keys, tidy.once, tidy.vacant, fun q k => ?_, fun k v found => ?_,
    fun k v found => ?_, ?_, fun k v found away => ?_, ?_⟩
  · rw [read, valid.owned q k]
    by_cases here : k = h
    · subst here
      simp [live, same]
    · rw [if_neg here]
  · rw [read] at found
    by_cases here : k = h
    · rw [if_pos here] at found
      cases found
      exact exact
    · exact valid.exact k v (by rwa [if_neg here] at found)
  · rw [read] at found
    by_cases here : k = h
    · rw [if_pos here] at found
      cases found
      have wired := valid.wired h t live
      exact ⟨source.trans wired.1, log.trans wired.2⟩
    · exact valid.wired k v (by rwa [if_neg here] at found)
  · obtain ⟨v, atHome, empty⟩ := valid.home
    rw [read]
    by_cases here : r.home = h
    · refine ⟨u, if_pos here, fun split => ?_⟩
      rw [← here, atHome] at live
      cases live
      rw [‹Representation.qudits u = [] ↔ _›]
      exact empty split
    · exact ⟨v, by rw [if_neg here, atHome], empty⟩
  · rw [read] at found
    by_cases here : k = h
    · rw [if_pos here] at found
      cases found
      have apart := valid.others h t live (here ▸ away)
      exact ⟨apart.1, fun none => apart.2 (empty.mp none)⟩
    · exact valid.others k v (by rwa [if_neg here] at found) away
  · simpa [Slots.put] using valid.size

/-! Other states in the place of some that are not at home. -/

theorem Arena.update (valid : Arena s r) (a : Slots S) (o : List (Qudit × ℕ)) (split : r.split = true)
    (length : a.cells.length = r.slots.cells.length) (keys : o.map Prod.fst = r.owners.map Prod.fst) (tidy : a.Tidy)
    (kept : a.get? r.home = r.slots.get? r.home)
    (each : ∀ k u, a.get? k = some u → r.slots.get? k = some u ∨ (k ≠ r.home ∧ Representation.qudits u ≠ []
      ∧ (frame u).Exact ∧ (frame u).source = r.source ∧ (frame u).log = r.log))
    (owned : ∀ q h, Assoc.find? q o = some h ↔ ∃ u, a.get? h = some u ∧ q ∈ Representation.qudits u) :
    Arena s { r with slots := a, owners := o } := by
  refine ⟨valid.order, valid.mode, valid.canonical, keys.trans valid.keys, tidy.once, tidy.vacant, owned, fun k u found => ?_,
    fun k u found => ?_, ?_, fun k u found away => ?_, length.trans valid.size⟩
  · rcases each k u found with old | ⟨-, -, exact, -⟩
    · exact valid.exact k u old
    · exact exact
  · rcases each k u found with old | ⟨-, -, -, wired⟩
    · exact valid.wired k u old
    · exact wired
  · obtain ⟨v, atHome, empty⟩ := valid.home
    exact ⟨v, kept.trans atHome, empty⟩
  · rcases each k u found with old | ⟨-, some, -⟩
    · exact valid.others k u old away
    · exact ⟨split, some⟩

theorem Arena.away (valid : Arena s r) (split : r.split = true) (h : ℕ) (t : S) (live : r.slots.get? h = some t) (q : Qudit)
    (member : q ∈ Representation.qudits t) : h ≠ r.home := by
  rintro rfl
  obtain ⟨v, atHome, empty⟩ := valid.home
  rw [live] at atHome
  cases atHome
  rw [empty split] at member
  cases member

theorem Arena.single (valid : Arena s r) (whole : r.split ≠ true) (h : ℕ) (t : S) (live : r.slots.get? h = some t) :
    h = r.home := by
  by_contra away
  exact whole (valid.others h t live away).1

theorem Arena.owner (valid : Arena s r) (q : Qudit) :
    Ensures (fun h => ∃ t, r.slots.get? h = some t ∧ q ∈ Representation.qudits t) (r.owner q) := by
  rw [Register.owner]
  split
  · rename_i h found
    exact SimError.ensures_ok _ h ((valid.owned q h).mp found)
  · exact SimError.ensures_error _ _ fun h => by simp

theorem ensures_reframe (r : Register R S) (h : ℕ) (change : Frame → Except (SimError R) Frame) (t : S)
    (live : r.slots.get? h = some t) (clean : Clean (change (frame t))) :
    Ensures (fun r' => ∃ f, change (frame t) = .ok f
      ∧ r' = { r with slots := r.slots.put h (Representation.setFrame t f) }) (r.reframe h change) := by
  refine ensures_state r h t live ?_
  exact SimError.ensures_bind (SimError.ensures_clean _ clean) fun f changed => SimError.ensures_ok _ _ ⟨f, changed, rfl⟩

theorem reframe_other (r : Register R S) (h k : ℕ) (change : Frame → Except (SimError R) Frame) (r₁ : Register R S)
    (done : r.reframe h change = .ok r₁) (other : k ≠ h) : r₁.slots.get? k = r.slots.get? k := by
  obtain ⟨t, -, done⟩ := SimError.bind_ok done
  obtain ⟨f, -, done⟩ := SimError.bind_ok done
  cases done
  exact Slots.get?_put_other r.slots h k _ (Ne.symm other)

/-! Exchanging labels. -/

theorem mem_swap (qs : List Qudit) (a b q : Qudit) (first : a ∈ qs) (second : b ∈ qs) (listed : q ∈ qs) : Equiv.swap a b q ∈ qs := by
  by_cases isFirst : q = a
  · rw [isFirst, Equiv.swap_apply_left]
    exact second
  · by_cases isSecond : q = b
    · rw [isSecond, Equiv.swap_apply_right]
      exact first
    · rwa [Equiv.swap_apply_of_ne_of_ne isFirst isSecond]

theorem mem_renamed (qs : List Qudit) (a b q : Qudit) (member : a ∈ qs) :
    q ∈ qs.map (fun p => if p = a then b else p) ↔ q = b ∨ (q ≠ a ∧ q ∈ qs) := by
  rw [List.mem_map]
  constructor
  · rintro ⟨p, listed, rfl⟩
    by_cases here : p = a
    · rw [if_pos here]
      exact Or.inl rfl
    · rw [if_neg here]
      exact Or.inr ⟨here, listed⟩
  · rintro (rfl | ⟨other, listed⟩)
    · exact ⟨a, member, if_pos rfl⟩
    · exact ⟨q, listed, if_neg other⟩

theorem Arena.owned_traded (valid : Arena s r) (a b : Qudit) (h k : ℕ) (t u t' u' : S) (different : h ≠ k)
    (first : r.slots.get? h = some t) (second : r.slots.get? k = some u) (aInside : a ∈ Representation.qudits t)
    (bInside : b ∈ Representation.qudits u)
    (inFirst : ∀ q, q ∈ Representation.qudits t' ↔ q = b ∨ (q ≠ a ∧ q ∈ Representation.qudits t))
    (inSecond : ∀ q, q ∈ Representation.qudits u' ↔ q = a ∨ (q ≠ b ∧ q ∈ Representation.qudits u)) (q : Qudit) (j : ℕ) :
    Assoc.find? q (Assoc.insert b h (Assoc.insert a k r.owners)) = some j
      ↔ ∃ v, ((r.slots.put h t').put k u').get? j = some v ∧ q ∈ Representation.qudits v := by
  have owner_a := (valid.owned a h).mpr ⟨t, first, aInside⟩
  have owner_b := (valid.owned b k).mpr ⟨u, second, bInside⟩
  have apart : a ≠ b := by
    rintro rfl
    rw [owner_a] at owner_b
    exact different (Option.some.inj owner_b)
  have read := Slots.get?_put_twice r.slots h k t' u' (Slots.get?_inside _ _ _ first) (Slots.get?_inside _ _ _ second) j
  rw [Assoc.find?_insert, Assoc.find?_insert, read]
  by_cases atSecond : j = k
  · subst atSecond
    simp only [if_true, Option.some.injEq, exists_eq_left', inSecond]
    by_cases isSecond : q = b
    · simp [isSecond, different, Ne.symm apart]
    · by_cases isFirst : q = a
      · simp [isFirst, apart]
      · simp [isSecond, isFirst, valid.owned, second]
  · by_cases atFirst : j = h
    · subst atFirst
      simp only [if_neg atSecond, if_true, Option.some.injEq, exists_eq_left', inFirst]
      by_cases isSecond : q = b
      · simp [isSecond]
      · by_cases isFirst : q = a
        · simp [isFirst, apart, Ne.symm atSecond]
        · simp [isSecond, isFirst, valid.owned, first]
    · rw [if_neg atSecond, if_neg atFirst, ← valid.owned]
      by_cases isSecond : q = b
      · subst isSecond
        rw [if_pos rfl, owner_b]
        simp [Ne.symm atFirst, Ne.symm atSecond]
      · rw [if_neg isSecond]
        by_cases isFirst : q = a
        · subst isFirst
          rw [if_pos rfl, owner_a]
          simp [Ne.symm atFirst, Ne.symm atSecond]
        · rw [if_neg isFirst]

variable [Scalar R] [LawfulRepresentation R S]

theorem Arena.relabel (valid : Arena s r) (h : ℕ) (t : S) (live : r.slots.get? h = some t) (a b : Qudit) (f : Frame)
    (aInside : a ∈ Representation.qudits t) (bInside : b ∈ Representation.qudits t)
    (swapped : (frame t).swapLabels (R := R) a b = .ok f) :
    Arena s { r with slots := r.slots.put h (Representation.setFrame t f) } := by
  obtain ⟨exact, relabelled, source, log⟩ := Frame.swapLabels_exact (valid.exact h t live) a b swapped
  have framed := LawfulRepresentation.frame_setFrame (R := R) t f
  refine valid.put h t _ live (by rwa [framed]) (by rwa [framed]) (by rwa [framed]) fun q => ?_
  have listed : Representation.qudits (Representation.setFrame t f) = (frame t).qudits.map (Equiv.swap a b) := by
    rw [Representation.qudits, framed, relabelled]
  rw [listed, List.mem_map]
  constructor
  · rintro ⟨p, member, rfl⟩
    exact mem_swap _ a b p aInside bInside member
  · intro member
    exact ⟨Equiv.swap a b q, mem_swap _ a b q aInside bInside member, Equiv.swap_apply_self a b q⟩

theorem Arena.trade (valid : Arena s r) (a b : Qudit) (h k : ℕ) (t u : S) (different : h ≠ k) (f g : Frame)
    (first : r.slots.get? h = some t) (second : r.slots.get? k = some u) (aInside : a ∈ Representation.qudits t)
    (bInside : b ∈ Representation.qudits u) (renamedFirst : (frame t).rename (R := R) a b = .ok f)
    (renamedSecond : (frame u).rename (R := R) b a = .ok g) :
    Arena s { r with
      slots := (r.slots.put h (Representation.setFrame t f)).put k (Representation.setFrame u g)
      owners := Assoc.insert b h (Assoc.insert a k r.owners) } := by
  have split : r.split = true := by
    by_contra whole
    exact different ((valid.single whole h t first).trans (valid.single whole k u second).symm)
  obtain ⟨exactFirst, listFirst, sourceFirst, logFirst⟩ := Frame.rename_exact (valid.exact h t first) a b renamedFirst
  obtain ⟨exactSecond, listSecond, sourceSecond, logSecond⟩ := Frame.rename_exact (valid.exact k u second) b a renamedSecond
  have framedFirst := LawfulRepresentation.frame_setFrame (R := R) t f
  have framedSecond := LawfulRepresentation.frame_setFrame (R := R) u g
  have hAway := valid.away split h t first a aInside
  have kAway := valid.away split k u second b bInside
  have inFirst : ∀ q, q ∈ Representation.qudits (Representation.setFrame t f)
      ↔ q = b ∨ (q ≠ a ∧ q ∈ Representation.qudits t) := by
    intro q
    rw [Representation.qudits, framedFirst, listFirst]
    exact mem_renamed _ a b q aInside
  have inSecond : ∀ q, q ∈ Representation.qudits (Representation.setFrame u g)
      ↔ q = a ∨ (q ≠ b ∧ q ∈ Representation.qudits u) := by
    intro q
    rw [Representation.qudits, framedSecond, listSecond]
    exact mem_renamed _ b a q bInside
  have knownFirst := (Assoc.find?_isSome a r.owners).mp (by rw [(valid.owned a h).mpr ⟨t, first, aInside⟩]; rfl)
  have knownSecond := (Assoc.find?_isSome b r.owners).mp (by rw [(valid.owned b k).mpr ⟨u, second, bInside⟩]; rfl)
  have keysFirst := Assoc.keys_insert a k r.owners knownFirst
  have between : (r.slots.put h (Representation.setFrame t f)).get? k = some u := by
    rw [Slots.get?_put_other _ _ _ _ different, second]
  have tidy := (valid.tidy.put h t (Representation.setFrame t f) first).put k u (Representation.setFrame u g) between
  have read := Slots.get?_put_twice r.slots h k (Representation.setFrame t f) (Representation.setFrame u g)
    (Slots.get?_inside _ _ _ first) (Slots.get?_inside _ _ _ second)
  have owned := valid.owned_traded a b h k t u _ _ different first second aInside bInside inFirst inSecond
  refine valid.update _ _ split (List.length_set.trans List.length_set) ?_ tidy ?_ (fun j v found => ?_) owned
  · rw [Assoc.keys_insert b h _ (keysFirst ▸ knownSecond), keysFirst]
  · rw [read, if_neg (Ne.symm kAway), if_neg (Ne.symm hAway)]
  · rw [read] at found
    by_cases atSecond : j = k
    · rw [if_pos atSecond] at found
      cases found
      refine Or.inr ⟨atSecond ▸ kAway, List.ne_nil_of_mem ((inSecond a).mpr (Or.inl rfl)), ?_⟩
      rw [framedSecond, sourceSecond, logSecond]
      exact ⟨exactSecond, valid.wired k u second⟩
    · rw [if_neg atSecond] at found
      by_cases atFirst : j = h
      · rw [if_pos atFirst] at found
        cases found
        refine Or.inr ⟨atFirst ▸ hAway, List.ne_nil_of_mem ((inFirst b).mpr (Or.inl rfl)), ?_⟩
        rw [framedFirst, sourceFirst, logFirst]
        exact ⟨exactFirst, valid.wired h t first⟩
      · rw [if_neg atFirst] at found
        exact Or.inl found

theorem Arena.exchange (valid : Arena s r) (a b : Qudit) : Ensures (Arena s) (r.exchange a b) := by
  rw [Register.exchange]
  split
  · exact SimError.ensures_error _ _ fun h => by simp
  · refine SimError.ensures_bind (valid.owner a) fun h ⟨t, first, aInside⟩ => ?_
    refine SimError.ensures_bind (valid.owner b) fun k ⟨u, second, bInside⟩ => ?_
    split
    · rename_i same
      subst same
      rw [first] at second
      cases second
      obtain ⟨clean, done⟩ := ensures_reframe r h (·.swapLabels a b) t first (Frame.clean_swapLabels (frame t) a b)
      refine ⟨clean, fun r' made => ?_⟩
      obtain ⟨f, swapped, rfl⟩ := done r' made
      exact valid.relabel h t first a b f aInside bInside swapped
    · rename_i different
      have clean := Frame.clean_rename (R := R)
      refine SimError.ensures_bind (ensures_reframe r h _ t first (clean (frame t) a b)) fun r₁ ⟨f, renamed, made⟩ => ?_
      subst made
      have still : (r.slots.put h (Representation.setFrame t f)).get? k = some u := by
        rw [Slots.get?_put_other _ _ _ _ different, second]
      refine SimError.ensures_bind (ensures_reframe _ k _ u still (clean (frame u) b a)) fun r₂ ⟨g, renamed', made⟩ => ?_
      subst made
      exact SimError.ensures_ok _ _ (valid.trade a b h k t u different f g first second aInside bInside renamed renamed')

end Register

end QuantumRegister
