import QuantumRegister.Frame
import QuantumRegister.Proofs.Assoc

/-!
Frames whose map of axes is the inverse of their list of qudits, and the changes of labels that keep
it so.
-/

set_option autoImplicit false

namespace QuantumRegister

theorem Qudit.dim_swap (a b q : Qudit) (flat : a.dim = b.dim) : (Equiv.swap a b q).dim = q.dim := by
  by_cases isFirst : q = a
  · rw [isFirst, Equiv.swap_apply_left, flat]
  · by_cases isSecond : q = b
    · rw [isSecond, Equiv.swap_apply_right, flat]
    · rw [Equiv.swap_apply_of_ne_of_ne isFirst isSecond]

theorem Qudit.renamed_swap (L : List Qudit) (a b : Qudit) (fresh : b ∉ L) :
    L.map (fun q => if q = a then b else q) = L.map (Equiv.swap a b) := by
  refine List.map_congr_left fun q listed => ?_
  by_cases isFirst : q = a
  · rw [if_pos isFirst, isFirst, Equiv.swap_apply_left]
  · rw [if_neg isFirst, Equiv.swap_apply_of_ne_of_ne isFirst (ne_of_mem_of_not_mem listed fresh)]

namespace Frame

variable {R : Type}

structure Exact (f : Frame) : Prop where
  distinct : f.qudits.Nodup
  inverse : ∀ q k, Assoc.find? q f.axisOf = some k ↔ f.qudits[k]? = some q

/-! Building a frame. -/

theorem places_length (k : ℕ) (qs : List Qudit) (m : List (Qudit × ℕ)) :
    (placesFrom k qs m).length ≤ m.length + qs.length := by
  induction qs generalizing k m with
  | nil => exact le_rfl
  | cons q qs ih =>
      have step := ih (k + 1) (Assoc.insert q k m)
      have grown := Assoc.length_insert_le q k m
      simp only [placesFrom, List.length_cons]
      omega

-- Only a list without repeats fills as many places as it is long.
theorem places_distinct (k : ℕ) (qs : List Qudit) (m : List (Qudit × ℕ))
    (full : (placesFrom k qs m).length = m.length + qs.length) :
    qs.Nodup ∧ ∀ q ∈ qs, q ∉ m.map Prod.fst := by
  induction qs generalizing k m with
  | nil => exact ⟨List.nodup_nil, fun q member => (List.not_mem_nil member).elim⟩
  | cons q qs ih =>
      have bound := places_length (k + 1) qs (Assoc.insert q k m)
      have grown := Assoc.length_insert_le q k m
      simp only [placesFrom, List.length_cons] at full
      obtain ⟨once, fresh⟩ := ih (k + 1) (Assoc.insert q k m) (by omega)
      have new : q ∉ m.map Prod.fst := by
        intro known
        have same := congrArg List.length (Assoc.keys_insert q k m known)
        simp only [List.length_map] at same
        omega
      rw [Assoc.keys_insert_new q k m new] at fresh
      refine ⟨List.nodup_cons.mpr ⟨fun member => ?_, once⟩, fun p member => ?_⟩
      · exact fresh q member (List.mem_append_right _ (List.mem_singleton_self q))
      · rcases List.mem_cons.mp member with rfl | later
        · exact new
        · exact fun known => fresh p later (List.mem_append_left _ known)

theorem keys_places (k : ℕ) (qs : List Qudit) (m : List (Qudit × ℕ)) (once : qs.Nodup)
    (fresh : ∀ q ∈ qs, q ∉ m.map Prod.fst) : (placesFrom k qs m).map Prod.fst = m.map Prod.fst ++ qs := by
  induction qs generalizing k m with
  | nil => exact (List.append_nil _).symm
  | cons q qs ih =>
      obtain ⟨absent, once⟩ := List.nodup_cons.mp once
      have new := Assoc.keys_insert_new q k m (fresh q List.mem_cons_self)
      rw [placesFrom, ih (k + 1) _ once, new, List.append_assoc, List.singleton_append]
      intro p member known
      rw [new] at known
      rcases List.mem_append.mp known with before | here
      · exact fresh p (List.mem_cons_of_mem q member) before
      · exact absent (List.mem_singleton.mp here ▸ member)

theorem find?_places (k : ℕ) (qs : List Qudit) (m : List (Qudit × ℕ)) (once : qs.Nodup) (q : Qudit) (j : ℕ) :
    Assoc.find? q (placesFrom k qs m) = some j
      ↔ (k ≤ j ∧ qs[j - k]? = some q) ∨ (q ∉ qs ∧ Assoc.find? q m = some j) := by
  induction qs generalizing k m with
  | nil => simp [placesFrom]
  | cons p qs ih =>
      obtain ⟨absent, once⟩ := List.nodup_cons.mp once
      rw [placesFrom, ih (k + 1) _ once, Assoc.find?_insert]
      by_cases same : q = p
      · subst same
        have elsewhere : ∀ i, qs[i]? = some q → False := fun i found => absent (List.mem_of_getElem? found)
        simp only [absent, not_false_eq_true, if_true, true_and, Option.some.injEq, List.mem_cons, not_true,
          false_and, or_false]
        constructor
        · rintro (⟨-, found⟩ | rfl)
          · exact (elsewhere _ found).elim
          · exact ⟨le_rfl, by rw [Nat.sub_self]; rfl⟩
        · rintro ⟨below, found⟩
          right
          by_contra apart
          have step : j - k = (j - k - 1) + 1 := by omega
          rw [step, List.getElem?_cons_succ] at found
          exact elsewhere _ found
      · have notHead : q ∉ p :: qs ↔ q ∉ qs := by simp [same]
        rw [if_neg same, notHead]
        refine or_congr ⟨?_, ?_⟩ Iff.rfl
        · rintro ⟨below, found⟩
          have step : j - k = (j - (k + 1)) + 1 := by omega
          exact ⟨by omega, by rw [step, List.getElem?_cons_succ, found]⟩
        · rintro ⟨below, found⟩
          by_cases start : j = k
          · subst start
            rw [Nat.sub_self, List.getElem?_cons_zero, Option.some.injEq] at found
            exact absurd found.symm same
          · have step : j - k = (j - (k + 1)) + 1 := by omega
            rw [step, List.getElem?_cons_succ] at found
            exact ⟨by omega, found⟩

theorem exact_of (qs : List Qudit) (source : SourceRef) (log : LogRef) (f : Frame)
    (built : of (R := R) qs source log = .ok f) :
    f.Exact ∧ f.qudits = qs ∧ f.source = source ∧ f.log = log := by
  simp only [of] at built
  split at built
  · cases built
  · rename_i full
    obtain ⟨once, -⟩ := places_distinct 0 qs [] (by simpa using full)
    cases built
    refine ⟨⟨once, fun q k => ?_⟩, rfl, rfl, rfl⟩
    rw [find?_places 0 qs [] once]
    simp [Assoc.find?]

theorem of_distinct (qs : List Qudit) (source : SourceRef) (log : LogRef) (once : qs.Nodup) :
    of (R := R) qs source log = .ok ⟨qs, placesFrom 0 qs [], source, log⟩ := by
  have keys := congrArg List.length (keys_places 0 qs [] once (by simp))
  simp only [List.length_map, List.map_nil, List.nil_append] at keys
  simp only [of, keys, ne_eq, not_true, if_false]

/-! Changing labels. -/

variable {f g : Frame}

theorem Exact.unique (valid : f.Exact) {q : Qudit} {i j : ℕ} (atFirst : f.qudits[i]? = some q)
    (atSecond : f.qudits[j]? = some q) : i = j := by
  have first := (valid.inverse q i).mpr atFirst
  rw [(valid.inverse q j).mpr atSecond] at first
  exact (Option.some.inj first).symm

theorem Exact.missing (valid : f.Exact) {q : Qudit} (absent : Assoc.find? q f.axisOf = none) : q ∉ f.qudits := by
  intro member
  obtain ⟨k, bound, found⟩ := List.getElem_of_mem member
  have place := (valid.inverse q k).mpr (by rw [List.getElem?_eq_getElem bound, found])
  rw [absent] at place
  cases place

theorem exact_of_inverse (qudits : List Qudit) (axisOf : List (Qudit × ℕ)) (source : SourceRef) (log : LogRef)
    (inverse : ∀ q k, Assoc.find? q axisOf = some k ↔ qudits[k]? = some q) :
    Exact ⟨qudits, axisOf, source, log⟩ := by
  have distinct : qudits.Nodup := by
    refine List.nodup_iff_injective_getElem.mpr fun i j same => ?_
    have equal : qudits[i] = qudits[j] := same
    have first := (inverse qudits[i] i).mpr (List.getElem?_eq_getElem i.isLt)
    have second := (inverse qudits[i] j).mpr (by rw [equal]; exact List.getElem?_eq_getElem j.isLt)
    rw [second] at first
    exact Fin.ext (Option.some.inj first).symm
  exact ⟨distinct, inverse⟩

theorem Exact.set_eq_map (valid : f.Exact) (old new : Qudit) (k : ℕ) (here : f.qudits[k]? = some old) :
    f.qudits.set k new = f.qudits.map fun q => if q = old then new else q := by
  have bound := (List.getElem?_eq_some_iff.mp here).1
  refine List.ext_getElem? fun j => ?_
  rw [List.getElem?_set, List.getElem?_map]
  by_cases atPlace : k = j
  · subst atPlace
    rw [if_pos rfl, if_pos bound, here, Option.map_some, if_pos rfl]
  · rw [if_neg atPlace]
    cases found : f.qudits[j]? with
    | none => rfl
    | some q =>
        have different : q ≠ old := fun isOld => atPlace (valid.unique here (isOld ▸ found))
        rw [Option.map_some, if_neg different]

theorem Exact.renamed_inverse (valid : f.Exact) (old new : Qudit) (different : old ≠ new) (fresh : new ∉ f.qudits) (k : ℕ)
    (here : f.qudits[k]? = some old) (q : Qudit) (j : ℕ) :
    Assoc.find? q (Assoc.insert new k (Assoc.erase old f.axisOf)) = some j ↔ (f.qudits.set k new)[j]? = some q := by
  have bound := (List.getElem?_eq_some_iff.mp here).1
  rw [Assoc.find?_insert, Assoc.find?_erase, List.getElem?_set]
  by_cases atPlace : k = j
  · subst atPlace
    rw [if_pos rfl, if_pos bound]
    by_cases isNew : q = new
    · simp [isNew]
    · rw [if_neg isNew]
      by_cases isOld : q = old
      · simp [isOld, Ne.symm different]
      · rw [if_neg isOld, valid.inverse, here]
        simp [Ne.symm isNew, Ne.symm isOld]
  · rw [if_neg atPlace]
    by_cases isNew : q = new
    · subst isNew
      have absent : f.qudits[j]? ≠ some q := fun found => fresh (List.mem_of_getElem? found)
      simp [atPlace, absent]
    · rw [if_neg isNew]
      by_cases isOld : q = old
      · subst isOld
        have absent : f.qudits[j]? ≠ some q := fun found => atPlace (valid.unique here found)
        simp [absent]
      · rw [if_neg isOld, valid.inverse]

theorem rename_exact (valid : f.Exact) (old new : Qudit) (renamed : f.rename (R := R) old new = .ok g) :
    g.Exact ∧ g.qudits = f.qudits.map (fun q => if q = old then new else q) ∧ g.source = f.source ∧ g.log = f.log := by
  by_cases same : old = new
  · subst same
    rw [rename, if_pos rfl] at renamed
    cases renamed
    refine ⟨valid, ?_, rfl, rfl⟩
    have fixed : (fun q : Qudit => if q = old then old else q) = id := by
      funext q
      by_cases here : q = old <;> simp [here]
    rw [fixed, List.map_id]
  · cases taken : Assoc.find? new f.axisOf with
    | some k => simp [rename, same, taken] at renamed
    | none =>
        have fresh := valid.missing taken
        cases place : Assoc.find? old f.axisOf with
        | none => simp [rename, same, taken, place] at renamed
        | some k =>
            simp only [rename, if_neg same, taken, place, Option.isSome_none, Bool.false_eq_true, if_false,
              Except.ok.injEq] at renamed
            subst renamed
            have here := (valid.inverse old k).mp place
            exact ⟨exact_of_inverse _ _ _ _ (valid.renamed_inverse old new same fresh k here), valid.set_eq_map old new k here,
              rfl, rfl⟩

theorem rename_dims (valid : f.Exact) (old new : Qudit) (flat : old.dim = new.dim) (renamed : f.rename (R := R) old new = .ok g) :
    g.dims = f.dims := by
  rw [dims, dims, (rename_exact valid old new renamed).2.1, Qudit.dims, Qudit.dims, List.map_map]
  refine List.map_congr_left fun q _ => ?_
  by_cases here : q = old
  · rw [Function.comp_apply, if_pos here, here, flat]
  · rw [Function.comp_apply, if_neg here]

theorem Exact.set_twice_eq_map (valid : f.Exact) (a b : Qudit) (j k : ℕ) (first : f.qudits[j]? = some a)
    (second : f.qudits[k]? = some b) : (f.qudits.set j b).set k a = f.qudits.map (Equiv.swap a b) := by
  have jBound := (List.getElem?_eq_some_iff.mp first).1
  have kBound := (List.getElem?_eq_some_iff.mp second).1
  refine List.ext_getElem? fun i => ?_
  rw [List.getElem?_set, List.getElem?_set, List.length_set, List.getElem?_map]
  by_cases atSecond : k = i
  · subst atSecond
    rw [if_pos rfl, if_pos kBound, second, Option.map_some, Equiv.swap_apply_right]
  · rw [if_neg atSecond]
    by_cases atFirst : j = i
    · subst atFirst
      rw [if_pos rfl, if_pos jBound, first, Option.map_some, Equiv.swap_apply_left]
    · rw [if_neg atFirst]
      cases found : f.qudits[i]? with
      | none => rfl
      | some q =>
          have notFirst : q ≠ a := fun same => atFirst (valid.unique first (same ▸ found))
          have notSecond : q ≠ b := fun same => atSecond (valid.unique second (same ▸ found))
          rw [Option.map_some, Equiv.swap_apply_of_ne_of_ne notFirst notSecond]

theorem swapLabels_exact (valid : f.Exact) (a b : Qudit) (swapped : f.swapLabels (R := R) a b = .ok g) :
    g.Exact ∧ g.qudits = f.qudits.map (Equiv.swap a b) ∧ g.source = f.source ∧ g.log = f.log := by
  simp only [swapLabels, axis] at swapped
  cases firstPlace : Assoc.find? a f.axisOf with
  | none => simp [firstPlace] at swapped
  | some j =>
      cases secondPlace : Assoc.find? b f.axisOf with
      | none => simp [firstPlace, secondPlace] at swapped
      | some k =>
          simp only [firstPlace, secondPlace, Except.ok.injEq] at swapped
          subst swapped
          have relabelled := valid.set_twice_eq_map a b j k ((valid.inverse a j).mp firstPlace) ((valid.inverse b k).mp secondPlace)
          refine ⟨exact_of_inverse _ _ _ _ fun q i => ?_, relabelled, rfl, rfl⟩
          rw [relabelled, List.getElem?_map, Assoc.find?_insert, Assoc.find?_insert]
          have turned : (f.qudits[i]?.map (Equiv.swap a b) = some q) ↔ f.qudits[i]? = some (Equiv.swap a b q) := by
            cases f.qudits[i]? with
            | none => simp
            | some p => simp [Equiv.swap_apply_eq_iff]
          rw [turned, ← valid.inverse]
          by_cases isSecond : q = b
          · rw [if_pos isSecond, isSecond, Equiv.swap_apply_right, firstPlace]
          · rw [if_neg isSecond]
            by_cases isFirst : q = a
            · rw [if_pos isFirst, isFirst, Equiv.swap_apply_left, secondPlace]
            · rw [if_neg isFirst, Equiv.swap_apply_of_ne_of_ne isFirst isSecond]

theorem swapLabels_dims (valid : f.Exact) (a b : Qudit) (flat : a.dim = b.dim) (swapped : f.swapLabels (R := R) a b = .ok g) :
    g.dims = f.dims := by
  rw [dims, dims, (swapLabels_exact valid a b swapped).2.1, Qudit.dims, Qudit.dims, List.map_map]
  exact List.map_congr_left fun q _ => Qudit.dim_swap a b q flat

theorem Exact.place (valid : f.Exact) (q : Qudit) (listed : q ∈ f.qudits) : ∃ k, Assoc.find? q f.axisOf = some k := by
  cases found : Assoc.find? q f.axisOf with
  | none => exact absurd listed (valid.missing found)
  | some k => exact ⟨k, rfl⟩

theorem Exact.swaps (valid : f.Exact) (a b : Qudit) (first : a ∈ f.qudits) (second : b ∈ f.qudits) :
    ∃ g, f.swapLabels (R := R) a b = .ok g := by
  obtain ⟨j, firstPlace⟩ := valid.place a first
  obtain ⟨k, secondPlace⟩ := valid.place b second
  rw [swapLabels, axis, firstPlace, axis, secondPlace]
  exact ⟨_, rfl⟩

theorem Exact.renames (valid : f.Exact) (old new : Qudit) (member : old ∈ f.qudits) (fresh : new ∉ f.qudits) :
    ∃ g, f.rename (R := R) old new = .ok g := by
  obtain ⟨k, place⟩ := valid.place old member
  have different : old ≠ new := fun same => fresh (same ▸ member)
  cases taken : Assoc.find? new f.axisOf with
  | some j => exact absurd (List.mem_of_getElem? ((valid.inverse new j).mp taken)) fresh
  | none =>
      rw [rename, if_neg different, taken, place]
      exact ⟨_, rfl⟩

/-! The axes of some qudits. -/

theorem axesAfter_cons (f : Frame) (taken : List ℕ) (q : Qudit) (qs : List Qudit) (axes : List ℕ) :
    f.axesAfter (R := R) taken (q :: qs) = .ok axes
      ↔ ∃ a later, axes = a :: later ∧ Assoc.find? q f.axisOf = some a ∧ a ∉ taken
        ∧ f.axesAfter (R := R) (a :: taken) qs = .ok later := by
  rw [axesAfter, axis]
  cases place : Assoc.find? q f.axisOf with
  | none => simp
  | some a =>
      by_cases old : a ∈ taken
      · simp [old]
      · cases rest : f.axesAfter (R := R) (a :: taken) qs with
        | error e => simp [old, rest, Except.map]
        | ok later => simp [old, rest, Except.map, eq_comm]

theorem axesAfter_iff (f : Frame) (taken : List ℕ) (qs : List Qudit) (axes : List ℕ) :
    f.axesAfter (R := R) taken qs = .ok axes
      ↔ List.Forall₂ (fun q a => Assoc.find? q f.axisOf = some a) qs axes ∧ axes.Nodup ∧ ∀ a ∈ axes, a ∉ taken := by
  induction qs generalizing taken axes with
  | nil =>
      constructor
      · intro found
        cases found
        exact ⟨.nil, List.nodup_nil, by simp⟩
      · rintro ⟨places, -, -⟩
        cases places
        rfl
  | cons q qs ih =>
      rw [axesAfter_cons]
      constructor
      · rintro ⟨a, later, rfl, place, absent, rest⟩
        obtain ⟨places, once, fresh⟩ := (ih (a :: taken) later).mp rest
        refine ⟨.cons place places, List.nodup_cons.mpr ⟨fun member => ?_, once⟩, fun c member => ?_⟩
        · exact fresh a member List.mem_cons_self
        · rcases List.mem_cons.mp member with rfl | member
          · exact absent
          · exact fun known => fresh c member (List.mem_cons_of_mem a known)
      · rintro ⟨places, once, fresh⟩
        cases places with
        | @cons _ a _ later place places =>
            obtain ⟨alone, once⟩ := List.nodup_cons.mp once
            have rest := (ih (a :: taken) later).mpr ⟨places, once, fun c member known => by
              rcases List.mem_cons.mp known with rfl | known
              · exact alone member
              · exact fresh c (List.mem_cons_of_mem a member) known⟩
            exact ⟨a, later, rfl, place, fresh a List.mem_cons_self, rest⟩

theorem Exact.axes_iff (valid : f.Exact) (qs : List Qudit) (axes : List ℕ) :
    f.axes (R := R) qs = .ok axes ↔ List.Forall₂ (fun q a => f.qudits[a]? = some q) qs axes ∧ axes.Nodup := by
  rw [Frame.axes, axesAfter_iff]
  simp only [valid.inverse, List.not_mem_nil, not_false_eq_true, implies_true, and_true]

theorem Exact.axes_found (valid : f.Exact) (qs : List Qudit) (once : qs.Nodup) (inside : qs ⊆ f.qudits) :
    ∃ axes, f.axes (R := R) qs = .ok axes := by
  have places : List.Forall₂ (fun q a => f.qudits[a]? = some q) qs (qs.map fun q => f.qudits.idxOf q) := by
    rw [List.forall₂_map_right_iff, List.forall₂_same]
    exact fun q listed => List.getElem?_eq_some_iff.mpr ⟨_, List.getElem_idxOf (List.idxOf_lt_length_of_mem (inside listed))⟩
  refine ⟨_, (valid.axes_iff qs _).mpr ⟨places, once.map_on fun p first q second same => ?_⟩⟩
  exact (List.idxOf_inj (inside first)).mp same

theorem Exact.axes_mem (valid : f.Exact) (qs : List Qudit) (axes : List ℕ) (found : f.axes (R := R) qs = .ok axes)
    (a : ℕ) : a ∈ axes ↔ ∃ q ∈ qs, f.qudits[a]? = some q := by
  obtain ⟨places, -⟩ := (valid.axes_iff qs axes).mp found
  clear found
  induction places with
  | nil => simp
  | cons here places ih =>
      rename_i q c qs axes
      rw [List.mem_cons, ih]
      constructor
      · rintro (rfl | ⟨p, member, place⟩)
        · exact ⟨q, List.mem_cons_self, here⟩
        · exact ⟨p, List.mem_cons_of_mem q member, place⟩
      · rintro ⟨p, member, place⟩
        rcases List.mem_cons.mp member with rfl | later
        · exact Or.inl (valid.unique place here)
        · exact Or.inr ⟨p, later, place⟩

theorem Exact.rest_mem (valid : f.Exact) (qs : List Qudit) (axes : List ℕ) (found : f.axes (R := R) qs = .ok axes)
    (q : Qudit) :
    q ∈ ((List.range f.qudits.length).filter fun a => !axes.contains a).map (fun a => f.qudits.getD a default)
      ↔ q ∈ f.qudits ∧ q ∉ qs := by
  have listed := valid.axes_mem qs axes found
  rw [List.mem_map]
  constructor
  · rintro ⟨a, member, rfl⟩
    obtain ⟨bound, free⟩ := List.mem_filter.mp member
    have inside : a < f.qudits.length := List.mem_range.mp bound
    have place : f.qudits[a]? = some (f.qudits.getD a default) := by simp [inside]
    refine ⟨List.mem_of_getElem? place, fun named => ?_⟩
    have taken : a ∈ axes := (listed a).mpr ⟨_, named, place⟩
    simp [taken] at free
  · rintro ⟨member, other⟩
    obtain ⟨a, inside, place⟩ := List.getElem_of_mem member
    have here : f.qudits[a]? = some q := by rw [List.getElem?_eq_getElem inside, place]
    refine ⟨a, List.mem_filter.mpr ⟨List.mem_range.mpr inside, ?_⟩, by simp [inside, place]⟩
    have free : a ∉ axes := by
      intro taken
      obtain ⟨p, named, there⟩ := (listed a).mp taken
      rw [here] at there
      exact other (Option.some.inj there ▸ named)
    simpa [List.contains_iff_mem] using free

end Frame

/-! Failures other than a handle without a state. -/

namespace SimError

variable {R α β : Type}

def Clean (r : Except (SimError R) α) : Prop := ∀ h, r ≠ .error (.dangling h)

theorem clean_ok (a : α) : Clean (.ok a : Except (SimError R) α) := fun _ same => by cases same

theorem clean_passed (r : Except (SimError R) α) (e : SimError R) (clean : Clean r) (failed : r = .error e) :
    Clean (.error e : Except (SimError R) β) :=
  fun h same => clean h (by rw [failed]; cases same; rfl)

theorem clean_bind (r : Except (SimError R) α) (f : α → Except (SimError R) β) (first : Clean r)
    (rest : ∀ a, r = .ok a → Clean (f a)) : Clean (r >>= f) := by
  cases r with
  | ok a => exact rest a rfl
  | error e => exact clean_passed _ e first rfl

theorem bind_ok {r : Except (SimError R) α} {f : α → Except (SimError R) β} {b : β} (found : (r >>= f) = .ok b) :
    ∃ a, r = .ok a ∧ f a = .ok b := by
  cases r with
  | ok a => exact ⟨a, rfl, found⟩
  | error e => cases found

theorem clean_map (r : Except (SimError R) α) (f : α → β) (first : Clean r) : Clean (r.map f) := by
  cases r with
  | ok a => exact clean_ok (f a)
  | error e => exact clean_passed _ e first rfl

-- What a result has if there is one, while no handle without a state is met.
def Ensures (P : α → Prop) (r : Except (SimError R) α) : Prop := Clean r ∧ ∀ a, r = .ok a → P a

theorem ensures_ok (P : α → Prop) (a : α) (held : P a) : Ensures P (.ok a : Except (SimError R) α) :=
  ⟨clean_ok a, fun _ same => by cases same; exact held⟩

theorem ensures_error (P : α → Prop) (e : SimError R) (clean : Clean (.error e : Except (SimError R) α)) :
    Ensures P (.error e : Except (SimError R) α) :=
  ⟨clean, fun _ same => by cases same⟩

theorem ensures_clean (r : Except (SimError R) α) (clean : Clean r) : Ensures (fun a => r = .ok a) r :=
  ⟨clean, fun _ same => same⟩

theorem ensures_bind {P : α → Prop} {Q : β → Prop} {r : Except (SimError R) α} {f : α → Except (SimError R) β}
    (first : Ensures P r) (rest : ∀ a, P a → Ensures Q (f a)) : Ensures Q (r >>= f) := by
  cases r with
  | ok a => exact rest a (first.2 a rfl)
  | error e => exact ensures_error Q e (clean_passed _ e first.1 rfl)

end SimError

namespace Frame

open SimError

variable {R : Type}

theorem clean_of (qs : List Qudit) (source : SourceRef) (log : LogRef) : Clean (of (R := R) qs source log) := by
  intro h
  simp only [of]
  split <;> simp

theorem clean_axis (f : Frame) (q : Qudit) : Clean (f.axis (R := R) q) := by
  intro h
  rw [axis]
  split <;> simp

theorem clean_axes (f : Frame) (qs : List Qudit) : Clean (f.axes (R := R) qs) := by
  have always : ∀ taken, Clean (f.axesAfter (R := R) taken qs) := by
    induction qs with
    | nil => exact fun taken => clean_ok []
    | cons q qs ih =>
        intro taken h
        have here := clean_axis (R := R) f q
        rw [axesAfter]
        split
        · rename_i e failed
          exact clean_passed _ e here failed h
        · split
          · simp
          · exact clean_map _ _ (ih _) h
  exact always []

theorem clean_permutation (f : Frame) (order : List Qudit) : Clean (f.permutation (R := R) order) := by
  intro h
  rw [permutation]
  split
  · simp
  · exact clean_axes f order h

theorem clean_rename (f : Frame) (old new : Qudit) : Clean (f.rename (R := R) old new) := by
  intro h
  rw [rename]
  split
  · simp
  · split
    · simp
    · split <;> simp

theorem clean_swapLabels (f : Frame) (a b : Qudit) : Clean (f.swapLabels (R := R) a b) := by
  intro h
  have first := clean_axis (R := R) f a
  have second := clean_axis (R := R) f b
  rw [swapLabels]
  split
  · rename_i e failed
    exact clean_passed _ e first failed h
  · split
    · rename_i e failed
      exact clean_passed _ e second failed h
    · simp

end Frame

end QuantumRegister
