import Mathlib
import QuantumRegister.Assoc

/-!
Finite maps are known by their look-ups.
-/

set_option autoImplicit false

namespace QuantumRegister

namespace Assoc

variable {κ ν : Type} [DecidableEq κ]

theorem find?_insert (k k' : κ) (v : ν) (m : List (κ × ν)) :
    find? k' (insert k v m) = if k' = k then some v else find? k' m := by
  induction m with
  | nil =>
      simp only [insert, find?]
      exact if_congr eq_comm rfl rfl
  | cons e m ih =>
      obtain ⟨key, value⟩ := e
      by_cases here : key = k
      · subst here
        by_cases same : k' = key
        · simp [insert, find?, same]
        · simp [insert, find?, same, Ne.symm same]
      · by_cases same : key = k'
        · subst same
          simp [insert, find?, here]
        · simp [insert, find?, here, same, ih]

theorem erase_cons (k key : κ) (value : ν) (m : List (κ × ν)) :
    erase k ((key, value) :: m) = if key = k then erase k m else (key, value) :: erase k m := by
  by_cases same : key = k <;> simp [erase, same]

theorem find?_erase (k k' : κ) (m : List (κ × ν)) : find? k' (erase k m) = if k' = k then none else find? k' m := by
  induction m with
  | nil => simp [erase, find?]
  | cons e m ih =>
      obtain ⟨key, value⟩ := e
      rw [erase_cons]
      by_cases here : key = k
      · subst here
        rw [if_pos rfl, ih]
        by_cases same : k' = key
        · rw [if_pos same, if_pos same]
        · rw [if_neg same, if_neg same, find?, if_neg (Ne.symm same)]
      · rw [if_neg here, find?, find?, ih]
        by_cases same : key = k'
        · subst same
          rw [if_pos rfl, if_neg here, if_pos rfl]
        · rw [if_neg same, if_neg same]

theorem find?_isSome (k : κ) (m : List (κ × ν)) : (find? k m).isSome ↔ k ∈ m.map Prod.fst := by
  induction m with
  | nil => simp [find?]
  | cons e m ih =>
      obtain ⟨key, value⟩ := e
      by_cases same : key = k
      · simp [find?, same]
      · simp only [find?, if_neg same, ih, List.map_cons, List.mem_cons, Ne.symm same, false_or]

theorem find?_eq_some (m : List (κ × ν)) (once : (m.map Prod.fst).Nodup) (k : κ) (v : ν) :
    find? k m = some v ↔ (k, v) ∈ m := by
  induction m with
  | nil => simp [find?]
  | cons e m ih =>
      obtain ⟨key, value⟩ := e
      obtain ⟨fresh, once⟩ := List.nodup_cons.mp once
      by_cases same : key = k
      · subst same
        have absent : (key, v) ∉ m := fun member => fresh (List.mem_map.mpr ⟨(key, v), member, rfl⟩)
        simp [find?, absent, eq_comm]
      · simp [find?, same, ih once, Ne.symm same]

theorem keys_insert (k : κ) (v : ν) (m : List (κ × ν)) (known : k ∈ m.map Prod.fst) :
    (insert k v m).map Prod.fst = m.map Prod.fst := by
  induction m with
  | nil => cases known
  | cons e m ih =>
      obtain ⟨key, value⟩ := e
      by_cases same : key = k
      · simp [insert, same]
      · have later : k ∈ m.map Prod.fst := by simpa [Ne.symm same] using known
        simp [insert, same, ih later]

theorem keys_insert_new (k : κ) (v : ν) (m : List (κ × ν)) (fresh : k ∉ m.map Prod.fst) :
    (insert k v m).map Prod.fst = m.map Prod.fst ++ [k] := by
  induction m with
  | nil => rfl
  | cons e m ih =>
      obtain ⟨key, value⟩ := e
      rw [List.map_cons, List.mem_cons, not_or] at fresh
      have apart : key ≠ k := fun same => fresh.1 same.symm
      simp [insert, apart, ih fresh.2]

theorem length_insert_le (k : κ) (v : ν) (m : List (κ × ν)) : (insert k v m).length ≤ m.length + 1 := by
  by_cases known : k ∈ m.map Prod.fst
  · have same := congrArg List.length (keys_insert k v m known)
    simp only [List.length_map] at same
    omega
  · have grown := congrArg List.length (keys_insert_new k v m known)
    simp only [List.length_map, List.length_append, List.length_singleton] at grown
    omega

theorem find?_push {α : Type} (k k' : κ) (a : α) (m : List (κ × List α)) :
    find? k' (push k a m) = if k' = k then some ((find? k m).getD [] ++ [a]) else find? k' m :=
  find?_insert k k' _ m

theorem same_iff [DecidableEq ν] (m m' : List (κ × ν)) : same m m' = true ↔ ∀ k, find? k m = find? k m' := by
  rw [same, List.all_eq_true]
  constructor
  · intro agree k
    by_cases listed : k ∈ (m ++ m').map Prod.fst
    · obtain ⟨e, member, rfl⟩ := List.mem_map.mp listed
      exact of_decide_eq_true (agree e member)
    · rw [List.map_append, List.mem_append, ← find?_isSome, ← find?_isSome, not_or, Option.not_isSome_iff_eq_none,
        Option.not_isSome_iff_eq_none] at listed
      exact listed.1.trans listed.2.symm
  · exact fun agree e _ => decide_eq_true (agree e.1)

end Assoc

end QuantumRegister
