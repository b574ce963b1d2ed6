import QuantumRegister.Proofs.Assoc
import QuantumRegister.Register.Sample

/-!
Qudits sorted by their owners. Adding a qudit lengthens the group of its owner or opens one, and every
qudit is still found where it stands.
-/

set_option autoImplicit false

namespace QuantumRegister.Register.Columns

variable (a : Columns) (h : ℕ) (q : Qudit)

theorem add_known (known : h ∈ a.groups.map Prod.fst) : ∃ g ps, a.groups[g]? = some (h, ps)
    ∧ a.add h q = ⟨a.groups.set g (h, ps ++ [q]), Assoc.insert q (g, ps.length) a.columnOf⟩ := by
  obtain ⟨e, member, owner⟩ := List.mem_map.mp known
  have inside : a.groups.findIdx (·.1 == h) < a.groups.length :=
    List.findIdx_lt_length_of_exists ⟨e, member, beq_iff_eq.mpr owner⟩
  have named : (a.groups[a.groups.findIdx (·.1 == h)].1 == h) = true :=
    List.findIdx_getElem (p := fun e : ℕ × List Qudit => e.1 == h)
  have here : a.groups[a.groups.findIdx (·.1 == h)]? = some (h, a.groups[a.groups.findIdx (·.1 == h)].2) := by
    rw [List.getElem?_eq_getElem inside]
    exact congrArg some (Prod.ext (beq_iff_eq.mp named) rfl)
  refine ⟨_, _, here, ?_⟩
  simp only [add, if_pos inside, List.modify_eq_set_getElem?, List.getD_eq_getElem?_getD, here]
  rfl

theorem add_new (fresh : h ∉ a.groups.map Prod.fst) :
    a.add h q = ⟨a.groups ++ [(h, [q])], Assoc.insert q (a.groups.length, 0) a.columnOf⟩ := by
  have beyond : a.groups.findIdx (·.1 == h) = a.groups.length :=
    List.findIdx_eq_length.mpr fun e member => beq_eq_false_iff_ne.mpr fun same => fresh (List.mem_map.mpr ⟨e, member, same⟩)
  have last : (a.groups ++ [(h, ([] : List Qudit))])[a.groups.length]? = some (h, []) := List.getElem?_concat_length
  simp only [add, beyond, lt_irrefl, if_false, List.modify_eq_set_getElem?, List.getD_eq_getElem?_getD, last]
  simp

theorem add_cases (e : ℕ × List Qudit) (member : e ∈ (a.add h q).groups) :
    e ∈ a.groups ∨ e = (h, [q]) ∨ ∃ ps, (h, ps) ∈ a.groups ∧ e = (h, ps ++ [q]) := by
  by_cases known : h ∈ a.groups.map Prod.fst
  · obtain ⟨g, ps, here, added⟩ := a.add_known h q known
    rw [added] at member
    exact (List.mem_or_eq_of_mem_set member).imp_right fun joined => Or.inr ⟨ps, List.mem_of_getElem? here, joined⟩
  · rw [a.add_new h q known, List.mem_append] at member
    exact member.imp_right fun alone => Or.inl (List.mem_singleton.mp alone)

theorem handle_add (k : ℕ) (member : k ∈ (a.add h q).groups.map Prod.fst) : k = h ∨ k ∈ a.groups.map Prod.fst := by
  obtain ⟨e, added, rfl⟩ := List.mem_map.mp member
  rcases a.add_cases h q e added with old | rfl | ⟨ps, -, rfl⟩
  · exact Or.inr (List.mem_map_of_mem old)
  · exact Or.inl rfl
  · exact Or.inl rfl

def Holds : Prop :=
  ∃ g k h ps, Assoc.find? q a.columnOf = some (g, k) ∧ a.groups[g]? = some (h, ps) ∧ ps[k]? = some q

theorem holds_self : (a.add h q).Holds q := by
  by_cases known : h ∈ a.groups.map Prod.fst
  · obtain ⟨g, ps, here, added⟩ := a.add_known h q known
    have inside := (List.getElem?_eq_some_iff.mp here).1
    rw [added]
    exact ⟨g, ps.length, h, ps ++ [q], by rw [Assoc.find?_insert, if_pos rfl], List.getElem?_set_self inside,
      List.getElem?_concat_length⟩
  · rw [a.add_new h q known]
    exact ⟨a.groups.length, 0, h, [q], by rw [Assoc.find?_insert, if_pos rfl], List.getElem?_concat_length, rfl⟩

theorem holds_other {p : Qudit} (held : a.Holds p) (other : p ≠ q) : (a.add h q).Holds p := by
  obtain ⟨g, k, j, ps, place, there, stands⟩ := held
  by_cases known : h ∈ a.groups.map Prod.fst
  · obtain ⟨g', ps', here, added⟩ := a.add_known h q known
    rw [added]
    by_cases same : g' = g
    · subst same
      cases here.symm.trans there
      exact ⟨g', k, h, ps ++ [q], by rw [Assoc.find?_insert, if_neg other, place],
        List.getElem?_set_self (List.getElem?_eq_some_iff.mp here).1,
        (List.getElem?_append_left (List.getElem?_eq_some_iff.mp stands).1).trans stands⟩
    · exact ⟨g, k, j, ps, by rw [Assoc.find?_insert, if_neg other, place], (List.getElem?_set_ne same).trans there, stands⟩
  · rw [a.add_new h q known]
    exact ⟨g, k, j, ps, by rw [Assoc.find?_insert, if_neg other, place],
      (List.getElem?_append_left (List.getElem?_eq_some_iff.mp there).1).trans there, stands⟩

theorem apart_add (apart : (a.groups.map Prod.fst).Nodup) : ((a.add h q).groups.map Prod.fst).Nodup := by
  by_cases known : h ∈ a.groups.map Prod.fst
  · obtain ⟨g, ps, here, added⟩ := a.add_known h q known
    have handle : (a.groups.map Prod.fst)[g]? = some h := by rw [List.getElem?_map, here]; rfl
    have kept : (a.groups.map Prod.fst).set g h = a.groups.map Prod.fst := by
      obtain ⟨inside, rfl⟩ := List.getElem?_eq_some_iff.mp handle
      exact List.set_getElem_self inside
    rw [added, List.map_set, kept]
    exact apart
  · rw [a.add_new h q known, List.map_append]
    exact List.nodup_append'.mpr ⟨apart, List.nodup_singleton h, List.disjoint_singleton.mpr known⟩

end QuantumRegister.Register.Columns
