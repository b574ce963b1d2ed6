import QuantumRegister.Proofs.Register.Transition

/-!
The groups of a register over a run. As long as nothing is split off, two qudits share a state exactly
when the operations so far connect them; an exchange of labels carries every connection along.
-/

set_option autoImplicit false

namespace QuantumRegister

open QuantumRegister.Representation (frame setFrame duplicate)

/-- Connected through lists of qudits, from one member of a list to any other. -/
def Connected (web : List (List Qudit)) : Qudit → Qudit → Prop :=
  Relation.EqvGen fun a b => ∃ strand ∈ web, a ∈ strand ∧ b ∈ strand

namespace Connected

variable {web : List (List Qudit)} {strand : List Qudit} {a b c : Qudit}

theorem refl (a : Qudit) : Connected web a a := Relation.EqvGen.refl a

theorem symm (connected : Connected web a b) : Connected web b a := Relation.EqvGen.symm a b connected

theorem trans (first : Connected web a b) (second : Connected web b c) : Connected web a c :=
  Relation.EqvGen.trans a b c first second

theorem of_mem (member : strand ∈ web) (first : a ∈ strand) (second : b ∈ strand) : Connected web a b :=
  Relation.EqvGen.rel a b ⟨strand, member, first, second⟩

theorem mono {net : List (List Qudit)} (subset : web ⊆ net) (connected : Connected web a b) : Connected net a b :=
  Relation.EqvGen.mono (fun _ _ ⟨strand, member, both⟩ => ⟨strand, subset member, both⟩) a b connected

theorem nil_iff : Connected [] a b ↔ a = b := by
  refine ⟨fun connected => ?_, fun same => same ▸ refl a⟩
  induction connected with
  | rel _ _ link => obtain ⟨_, member, -⟩ := link; cases member
  | refl _ => rfl
  | symm _ _ _ ih => exact ih.symm
  | trans _ _ _ _ _ first second => exact first.trans second

-- One more list makes one class of all classes that it meets.
theorem cons_iff : Connected (strand :: web) a b
    ↔ Connected web a b ∨ (∃ u ∈ strand, Connected web u a) ∧ ∃ v ∈ strand, Connected web v b := by
  constructor
  · intro connected
    induction connected with
    | rel x y link =>
        obtain ⟨e, member, first, second⟩ := link
        rcases List.mem_cons.mp member with rfl | old
        · exact Or.inr ⟨⟨x, first, refl x⟩, ⟨y, second, refl y⟩⟩
        · exact Or.inl (of_mem old first second)
    | refl x => exact Or.inl (refl x)
    | symm x y _ ih => exact ih.imp symm And.symm
    | trans x y z _ _ ih ih' =>
        obtain first | ⟨left, v, member, near⟩ := ih
        · obtain second | ⟨⟨u, member, near⟩, right⟩ := ih'
          · exact Or.inl (first.trans second)
          · exact Or.inr ⟨⟨u, member, near.trans first.symm⟩, right⟩
        · obtain second | ⟨-, right⟩ := ih'
          · exact Or.inr ⟨left, v, member, near.trans second⟩
          · exact Or.inr ⟨left, right⟩
  · rintro (old | ⟨⟨u, first, near⟩, v, second, far⟩)
    · exact old.mono (List.subset_cons_self strand web)
    · have link : Connected (strand :: web) u v := of_mem List.mem_cons_self first second
      exact (near.mono (List.subset_cons_self strand web)).symm.trans (link.trans (far.mono (List.subset_cons_self strand web)))

theorem map (f : Qudit → Qudit) (connected : Connected web a b) : Connected (web.map (List.map f)) (f a) (f b) := by
  induction connected with
  | rel x y link =>
      obtain ⟨e, member, first, second⟩ := link
      exact of_mem (List.mem_map_of_mem member) (List.mem_map_of_mem first) (List.mem_map_of_mem second)
  | refl x => exact refl _
  | symm x y _ ih => exact ih.symm
  | trans x y z _ _ first second => exact first.trans second

theorem swap_iff (p q : Qudit) : Connected (web.map (List.map (Equiv.swap p q))) a b
    ↔ Connected web (Equiv.swap p q a) (Equiv.swap p q b) := by
  constructor
  · intro connected
    have back := connected.map (Equiv.swap p q)
    have twice : (web.map (List.map (Equiv.swap p q))).map (List.map (Equiv.swap p q)) = web := by
      simp [Function.comp_def]
    rwa [twice] at back
  · intro connected
    have forth := connected.map (Equiv.swap p q)
    rwa [Equiv.swap_apply_self, Equiv.swap_apply_self] at forth

end Connected

instance (Q qs : List Qudit) : Decidable (Names Q qs) :=
  decidable_of_iff (qs.Nodup ∧ ∀ q ∈ qs, q ∈ Q) ⟨fun ⟨once, inside⟩ => ⟨once, inside⟩, fun ⟨once, inside⟩ => ⟨once, inside⟩⟩

/-- The connections after an operation on a register of some qudits. One that does nothing or is
rejected adds none. -/
def weave {R : Type} (Q : List Qudit) (op : Operation R) (web : List (List Qudit)) : List (List Qudit) :=
  if op.isIdentity || !decide (Names Q op.qudits) then web
  else
    match op.isSwap, op.qudits with
    | true, [a, b] => if a.dim = b.dim then web.map (List.map (Equiv.swap a b)) else web
    | _, qs => qs :: web

section Weave

variable {R : Type} {Q : List Qudit} {op : Operation R} {web : List (List Qudit)}

theorem weave_idle (idle : op.isIdentity = true ∨ ¬Names Q op.qudits) : weave Q op web = web := by
  refine if_pos ?_
  rw [Bool.or_eq_true, Bool.not_eq_true', decide_eq_false_iff_not]
  exact idle

theorem weave_swap {a b : Qudit} (acts : op.isIdentity = false) (names : Names Q op.qudits) (swaps : op.isSwap = true)
    (listed : op.qudits = [a, b]) :
    weave Q op web = if a.dim = b.dim then web.map (List.map (Equiv.swap a b)) else web := by
  rw [weave, if_neg (by simp [acts, names]), swaps, listed]

theorem weave_unites (unites : op.Unites Q) : weave Q op web = op.qudits :: web := by
  obtain ⟨acts, joint, names⟩ := unites
  rw [weave, if_neg (by simp [acts, names])]
  cases swaps : op.isSwap with
  | false => rfl
  | true =>
      have other := joint swaps
      generalize op.qudits = qs at other ⊢
      match qs with
      | [] | [_] | _ :: _ :: _ :: _ => rfl
      | [a, b] => exact absurd rfl other

end Weave

namespace Register

variable {R S : Type} [Scalar R] [Representation R S] {s : Settings R} {r r' : Register R S} {w : Workspace R S}
  {op : Operation R} {web : List (List Qudit)} {a b p q : Qudit}

/-- Runs without a collapse, each with the connections that it has made. Where states are not split, all
qudits are connected from the beginning. -/
inductive Woven (s : Settings R) : List (List Qudit) → Workspace R S → Prop
  | new (r : Register R S) (c c' : Cells) (made : Register.new s c = .ok (r, c')) :
      Woven s (if s.split then [] else [r.qudits]) ⟨r, c'⟩
  | apply (web : List (List Qudit)) (w : Workspace R S) (op : Operation R) (before : Woven s web w)
      (quiet : op.collapses = false) : Woven s (weave w.register.qudits op web) (Register.apply op w).2
  | copy (web : List (List Qudit)) (w : Workspace R S) (deep : Bool) (before : Woven s web w) :
      Woven s web ⟨(w.register.copy deep w.cells).1, (w.register.copy deep w.cells).2⟩
  | meanwhile (web : List (List Qudit)) (w : Workspace R S) (c : Cells) (before : Woven s web w) : Woven s web ⟨w.register, c⟩

theorem Woven.reached (woven : Woven s web w) : Reached s w := by
  induction woven with
  | new r c c' made => exact .new r c c' made
  | apply web w op _ _ ih => exact .apply w op ih
  | copy web w deep _ ih => exact .copy w deep ih
  | meanwhile web w c _ ih => exact .meanwhile w c ih

/-! The owners, and what is asked of them. -/

omit [Scalar R] [Representation R S] in
theorem owner_ok (r : Register R S) (q : Qudit) (h : ℕ) : r.owner q = .ok h ↔ Assoc.find? q r.owners = some h := by
  rw [Register.owner]
  cases Assoc.find? q r.owners <;> simp

theorem Arena.together_owners (valid : Arena s r) : r.Together a b ↔ ∃ h, r.owner a = .ok h ∧ r.owner b = .ok h := by
  rw [together_iff]
  simp only [mem_holdings, owner_ok, valid.owned]

theorem Arena.sameState_iff (valid : Arena s r) (first : a ∈ r.qudits) (second : b ∈ r.qudits) :
    ∃ v, r.sameState a b = .ok v ∧ (v = true ↔ r.Together a b) := by
  obtain ⟨h, -, left, -⟩ := valid.owner_found a first
  obtain ⟨k, -, right, -⟩ := valid.owner_found b second
  refine ⟨h == k, ?_, ?_⟩
  · simp only [Register.sameState, left, right, bind, Except.bind]
    rfl
  · rw [valid.together_owners, left, right, beq_iff_eq]
    simp [eq_comm]

theorem new_together (valid : Arena s r) (c c' : Cells) (made : Register.new s c = .ok (r, c')) (first : a ∈ r.qudits)
    (second : b ∈ r.qudits) : r.Together a b ↔ Connected (if s.split then [] else [r.qudits]) a b := by
  obtain ⟨h, -, owner, -⟩ := valid.owner_found a first
  rw [valid.together_owners]
  have read (q : Qudit) (k : ℕ) : r.owner q = .ok k ↔ (q, k) ∈ r.owners :=
    (owner_ok r q k).trans (Assoc.find?_eq_some r.owners (valid.keys ▸ valid.canonical) q k)
  simp only [read] at owner ⊢
  obtain ⟨qs, -, made⟩ := SimError.bind_ok made
  obtain ⟨states, -, made⟩ := SimError.bind_ok made
  cases made
  cases mode : s.split with
  | true =>
      simp only [mode, if_true] at owner ⊢
      rw [Connected.nil_iff]
      refine ⟨?_, fun same => ⟨h, owner, same ▸ owner⟩⟩
      rintro ⟨k, left, right⟩
      obtain ⟨i, _, here⟩ := List.mem_iff_getElem.mp left
      obtain ⟨j, _, there⟩ := List.mem_iff_getElem.mp right
      simp only [List.getElem_zip, List.getElem_range, Prod.mk.injEq] at here there
      obtain ⟨rfl, rfl⟩ := here
      obtain ⟨rfl, rfl⟩ := there
      rfl
  | false =>
      simp only [Bool.false_eq_true, if_false]
      refine iff_of_true ⟨0, List.mem_map.mpr ⟨a, first, rfl⟩, List.mem_map.mpr ⟨b, second, rfl⟩⟩ ?_
      exact Connected.of_mem List.mem_cons_self first second

/-! The steps of a run. -/

theorem Arena.apply_rejected (valid : Arena s w.register) (acts : op.isIdentity = false) (unowned : ¬Names w.register.qudits op.qudits) :
    ∃ e, w.register.checkTargets op.qudits = .error e ∧ Register.apply op w = (.error e, w) := by
  cases checked : w.register.checkTargets op.qudits with
  | ok u => exact absurd (valid.checkTargets_names op.qudits checked) unowned
  | error e =>
      refine ⟨e, rfl, ?_⟩
      rw [Register.apply, if_neg (by rw [acts]; exact Bool.false_ne_true), act_bind_apply, change, checked]
      rfl

theorem Arena.apply_exchange (valid : Arena s w.register) (acts : op.isIdentity = false) (names : Names w.register.qudits op.qudits)
    (swaps : op.isSwap = true) (listed : op.qudits = [a, b]) :
    Register.apply op w = change (fun r => do return ((), ← r.exchange a b)) w := by
  have checked := valid.checkTargets_done op.qudits names
  rw [Register.apply, if_neg (by rw [acts]; exact Bool.false_ne_true), act_bind_apply, change, checked]
  simp only [bind, Except.bind, pure, Except.pure, swaps, listed]

variable [LawfulRepresentation R S]

theorem Arena.exchange_together (valid : Arena s r) (first : a ∈ r.qudits) (second : b ∈ r.qudits) (done : r.exchange a b = .ok r') :
    r'.Together p q ↔ r.Together (Equiv.swap a b p) (Equiv.swap a b q) := by
  have after := (valid.exchange a b).2 r' done
  have owner := valid.swapped_owner after (valid.exchanged a b done) first second
  rw [after.together_owners, valid.together_owners, owner, owner]

theorem groups_copy (r : Register R S) (deep : Bool) (c : Cells) : (r.copy deep c).1.groups = r.groups := by
  rw [Register.groups, Register.groups, Register.states, Register.states, Register.slots_copy]
  simp only [Slots.live_map, List.map_map]
  exact List.map_congr_left fun t _ => qudits_setFrame (duplicate deep t) _

theorem Arena.apply_together (valid : Arena s w.register) (first : a ∈ w.register.qudits) (second : b ∈ w.register.qudits)
    (before : ∀ p ∈ w.register.qudits, ∀ q ∈ w.register.qudits, w.register.Together p q ↔ Connected web p q)
    (law : op.Unites w.register.qudits → Regrouped False op w) :
    (Register.apply op w).2.register.Together a b ↔ Connected (weave w.register.qudits op web) a b := by
  by_cases idle : op.isIdentity = true
  · have still : Register.apply op w = (.ok (), w) := by
      rw [Register.apply, if_pos idle]
      rfl
    rw [still, weave_idle (Or.inl idle)]
    exact before a first b second
  have acts : op.isIdentity = false := Bool.eq_false_iff.mpr idle
  by_cases names : Names w.register.qudits op.qudits
  · by_cases joint : op.isSwap = true → op.qudits.length ≠ 2
    · have unites : op.Unites w.register.qudits := ⟨acts, joint, names⟩
      rw [(law unites).together, weave_unites unites, Connected.cons_iff, and_iff_left fun _ none => none.elim]
      have touched (p : Qudit) (listed : p ∈ w.register.qudits) :
          w.register.Touched op.qudits p ↔ ∃ q ∈ op.qudits, Connected web q p :=
        exists_congr fun q => and_congr_right fun member => before q (names.inside member) p listed
      exact or_congr (before a first b second) (and_congr (touched a first) (touched b second))
    · obtain ⟨swaps, two⟩ := Classical.not_imp.mp joint
      obtain ⟨p, q, listed⟩ := List.length_eq_two.mp (not_not.mp two)
      have owned : Names w.register.qudits [p, q] := listed ▸ names
      rw [valid.apply_exchange acts names swaps listed, weave_swap acts names swaps listed]
      by_cases flat : p.dim = q.dim
      · obtain ⟨r', done⟩ := valid.exchange_done p q flat owned.first owned.second
        have changed : change (fun r => do return ((), ← r.exchange p q)) w = (.ok (), { w with register := r' }) := by
          simp only [change, done, bind, Except.bind, pure, Except.pure]
        rw [changed, if_pos flat, Connected.swap_iff, valid.exchange_together owned.first owned.second done]
        exact before _ (mem_swap _ p q a owned.first owned.second first) _ (mem_swap _ p q b owned.first owned.second second)
      · have refused : change (fun r => do return ((), ← r.exchange p q)) w = (.error (.shapeMismatch [p.dim] [q.dim]), w) := by
          simp only [change, Register.exchange, if_pos flat, bind, Except.bind]
        rw [refused, if_neg flat]
        exact before a first b second
  · obtain ⟨e, -, still⟩ := valid.apply_rejected acts names
    rw [still, weave_idle (Or.inr names)]
    exact before a first b second

theorem Woven.together (law : ∀ (w : Workspace R S) (op : Operation R), Reached s w → op.Unites w.register.qudits →
      op.collapses = false → Regrouped False op w) (woven : Woven s web w) (first : a ∈ w.register.qudits)
    (second : b ∈ w.register.qudits) : w.register.Together a b ↔ Connected web a b := by
  induction woven generalizing a b with
  | new r c c' made => exact new_together (new_arena c c' made) c c' made first second
  | apply web w op before quiet ih =>
      have valid := before.reached.arena
      have kept := valid.qudits_kept (meets_apply op w valid).1
      exact valid.apply_together (kept ▸ first) (kept ▸ second) (fun p left q right => ih left right)
        fun unites => law w op before.reached unites quiet
  | copy web w deep before ih =>
      rw [Register.Together, groups_copy]
      exact ih first second
  | meanwhile web w c before ih => exact ih first second

theorem woven_flip {S : Type} [Representation ℝ S] [LawfulRepresentation ℝ S] (r : Register ℝ S) (c : Cells)
    (made : Register.new pairSettings {} = .ok (r, c)) :
    (Register.apply (Gate.cx (Qudit.qubit 0) (Qudit.qubit 1)).operation ⟨r, c⟩).2.register.qudits = [Qudit.qubit 0, Qudit.qubit 1]
      ∧ Woven pairSettings [[Qudit.qubit 0, Qudit.qubit 1]]
        (Register.apply (Gate.cx (Qudit.qubit 0) (Qudit.qubit 1)).operation ⟨r, c⟩).2 := by
  have order : r.qudits = [Qudit.qubit 0, Qudit.qubit 1] := (Option.some.inj (new_arena {} c made).order).symm
  have unites : (Gate.cx (Qudit.qubit 0) (Qudit.qubit 1) : Gate ℝ).operation.Unites r.qudits := by
    rw [order]
    exact ⟨rfl, fun swaps => absurd swaps Bool.false_ne_true, by decide, by decide⟩
  have begun : Woven pairSettings [] ⟨r, c⟩ := .new r {} c made
  have flipped := Woven.apply [] ⟨r, c⟩ (Gate.cx (Qudit.qubit 0) (Qudit.qubit 1)).operation begun rfl
  rw [weave_unites unites] at flipped
  exact ⟨(Option.some.inj flipped.reached.arena.order).symm, flipped⟩

end Register

open Register

theorem groups_follow_operations (s : Settings ℝ) :
    ((∀ (w : Workspace ℝ (DenseState ℝ)) (op : Operation ℝ), Reached s w → op.Unites w.register.qudits →
          Regrouped (w.register.split = true ∧ op.collapses = true) op w)
        ∧ ∀ (w : Workspace ℝ (StabilizerState ℝ)) (op : Operation ℝ), Reached s w → op.Unites w.register.qudits → Regrouped False op w)
      ∧ (∀ (web : List (List Qudit)) (w : Workspace ℝ (DenseState ℝ)), Woven s web w → ∀ a ∈ w.register.qudits, ∀ b ∈ w.register.qudits,
          ∃ v, w.register.sameState a b = .ok v ∧ (v = true ↔ Connected web a b))
        ∧ ∀ (web : List (List Qudit)) (w : Workspace ℝ (StabilizerState ℝ)), Woven s web w → ∀ a ∈ w.register.qudits,
          ∀ b ∈ w.register.qudits, ∃ v, w.register.sameState a b = .ok v ∧ (v = true ↔ Connected web a b) := by
  refine ⟨⟨fun w op => Reached.regrouped_dense, fun w op => Reached.regrouped_stabilizer⟩, fun web w woven a first b second => ?_,
    fun web w woven a first b second => ?_⟩
  · obtain ⟨v, asked, same⟩ := woven.reached.arena.sameState_iff first second
    refine ⟨v, asked, same.trans (woven.together (fun w op reached unites quiet => ?_) first second)⟩
    obtain ⟨together, alone⟩ := reached.regrouped_dense unites
    rw [quiet] at together alone
    exact ⟨fun a b => by simpa using together a b, fun _ none => none.elim⟩
  · obtain ⟨v, asked, same⟩ := woven.reached.arena.sameState_iff first second
    exact ⟨v, asked, same.trans (woven.together (fun w op reached unites _ => reached.regrouped_stabilizer unites) first second)⟩

theorem groups_follow_operations_pair :
    (∃ (w : Workspace ℝ (DenseState ℝ)) (v : Bool), Reached pairSettings w
        ∧ Regrouped (w.register.split = true ∧ (Operation.reset [Qudit.qubit 0] : Operation ℝ).collapses = true)
          (Operation.reset [Qudit.qubit 0]) w
        ∧ w.register.sameState (Qudit.qubit 0) (Qudit.qubit 1) = .ok v
        ∧ (v = true ↔ Connected [[Qudit.qubit 0, Qudit.qubit 1]] (Qudit.qubit 0) (Qudit.qubit 1)))
      ∧ ∃ (w : Workspace ℝ (StabilizerState ℝ)) (v : Bool), Reached pairSettings w
        ∧ Regrouped False (Operation.reset [Qudit.qubit 0]) w
        ∧ w.register.sameState (Qudit.qubit 0) (Qudit.qubit 1) = .ok v
        ∧ (v = true ↔ Connected [[Qudit.qubit 0, Qudit.qubit 1]] (Qudit.qubit 0) (Qudit.qubit 1)) := by
  obtain ⟨r, c, made⟩ := pair_dense
  obtain ⟨r', c', made'⟩ := pair_stabilizer
  obtain ⟨order, woven⟩ := woven_flip r c made
  obtain ⟨order', woven'⟩ := woven_flip r' c' made'
  have resets : (Operation.reset [Qudit.qubit 0] : Operation ℝ).Unites [Qudit.qubit 0, Qudit.qubit 1] :=
    ⟨rfl, fun swaps => absurd swaps Bool.false_ne_true, by decide, by decide⟩
  obtain ⟨⟨step, step'⟩, run, run'⟩ := groups_follow_operations pairSettings
  obtain ⟨v, asked, same⟩ := run _ _ woven (Qudit.qubit 0) (by rw [order]; decide) (Qudit.qubit 1) (by rw [order]; decide)
  obtain ⟨v', asked', same'⟩ := run' _ _ woven' (Qudit.qubit 0) (by rw [order']; decide) (Qudit.qubit 1) (by rw [order']; decide)
  exact ⟨⟨_, v, woven.reached, step _ _ woven.reached (order ▸ resets), asked, same⟩,
    ⟨_, v', woven'.reached, step' _ _ woven'.reached (order' ▸ resets), asked', same'⟩⟩

def wholePair : Settings ℝ := { pairSettings with split := false }

-- Without splitting, qubits share a state before any operation.
theorem whole_register_together : ∃ (r : Register ℝ (DenseState ℝ)) (c : Cells), Register.new wholePair {} = .ok (r, c)
    ∧ r.sameState (Qudit.qubit 0) (Qudit.qubit 1) = .ok true ∧ ¬Connected [] (Qudit.qubit 0) (Qudit.qubit 1) := by
  have begun : ∃ r c, Register.new (S := DenseState ℝ) wholePair {} = .ok (r, c) := by
    rw [Register.new, show wholePair.validate = .ok [Qudit.qubit 0, Qudit.qubit 1] from pair_validated]
    exact ⟨_, _, rfl⟩
  obtain ⟨r, c, made⟩ := begun
  have valid := new_arena {} c made
  have order : r.qudits = [Qudit.qubit 0, Qudit.qubit 1] := (Option.some.inj valid.order).symm
  have first : Qudit.qubit 0 ∈ r.qudits := by rw [order]; decide
  have second : Qudit.qubit 1 ∈ r.qudits := by rw [order]; decide
  obtain ⟨v, asked, same⟩ := valid.sameState_iff first second
  have together := (new_together valid {} c made first second).mpr (Connected.of_mem List.mem_cons_self first second)
  refine ⟨r, c, made, asked.trans (congrArg _ (same.mpr together)), fun connected => ?_⟩
  exact absurd (Connected.nil_iff.mp connected) (by decide)

end QuantumRegister
