import QuantumRegister.Proofs.Register.Shares

/-!
The joint state of a register in any representation. Where joining two states multiplies their values,
at every place that their labels admit, the value of the joint state is the product over all states.
-/

set_option autoImplicit false

namespace QuantumRegister

open QuantumRegister.Register (Arena holdings_of_live state_of_live)

namespace Representation

variable {R S Y M : Type} [Representation R S] [CommMonoid M]

structure Joins (fits : S → Prop) (admits : List Qudit → Y → Prop) (value : S → Y → M) : Prop where
  narrow : ∀ {L N : List Qudit} {y : Y}, L ⊆ N → admits N y → admits L y
  joined : ∀ t u, fits t → fits u → (qudits t ++ qudits u).Nodup → ∃ v, kronecker t u = .ok v ∧ fits v
    ∧ qudits v = qudits t ++ qudits u ∧ ∀ y, admits (qudits v) y → value v y = value t y * value u y

-- The order of the labels does not matter to the value.
structure Merges (fits : S → Prop) (admits : List Qudit → Y → Prop) (value : S → Y → M) : Prop extends Joins fits admits value where
  turned : ∀ t order, fits t → order.Perm (qudits t) → ∃ u, transposed t order = .ok u ∧ fits u ∧ qudits u = order
    ∧ ∀ y, admits order y → value u y = value t y

variable {s : Settings R} {r : Register R S} {fits : S → Prop} {admits : List Qudit → Y → Prop} {value : S → Y → M}

theorem Joins.product (joins : Joins fits admits value) (first : S) (hs : List ℕ) (fit : fits first)
    (live : ∀ h ∈ hs, ∃ t, r.slots.get? h = some t ∧ fits t) (once : (qudits first ++ hs.flatMap r.holdings).Nodup) :
    ∃ v, r.product first hs = .ok v ∧ fits v ∧ qudits v = qudits first ++ hs.flatMap r.holdings
      ∧ ∀ y, admits (qudits v) y → value v y = value first y * (hs.map (r.slots.part (value · y))).prod := by
  induction hs generalizing first with
  | nil => exact ⟨first, rfl, fit, (List.append_nil _).symm, fun y _ => (mul_one _).symm⟩
  | cons h hs ih =>
      obtain ⟨t, here, fine⟩ := live h List.mem_cons_self
      rw [List.flatMap_cons, holdings_of_live r h t here, ← List.append_assoc] at once ⊢
      obtain ⟨u, joined, fitJoint, listed, values⟩ := joins.joined first t fit fine (List.nodup_append.mp once).1
      obtain ⟨v, done, fitAll, all, valuesAll⟩ := ih u fitJoint (fun k member => live k (List.mem_cons_of_mem h member))
        (by rwa [listed])
      refine ⟨v, ?_, fitAll, by rw [all, listed], fun y admitted => ?_⟩
      · rw [Register.product, state_of_live r h t here]
        exact (congrArg (· >>= fun u => r.product u hs) joined).trans done
      · have part : admits (qudits u) y := joins.narrow (all ▸ List.subset_append_left _ _) admitted
        rw [valuesAll y admitted, values y part, List.map_cons, List.prod_cons, Slots.part_live _ h t here, mul_assoc]

theorem Merges.merged (merges : Merges fits admits value) (valid : Arena s r) (each : ∀ h t, r.slots.get? h = some t → fits t) :
    ∃ m, r.merged = .ok m ∧ fits m ∧ qudits m = r.qudits
      ∧ ∀ y, admits r.qudits y → value m y = r.slots.whole (value · y) := by
  obtain ⟨hs, found⟩ := valid.owners_found r.qudits (List.Subset.refl _)
  obtain ⟨base, atHome, -⟩ := valid.home
  obtain ⟨once, all⟩ := valid.everyone hs found
  have distinct := valid.holdings_nodup _ once
  have perm := valid.perm_everyone hs found
  rw [List.flatMap_cons, holdings_of_live r r.home base atHome] at distinct perm
  have live : ∀ h ∈ hs.filter (· != r.home), ∃ t, r.slots.get? h = some t ∧ fits t := fun h member => by
    obtain ⟨t, here⟩ := (all h).mp (List.mem_cons_of_mem _ member)
    exact ⟨t, here, each h t here⟩
  obtain ⟨v, made, fit, listed, values⟩ := merges.product base _ (each r.home base atHome) live distinct
  obtain ⟨m, turned, fitTurned, order, same⟩ := merges.turned v r.qudits fit (listed ▸ perm)
  refine ⟨m, ?_, fitTurned, order, fun y admitted => ?_⟩
  · simp only [Register.merged, bind, Except.bind, found, state_of_live r r.home base atHome, made, turned]
  · have part : admits (qudits v) y := merges.narrow (listed ▸ perm.symm.subset) admitted
    rw [same y admitted, values y part, valid.whole_everyone hs found, Slots.part_live _ r.home base atHome]

end Representation

/-! Registers with the same joint state. -/

namespace Register

open QuantumRegister.Representation (Joins)

structure Kept {R S Y M : Type} [Representation R S] [CommMonoid M] (fits : S → Prop) (admits : List Qudit → Y → Prop)
    (value : S → Y → M) (r r' : Register R S) : Prop where
  qudits : r'.qudits = r.qudits
  source : r'.source = r.source
  log : r'.log = r.log
  fits : ∀ h t, r'.slots.get? h = some t → fits t
  whole : ∀ y, admits r.qudits y → r'.slots.whole (value · y) = r.slots.whole (value · y)

variable {R S Y M : Type} [Representation R S] [CommMonoid M] {fits : S → Prop} {admits : List Qudit → Y → Prop} {value : S → Y → M}
  {s : Settings R} {r r' r'' : Register R S} {h : ℕ} {qs : List Qudit} (valid : Arena s r) (joins : Joins fits admits value)
  (each : ∀ h t, r.slots.get? h = some t → fits t)

include each in
theorem Kept.refl : Kept fits admits value r r := ⟨rfl, rfl, rfl, each, fun _ _ => rfl⟩

theorem Kept.trans (first : Kept fits admits value r r') (second : Kept fits admits value r' r'') : Kept fits admits value r r'' :=
  ⟨second.qudits.trans first.qudits, second.source.trans first.source, second.log.trans first.log, second.fits, fun y admitted =>
    (second.whole y (first.qudits.symm ▸ admitted)).trans (first.whole y admitted)⟩

include each in
theorem Kept.put (t u : S) (live : r.slots.get? h = some t) (fit : fits u) (same : ∀ y, value u y = value t y) :
    Kept fits admits value r { r with slots := r.slots.put h u } := by
  have inside := Slots.get?_inside _ _ _ live
  refine ⟨rfl, rfl, rfl, fun k v here => ?_, fun y _ => ?_⟩
  · rw [Slots.get?_put r.slots h k u inside] at here
    split at here
    · cases here
      exact fit
    · exact each k v here
  · rw [Slots.whole_split _ h u (Slots.get?_put_self r.slots h u inside), Slots.rest_put _ h t u live,
      Slots.whole_split r.slots h t live, same y]

include valid joins each

theorem Arena.merge_done (inside : qs ⊆ r.qudits) :
    ∃ h r' t, r.merge qs = .ok (h, r') ∧ r'.slots.get? h = some t ∧ Kept fits admits value r r' := by
  obtain ⟨hs, found⟩ := valid.owners_found qs inside
  obtain ⟨once, named, -⟩ := (valid.ownersOf qs).2 hs found
  have live : ∀ h ∈ hs, ∃ t, r.slots.get? h = some t ∧ fits t := by
    intro h member
    obtain ⟨q, -, owns⟩ := named h member
    obtain ⟨t, here, -⟩ := (mem_holdings r h q).mp owns
    exact ⟨t, here, each h t here⟩
  rw [Register.merge, found]
  match hs with
  | [] =>
      obtain ⟨t, here, -⟩ := valid.home
      exact ⟨r.home, r, t, rfl, here, .refl each⟩
  | [h] =>
      obtain ⟨t, here, -⟩ := live h List.mem_cons_self
      exact ⟨h, r, t, rfl, here, .refl each⟩
  | h :: k :: rest =>
      obtain ⟨t, first, fit⟩ := live h List.mem_cons_self
      have distinct := valid.holdings_nodup (h :: k :: rest) once
      rw [List.flatMap_cons, holdings_of_live r h t first] at distinct
      obtain ⟨v, made, fine, listed, product⟩ := joins.product t (k :: rest) fit
        (fun j member => live j (List.mem_cons_of_mem h member)) distinct
      have inRange : ∀ j ∈ h :: k :: rest, j < r.slots.cells.length := fun j member => by
        obtain ⟨u, there, -⟩ := live j member
        exact Slots.get?_inside _ _ _ there
      have read := (replace_slots r (h :: k :: rest) v (List.cons_ne_nil _ _) inRange).2.2
      have among : Representation.qudits v ⊆ r.qudits := fun q owns => by
        rw [listed, ← holdings_of_live r h t first, ← List.flatMap_cons] at owns
        obtain ⟨j, -, owned⟩ := List.mem_flatMap.mp owns
        exact valid.holdings_listed j q owned
      refine ⟨(r.replace (h :: k :: rest) v).1, (r.replace (h :: k :: rest) v).2, v, ?_, (read _).trans (if_pos rfl), rfl, rfl, rfl,
        fun j u here => ?_, fun y admitted => whole_replace r _ v (List.cons_ne_nil _ _) once inRange ?_⟩
      · simp only [bind, Except.bind, state_of_live r h t first, made]
        rfl
      · rw [read j] at here
        split at here
        · cases here
          exact fine
        · split at here
          · cases here
          · exact each j u here
      · rw [product y (joins.narrow among admitted), List.map_cons (l := k :: rest), List.prod_cons, Slots.part_live _ h t first]

theorem Arena.merge_keeps (done : r.merge qs = .ok (h, r')) : Kept fits admits value r r' := by
  obtain ⟨hs, found, -⟩ := SimError.bind_ok done
  obtain ⟨-, -, known⟩ := (valid.ownersOf qs).2 hs found
  have inside : qs ⊆ r.qudits := fun q listed => by
    obtain ⟨k, -, owns⟩ := known q listed
    exact valid.holdings_listed k q owns
  obtain ⟨_, _, _, done', -, kept⟩ := valid.merge_done joins each inside
  cases done.symm.trans done'
  exact kept

end Register

end QuantumRegister
