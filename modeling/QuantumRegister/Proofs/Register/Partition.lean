import QuantumRegister.Proofs.Register.Arena

/-!
Uniting states and splitting qudits off keeps the bookkeeping of a register.
-/

set_option autoImplicit false

namespace QuantumRegister.Register

open QuantumRegister.SimError (Clean Ensures)
open QuantumRegister.Representation (frame)

variable {R S : Type}

theorem nodup_eraseDups (hs : List ℕ) : hs.eraseDups.Nodup := by
  induction length : hs.length using Nat.strong_induction_on generalizing hs with
  | _ n ih =>
      cases hs with
      | nil => exact List.nodup_nil
      | cons h hs =>
          have shorter := List.length_filter_le (fun k => !k == h) hs
          rw [List.eraseDups_cons]
          refine List.nodup_cons.mpr ⟨fun member => ?_, ih _ ?_ _ rfl⟩
          · have kept := (List.mem_filter.mp (List.mem_eraseDups.mp member)).2
            simp at kept
          · rw [← length, List.length_cons]
            omega

theorem find?_assign (r : Register R S) (qs : List Qudit) (h : ℕ) (q : Qudit) :
    Assoc.find? q (r.assign qs h).owners = if q ∈ qs then some h else Assoc.find? q r.owners := by
  have always : ∀ m : List (Qudit × ℕ), Assoc.find? q (qs.foldl (fun owners p => Assoc.insert p h owners) m)
      = if q ∈ qs then some h else Assoc.find? q m := by
    induction qs with
    | nil => simp
    | cons p qs ih =>
        intro m
        rw [List.foldl_cons, ih, Assoc.find?_insert]
        by_cases later : q ∈ qs
        · simp [later]
        · by_cases here : q = p
          · simp [here]
          · simp [here, later]
  exact always r.owners

theorem keys_assign (r : Register R S) (qs : List Qudit) (h : ℕ) (known : ∀ q ∈ qs, q ∈ r.owners.map Prod.fst) :
    (r.assign qs h).owners.map Prod.fst = r.owners.map Prod.fst := by
  have always : ∀ m : List (Qudit × ℕ), m.map Prod.fst = r.owners.map Prod.fst →
      (qs.foldl (fun owners p => Assoc.insert p h owners) m).map Prod.fst = r.owners.map Prod.fst := by
    induction qs with
    | nil => exact fun m same => same
    | cons p qs ih =>
        intro m same
        refine ih (fun q member => known q (List.mem_cons_of_mem p member)) _ ?_
        rw [Assoc.keys_insert p h m (same ▸ known p List.mem_cons_self), same]
  exact always r.owners rfl

variable [Representation R S] {s : Settings R} {r : Register R S}

def holdings (r : Register R S) (h : ℕ) : List Qudit := ((r.slots.get? h).map Representation.qudits).getD []

theorem mem_holdings (r : Register R S) (h : ℕ) (q : Qudit) :
    q ∈ r.holdings h ↔ ∃ t, r.slots.get? h = some t ∧ q ∈ Representation.qudits t := by
  rw [holdings]
  cases r.slots.get? h <;> simp

theorem holdings_of_live (r : Register R S) (h : ℕ) (t : S) (live : r.slots.get? h = some t) :
    r.holdings h = Representation.qudits t := by
  rw [holdings, live]
  rfl

theorem Arena.ownersOf (valid : Arena s r) (qs : List Qudit) :
    Ensures (fun hs => hs.Nodup ∧ (∀ h ∈ hs, ∃ q ∈ qs, q ∈ r.holdings h) ∧ ∀ q ∈ qs, ∃ h ∈ hs, q ∈ r.holdings h)
      (r.ownersOf qs) := by
  have each : Ensures (fun hs => (∀ h ∈ hs, ∃ q ∈ qs, q ∈ r.holdings h) ∧ ∀ q ∈ qs, ∃ h ∈ hs, q ∈ r.holdings h)
      (qs.mapM r.owner) := by
    induction qs with
    | nil => exact SimError.ensures_ok _ [] ⟨by simp, by simp⟩
    | cons q qs ih =>
        rw [List.mapM_cons]
        refine SimError.ensures_bind (valid.owner q) fun h owns => SimError.ensures_bind ih fun hs ⟨named, found⟩ => ?_
        have here : q ∈ r.holdings h := (mem_holdings r h q).mpr owns
        refine SimError.ensures_ok _ _ ⟨fun k member => ?_, fun p member => ?_⟩
        · rcases List.mem_cons.mp member with rfl | later
          · exact ⟨q, List.mem_cons_self, here⟩
          · obtain ⟨p, listed, owned⟩ := named k later
            exact ⟨p, List.mem_cons_of_mem q listed, owned⟩
        · rcases List.mem_cons.mp member with rfl | later
          · exact ⟨h, List.mem_cons_self, here⟩
          · obtain ⟨k, listed, owned⟩ := found p later
            exact ⟨k, List.mem_cons_of_mem h listed, owned⟩
  refine SimError.ensures_bind each fun hs ⟨named, found⟩ => SimError.ensures_ok _ _ ⟨nodup_eraseDups hs, ?_, ?_⟩
  · exact fun h member => named h (List.mem_eraseDups.mp member)
  · intro q member
    obtain ⟨h, listed, owned⟩ := found q member
    exact ⟨h, List.mem_eraseDups.mpr listed, owned⟩

-- The last of the released handles is the next one to be given out.
theorem replace_slots (r : Register R S) (hs : List ℕ) (v : S) (some : hs ≠ []) (inside : ∀ h ∈ hs, h < r.slots.cells.length) :
    (r.replace hs v).1 ∈ hs ∧ (r.replace hs v).2.slots.cells.length = r.slots.cells.length
      ∧ ∀ j, (r.replace hs v).2.slots.get? j = if j = (r.replace hs v).1 then Option.some v
          else if j ∈ hs then none else r.slots.get? j := by
  obtain none | ⟨front, x, rfl⟩ := List.eq_nil_or_concat' hs
  · exact absurd none some
  have last : x ∈ front ++ [x] := List.mem_append_right _ (List.mem_singleton_self x)
  have free := Slots.released_last r.slots front x
  have length := Slots.released_length r.slots (front ++ [x])
  have handle : (r.replace (front ++ [x]) v).1 = x := by
    rw [Register.replace, Slots.alloc_free _ x _ v free]
  refine ⟨by rwa [handle], (Slots.alloc_length _ x _ v free).trans length, fun j => ?_⟩
  rw [handle, ← Slots.get?_released, ← Slots.get?_alloc _ x _ v free (by rw [length]; exact inside x last)]
  rfl

theorem replace_tidy (tidy : r.slots.Tidy) (hs : List ℕ) (v : S) (some : hs ≠ []) (once : hs.Nodup)
    (live : ∀ h ∈ hs, ∃ t, r.slots.get? h = Option.some t) : (r.replace hs v).2.slots.Tidy := by
  obtain none | ⟨front, x, rfl⟩ := List.eq_nil_or_concat' hs
  · exact absurd none some
  · exact (tidy.released _ once live).alloc x _ v (Slots.released_last r.slots front x)

theorem Arena.owned_replaced (valid : Arena s r) (hs : List ℕ) (v : S) (some : hs ≠ [])
    (inside : ∀ h ∈ hs, h < r.slots.cells.length)
    (listed : ∀ q, q ∈ Representation.qudits v ↔ ∃ h ∈ hs, q ∈ r.holdings h) (q : Qudit) (j : ℕ) :
    Assoc.find? q (r.replace hs v).2.owners = Option.some j
      ↔ ∃ u, (r.replace hs v).2.slots.get? j = Option.some u ∧ q ∈ Representation.qudits u := by
  obtain ⟨kept, -, read⟩ := replace_slots r hs v some inside
  rw [show (r.replace hs v).2.owners = (r.assign (Representation.qudits v) (r.replace hs v).1).owners from rfl, find?_assign, read]
  by_cases member : q ∈ Representation.qudits v
  · obtain ⟨h, old, owns⟩ := (listed q).mp member
    rw [if_pos member]
    by_cases here : j = (r.replace hs v).1
    · simp [here, member]
    · rw [if_neg here]
      by_cases dropped : j ∈ hs
      · simp [dropped, Ne.symm here]
      · have owner := (valid.owned q h).mpr ((mem_holdings r h q).mp owns)
        rw [if_neg dropped, ← valid.owned, owner, Option.some.injEq, Option.some.injEq]
        refine ⟨fun same => absurd same.symm here, fun same => absurd (same ▸ old) dropped⟩
  · have absent (dropped : j ∈ hs) : Assoc.find? q r.owners ≠ Option.some j := fun owner =>
      member ((listed q).mpr ⟨j, dropped, (mem_holdings r j q).mpr ((valid.owned q j).mp owner)⟩)
    rw [if_neg member]
    by_cases here : j = (r.replace hs v).1
    · rw [if_pos here]
      simp [absent (here ▸ kept), member]
    · rw [if_neg here]
      by_cases dropped : j ∈ hs
      · simp [absent dropped, dropped]
      · rw [if_neg dropped]
        exact valid.owned q j

theorem Arena.replace (valid : Arena s r) (hs : List ℕ) (v : S) (some : hs ≠ []) (once : hs.Nodup) (split : r.split = true)
    (owning : ∀ h ∈ hs, r.holdings h ≠ []) (exact : (frame v).Exact) (source : (frame v).source = r.source)
    (log : (frame v).log = r.log) (listed : ∀ q, q ∈ Representation.qudits v ↔ ∃ h ∈ hs, q ∈ r.holdings h) :
    Arena s (r.replace hs v).2 ∧ (r.replace hs v).2.slots.get? (r.replace hs v).1 = Option.some v := by
  have live : ∀ h ∈ hs, ∃ t, r.slots.get? h = Option.some t ∧ h ≠ r.home := by
    intro h member
    obtain ⟨q, owns⟩ := List.exists_mem_of_ne_nil _ (owning h member)
    obtain ⟨t, here, inside⟩ := (mem_holdings r h q).mp owns
    exact ⟨t, here, valid.away split h t here q inside⟩
  have inside : ∀ h ∈ hs, h < r.slots.cells.length := fun h member => by
    obtain ⟨t, here, -⟩ := live h member
    exact Slots.get?_inside _ _ _ here
  have away : ∀ h ∈ hs, h ≠ r.home := fun h member => (live h member).elim fun _ found => found.2
  have tidy := replace_tidy valid.tidy hs v some once fun h member => (live h member).imp fun _ found => found.1
  obtain ⟨kept, length, read⟩ := replace_slots r hs v some inside
  have known : ∀ q ∈ Representation.qudits v, q ∈ r.owners.map Prod.fst := by
    intro q member
    obtain ⟨h, -, owns⟩ := (listed q).mp member
    rw [← Assoc.find?_isSome, (valid.owned q h).mpr ((mem_holdings r h q).mp owns)]
    rfl
  have owned := valid.owned_replaced hs v some inside listed
  refine ⟨valid.update (r.replace hs v).2.slots _ split length (keys_assign r _ _ known) tidy ?_ (fun j u found => ?_) owned, ?_⟩
  · rw [read, if_neg (Ne.symm (away _ kept)), if_neg fun member => away _ member rfl]
  · rw [read] at found
    by_cases here : j = (r.replace hs v).1
    · rw [if_pos here] at found
      cases found
      obtain ⟨q, owns⟩ := List.exists_mem_of_ne_nil _ (owning _ kept)
      refine Or.inr ⟨here ▸ away _ kept, List.ne_nil_of_mem ((listed q).mpr ⟨_, kept, owns⟩), exact, source, log⟩
    · rw [if_neg here] at found
      split at found
      · cases found
      · exact Or.inl found
  · rw [read, if_pos rfl]

theorem Arena.owned_detached (valid : Arena s r) (q : Qudit) (h x : ℕ) (free : List ℕ) (t single rest : S)
    (here : r.slots.get? h = some t) (spare : r.slots.free = x :: free) (owns : q ∈ Representation.qudits t)
    (listFirst : Representation.qudits single = [q])
    (listSecond : ∀ p, p ∈ Representation.qudits rest ↔ p ∈ Representation.qudits t ∧ p ≠ q) (p : Qudit) (j : ℕ) :
    Assoc.find? p (Assoc.insert q x r.owners) = some j
      ↔ ∃ u, ((r.slots.put h rest).alloc single).2.get? j = some u ∧ p ∈ Representation.qudits u := by
  have vacant := (valid.vacant x).mp (spare ▸ List.mem_cons_self)
  rw [Assoc.find?_insert, Slots.get?_detached _ h x free rest single spare (Slots.get?_inside _ _ _ here) vacant.1]
  by_cases isNew : j = x
  · subst isNew
    by_cases isOwn : p = q
    · simp [isOwn, listFirst]
    · have absent : Assoc.find? p r.owners ≠ some j := fun found => by
        obtain ⟨u, there, -⟩ := (valid.owned p j).mp found
        rw [vacant.2] at there
        cases there
      simp [isOwn, listFirst, absent]
  · rw [if_neg isNew]
    by_cases atOld : j = h
    · subst atOld
      by_cases isOwn : p = q
      · simp [isOwn, listSecond, Ne.symm isNew]
      · simp [isOwn, listSecond, valid.owned, here]
    · rw [if_neg atOld, ← valid.owned]
      by_cases isOwn : p = q
      · subst isOwn
        rw [if_pos rfl, (valid.owned p h).mpr ⟨t, here, owns⟩]
        simp [Ne.symm isNew, Ne.symm atOld]
      · rw [if_neg isOwn]

theorem Arena.detach (valid : Arena s r) (split : r.split = true) (q : Qudit) (h x : ℕ) (free : List ℕ) (t single rest : S)
    (here : r.slots.get? h = some t) (spare : r.slots.free = x :: free) (owns : q ∈ Representation.qudits t)
    (crowded : 2 ≤ (Representation.qudits t).length) (exactFirst : (frame single).Exact) (exactSecond : (frame rest).Exact)
    (listFirst : Representation.qudits single = [q])
    (listSecond : ∀ p, p ∈ Representation.qudits rest ↔ p ∈ Representation.qudits t ∧ p ≠ q)
    (wiredFirst : (frame single).source = r.source ∧ (frame single).log = r.log)
    (wiredSecond : (frame rest).source = r.source ∧ (frame rest).log = r.log) :
    Arena s { r with slots := ((r.slots.put h rest).alloc single).2, owners := Assoc.insert q x r.owners } := by
  have vacant := (valid.vacant x).mp (spare ▸ List.mem_cons_self)
  have atHome : x ≠ r.home := by
    rintro rfl
    obtain ⟨v, there, -⟩ := valid.home
    rw [vacant.2] at there
    cases there
  have away := valid.away split h t here q owns
  have read := Slots.get?_detached _ h x free rest single spare (Slots.get?_inside _ _ _ here) vacant.1
  have tidy := (valid.tidy.put h t rest here).alloc x free single spare
  have left : Representation.qudits rest ≠ [] := by
    intro none
    obtain ⟨p, member, other⟩ := another_member _ crowded (valid.exact h t here).distinct q
    have kept := (listSecond p).mpr ⟨member, other⟩
    rw [none] at kept
    cases kept
  have length : ((r.slots.put h rest).alloc single).2.cells.length = r.slots.cells.length :=
    (Slots.alloc_length (r.slots.put h rest) x free single spare).trans List.length_set
  have owned := valid.owned_detached q h x free t single rest here spare owns listFirst listSecond
  refine valid.update _ _ split length ?_ tidy ?_ (fun j u found => ?_) owned
  · refine Assoc.keys_insert q x r.owners ((Assoc.find?_isSome q r.owners).mp ?_)
    rw [(valid.owned q h).mpr ⟨t, here, owns⟩]
    rfl
  · rw [read, if_neg (Ne.symm atHome), if_neg (Ne.symm away)]
  · rw [read] at found
    by_cases isNew : j = x
    · rw [if_pos isNew] at found
      cases found
      exact Or.inr ⟨isNew ▸ atHome, by rw [listFirst]; simp, exactFirst, wiredFirst⟩
    · rw [if_neg isNew] at found
      by_cases atOld : j = h
      · rw [if_pos atOld] at found
        cases found
        exact Or.inr ⟨atOld ▸ away, left, exactSecond, wiredSecond⟩
      · rw [if_neg atOld] at found
        exact Or.inl found

variable [Scalar R] [LawfulRepresentation R S]

theorem kronecker_exact (t u : S) :
    Ensures (fun v => (frame v).Exact ∧ (frame v).qudits = (frame t).qudits ++ (frame u).qudits
      ∧ (frame v).source = (frame t).source ∧ (frame v).log = (frame t).log) (Representation.kronecker t u) := by
  refine ⟨LawfulRepresentation.clean_kronecker t u, fun v built => ?_⟩
  have framed := LawfulRepresentation.frame_kronecker t u v built
  exact Frame.exact_of _ _ _ _ framed

theorem product_exact (r : Register R S) (first : S) (hs : List ℕ) (live : ∀ h ∈ hs, ∃ t, r.slots.get? h = some t)
    (exact : (frame first).Exact) :
    Ensures (fun v => (frame v).Exact ∧ (frame v).qudits = (frame first).qudits ++ hs.flatMap r.holdings
      ∧ (frame v).source = (frame first).source ∧ (frame v).log = (frame first).log) (r.product first hs) := by
  induction hs generalizing first with
  | nil => exact SimError.ensures_ok _ first ⟨exact, (List.append_nil _).symm, rfl, rfl⟩
  | cons h hs ih =>
      obtain ⟨t, here⟩ := live h List.mem_cons_self
      rw [Register.product]
      refine ensures_state r h t here (SimError.ensures_bind (kronecker_exact (R := R) first t) fun v ⟨joint, listed, source, log⟩ => ?_)
      obtain ⟨clean, rest⟩ := ih v (fun k member => live k (List.mem_cons_of_mem h member)) joint
      refine ⟨clean, fun w built => ?_⟩
      obtain ⟨whole, all, lastSource, lastLog⟩ := rest w built
      refine ⟨whole, ?_, lastSource.trans source, lastLog.trans log⟩
      rw [all, listed, List.flatMap_cons, holdings_of_live r h t here, List.append_assoc]
      rfl

theorem Arena.merge (valid : Arena s r) (qs : List Qudit) :
    Ensures (fun p => Arena s p.2 ∧ ∃ t, p.2.slots.get? p.1 = some t ∧ ∀ q ∈ qs, q ∈ Representation.qudits t)
      (r.merge qs) := by
  refine SimError.ensures_bind (valid.ownersOf qs) fun hs ⟨once, named, found⟩ => ?_
  have live : ∀ h ∈ hs, ∃ t, r.slots.get? h = some t ∧ r.holdings h ≠ [] := by
    intro h member
    obtain ⟨q, -, owns⟩ := named h member
    obtain ⟨t, here, -⟩ := (mem_holdings r h q).mp owns
    exact ⟨t, here, List.ne_nil_of_mem owns⟩
  match hs with
  | [] =>
      obtain ⟨t, atHome, -⟩ := valid.home
      refine SimError.ensures_ok _ _ ⟨valid, t, atHome, fun q member => ?_⟩
      obtain ⟨h, none, -⟩ := found q member
      cases none
  | [h] =>
      obtain ⟨t, here, -⟩ := live h List.mem_cons_self
      refine SimError.ensures_ok _ _ ⟨valid, t, here, fun q member => ?_⟩
      obtain ⟨k, alone, owns⟩ := found q member
      rwa [List.mem_singleton.mp alone, holdings_of_live r h t here] at owns
  | h :: k :: rest =>
      obtain ⟨t, first, -⟩ := live h List.mem_cons_self
      obtain ⟨u, second, -⟩ := live k (List.mem_cons_of_mem h List.mem_cons_self)
      have different : h ≠ k := fun same => (List.nodup_cons.mp once).1 (same ▸ List.mem_cons_self)
      have split : r.split = true := by
        by_contra whole
        exact different ((valid.single whole h t first).trans (valid.single whole k u second).symm)
      have others : ∀ j ∈ k :: rest, ∃ v, r.slots.get? j = some v := fun j member => by
        obtain ⟨v, here, -⟩ := live j (List.mem_cons_of_mem h member)
        exact ⟨v, here⟩
      refine ensures_state r h t first (SimError.ensures_bind (product_exact r t (k :: rest) others (valid.exact h t first))
        fun v ⟨exact, listed, source, log⟩ => ?_)
      have wired := valid.wired h t first
      have shared : ∀ q, q ∈ Representation.qudits v ↔ ∃ j ∈ h :: k :: rest, q ∈ r.holdings j := by
        intro q
        have joined : Representation.qudits v = r.holdings h ++ (k :: rest).flatMap r.holdings := by
          rw [holdings_of_live r h t first]
          exact listed
        rw [joined, ← List.flatMap_cons, List.mem_flatMap]
      have done := valid.replace (h :: k :: rest) v (List.cons_ne_nil _ _) once split
        (fun j member => (live j member).elim fun _ held => held.2) exact (source.trans wired.1) (log.trans wired.2) shared
      refine SimError.ensures_ok _ _ ⟨done.1, v, done.2, fun q member => ?_⟩
      exact (shared q).mpr (found q member)

theorem factor_exact (t : S) (q : Qudit) (validate : Bool) (tolerance : R) (exact : (frame t).Exact) :
    Ensures (fun p => (frame p.1).Exact ∧ (frame p.2).Exact ∧ Representation.qudits p.1 = [q]
      ∧ (∀ p', p' ∈ Representation.qudits p.2 ↔ p' ∈ Representation.qudits t ∧ p' ≠ q)
      ∧ (frame p.1).source = (frame t).source ∧ (frame p.1).log = (frame t).log
      ∧ (frame p.2).source = (frame t).source ∧ (frame p.2).log = (frame t).log)
      (Representation.factor t [q] validate tolerance) := by
  refine ⟨LawfulRepresentation.clean_factor t [q] validate tolerance, fun ⟨single, rest⟩ factored => ?_⟩
  obtain ⟨axes, found, first, second⟩ := LawfulRepresentation.frame_factor t [q] validate tolerance single rest factored
  obtain ⟨exactFirst, listFirst, sourceFirst, logFirst⟩ := Frame.exact_of _ _ _ _ first
  obtain ⟨exactSecond, listSecond, sourceSecond, logSecond⟩ := Frame.exact_of _ _ _ _ second
  refine ⟨exactFirst, exactSecond, listFirst, fun p => ?_, sourceFirst, logFirst, sourceSecond, logSecond⟩
  rw [Representation.qudits, listSecond, exact.rest_mem [q] axes found p, List.mem_singleton]
  rfl

theorem Arena.splitOff (valid : Arena s r) (split : r.split = true) (q : Qudit) : Ensures (Arena s) (r.splitOff q) := by
  refine SimError.ensures_bind (valid.owner q) fun h ⟨t, here, owns⟩ => ensures_state r h t here ?_
  split
  · exact SimError.ensures_ok _ r valid
  · rename_i crowded
    refine SimError.ensures_bind (factor_exact (R := R) t q false r.tolerance (valid.exact h t here))
      fun ⟨single, rest⟩ ⟨exactFirst, exactSecond, listFirst, listSecond, sourceFirst, logFirst, sourceSecond, logSecond⟩ => ?_
    obtain ⟨x, free, spare⟩ := List.exists_cons_of_ne_nil (valid.room h t here split (by omega))
    have wired := valid.wired h t here
    have handle : ((r.slots.put h rest).alloc single).1 = x := by
      rw [Slots.alloc_free _ x free single (show (r.slots.put h rest).free = x :: free from spare)]
    have detached := valid.detach split q h x free t single rest here spare owns (by omega) exactFirst exactSecond listFirst
      listSecond ⟨sourceFirst.trans wired.1, logFirst.trans wired.2⟩ ⟨sourceSecond.trans wired.1, logSecond.trans wired.2⟩
    refine SimError.ensures_ok _ _ ?_
    rw [← handle] at detached
    exact detached

theorem Arena.splitAll (valid : Arena s r) (split : r.split = true) (qs : List Qudit) :
    Clean (r.splitAll qs).1 ∧ Arena s (r.splitAll qs).2 := by
  induction qs generalizing r with
  | nil => exact ⟨SimError.clean_ok (), valid⟩
  | cons q qs ih =>
      obtain ⟨clean, kept⟩ := valid.splitOff split q
      rw [Register.splitAll]
      split
      · rename_i e failed
        exact ⟨SimError.clean_passed _ e clean failed, valid⟩
      · rename_i r' done
        have after := kept r' done
        exact ih after (after.mode.trans (valid.mode.symm.trans split))

end QuantumRegister.Register
