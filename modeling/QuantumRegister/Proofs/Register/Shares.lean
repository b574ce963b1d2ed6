import QuantumRegister.Proofs.Register.Partition

/-!
Values of the states of a register, multiplied. The product over all handles is kept by any change
that keeps it on the handles that the change touches; a handle without a state counts as one.
-/

set_option autoImplicit false

namespace QuantumRegister

namespace Slots

variable {S M : Type} [CommMonoid M] (f : S → M)

def part (a : Slots S) (h : ℕ) : M := ((a.get? h).map f).getD 1

def whole (a : Slots S) : M := ∏ h ∈ Finset.range a.cells.length, a.part f h

def rest (a : Slots S) (h : ℕ) : M := ∏ k ∈ (Finset.range a.cells.length).erase h, a.part f k

variable {f}

theorem part_live (a : Slots S) (h : ℕ) (t : S) (live : a.get? h = some t) : a.part f h = f t := by
  rw [part, live]
  rfl

theorem part_vacant (a : Slots S) (h : ℕ) (vacant : a.get? h = none) : a.part f h = 1 := by
  rw [part, vacant]
  rfl

theorem whole_split (a : Slots S) (h : ℕ) (t : S) (live : a.get? h = some t) : a.whole f = f t * a.rest f h := by
  rw [whole, ← Finset.mul_prod_erase _ _ (Finset.mem_range.mpr (get?_inside _ _ _ live)), part_live a h t live]
  rfl

theorem rest_put (a : Slots S) (h : ℕ) (t u : S) (live : a.get? h = some t) : (a.put h u).rest f h = a.rest f h := by
  have length : (a.put h u).cells.length = a.cells.length := List.length_set
  rw [rest, rest, length]
  refine Finset.prod_congr rfl fun k member => ?_
  rw [part, part, get?_put a h k u (get?_inside _ _ _ live), if_neg (Finset.mem_erase.mp member).1]

theorem whole_at {Y : Type} (f : S → Y → M) (a : Slots S) (y : Y) : a.whole f y = a.whole fun t => f t y := by
  rw [whole, whole, Finset.prod_apply]
  refine Finset.prod_congr rfl fun h _ => ?_
  cases live : a.get? h with
  | none => rw [part_vacant a h live, part_vacant a h live, Pi.one_apply]
  | some t => rw [part_live a h t live, part_live a h t live]

-- What changes only at some handles, and keeps their product, keeps the whole.
theorem whole_congr (a b : Slots S) (hs : Finset ℕ) (length : b.cells.length = a.cells.length)
    (inside : ∀ h ∈ hs, h < a.cells.length) (others : ∀ h, h ∉ hs → b.get? h = a.get? h)
    (same : ∏ h ∈ hs, b.part f h = ∏ h ∈ hs, a.part f h) : b.whole f = a.whole f := by
  have subset : hs ⊆ Finset.range a.cells.length := fun h member => Finset.mem_range.mpr (inside h member)
  rw [whole, whole, length, ← Finset.prod_sdiff subset, ← Finset.prod_sdiff subset, same]
  refine congrArg (· * _) (Finset.prod_congr rfl fun h member => ?_)
  rw [part, part, others h (Finset.mem_sdiff.mp member).2]

theorem whole_ofList (states : List S) : (Slots.ofList states).whole f = (states.map f).prod := by
  induction states with
  | nil => rfl
  | cons t states ih =>
      have length : (Slots.ofList (t :: states)).cells.length = (Slots.ofList states).cells.length + 1 := by
        simp [Slots.ofList]
      rw [List.map_cons, List.prod_cons, ← ih, whole, whole, length, Finset.prod_range_succ', mul_comm]
      rfl

end Slots

namespace Register

variable {R S M : Type} [Representation R S] [CommMonoid M] {f : S → M} {s : Settings R} {r : Register R S}

/-! The owners of qudits. -/

theorem Arena.owner_found (valid : Arena s r) (q : Qudit) (listed : q ∈ r.qudits) :
    ∃ h t, r.owner q = .ok h ∧ r.slots.get? h = some t ∧ q ∈ Representation.qudits t := by
  obtain ⟨h, found⟩ := Option.isSome_iff_exists.mp ((valid.known q).mpr listed)
  obtain ⟨t, live, owns⟩ := (valid.owned q h).mp found
  exact ⟨h, t, by rw [Register.owner, found], live, owns⟩

theorem Arena.owners_found (valid : Arena s r) (qs : List Qudit) (inside : qs ⊆ r.qudits) : ∃ hs, r.ownersOf qs = .ok hs := by
  have each : ∃ hs, qs.mapM r.owner = .ok hs := by
    induction qs with
    | nil => exact ⟨[], rfl⟩
    | cons q qs ih =>
        obtain ⟨listed, later⟩ := List.cons_subset.mp inside
        obtain ⟨h, -, found, -⟩ := valid.owner_found q listed
        obtain ⟨hs, rest⟩ := ih later
        exact ⟨h :: hs, by rw [List.mapM_cons, found, rest]; rfl⟩
  obtain ⟨hs, found⟩ := each
  exact ⟨hs.eraseDups, by rw [Register.ownersOf, found]; rfl⟩

theorem Arena.holdings_listed (valid : Arena s r) (h : ℕ) (q : Qudit) (owns : q ∈ r.holdings h) : q ∈ r.qudits := by
  obtain ⟨t, here, inside⟩ := (mem_holdings r h q).mp owns
  exact valid.listed q h t here inside

theorem Arena.holdings_nodup (valid : Arena s r) (hs : List ℕ) (once : hs.Nodup) : (hs.flatMap r.holdings).Nodup := by
  refine List.nodup_flatMap.mpr ⟨fun h _ => ?_, once.imp fun {h k} different => ?_⟩
  · cases found : r.slots.get? h with
    | none => simp [holdings, found]
    | some t =>
        rw [holdings_of_live r h t found]
        exact (valid.exact h t found).distinct
  · intro q first second
    obtain ⟨t, here, inFirst⟩ := (mem_holdings r h q).mp first
    obtain ⟨u, there, inSecond⟩ := (mem_holdings r k q).mp second
    exact different (valid.once q h k t u here there inFirst inSecond)

theorem Arena.everyone (valid : Arena s r) (hs : List ℕ) (found : r.ownersOf r.qudits = .ok hs) :
    (r.home :: hs.filter (· != r.home)).Nodup
      ∧ ∀ h, h ∈ r.home :: hs.filter (· != r.home) ↔ ∃ t, r.slots.get? h = some t := by
  obtain ⟨once, named, known⟩ := (valid.ownersOf r.qudits).2 hs found
  have away : r.home ∉ hs.filter (· != r.home) := fun member => by simpa using (List.mem_filter.mp member).2
  refine ⟨List.nodup_cons.mpr ⟨away, once.filter _⟩, fun h => ⟨fun member => ?_, fun ⟨t, live⟩ => ?_⟩⟩
  · rcases List.mem_cons.mp member with rfl | other
    · obtain ⟨base, atHome, -⟩ := valid.home
      exact ⟨base, atHome⟩
    · obtain ⟨q, -, owns⟩ := named h (List.mem_of_mem_filter other)
      obtain ⟨t, here, -⟩ := (mem_holdings r h q).mp owns
      exact ⟨t, here⟩
  · by_cases atHome : h = r.home
    · rw [atHome]
      exact List.mem_cons_self
    · obtain ⟨q, owns⟩ := List.exists_mem_of_ne_nil _ (valid.others h t live atHome).2
      obtain ⟨k, member, held⟩ := known q (valid.listed q h t live owns)
      obtain ⟨u, there, inside⟩ := (mem_holdings r k q).mp held
      rw [valid.once q k h u t there live inside owns] at member
      exact List.mem_cons_of_mem _ (List.mem_filter.mpr ⟨member, by simpa using atHome⟩)

theorem Arena.perm_everyone (valid : Arena s r) (hs : List ℕ) (found : r.ownersOf r.qudits = .ok hs) :
    r.qudits.Perm ((r.home :: hs.filter (· != r.home)).flatMap r.holdings) := by
  obtain ⟨once, all⟩ := valid.everyone hs found
  refine (List.perm_ext_iff_of_nodup valid.canonical (valid.holdings_nodup _ once)).mpr fun q => ⟨fun listed => ?_, fun member => ?_⟩
  · obtain ⟨h, t, -, live, owns⟩ := valid.owner_found q listed
    exact List.mem_flatMap.mpr ⟨h, (all h).mpr ⟨t, live⟩, (mem_holdings r h q).mpr ⟨t, live, owns⟩⟩
  · obtain ⟨h, -, owns⟩ := List.mem_flatMap.mp member
    exact valid.holdings_listed h q owns

theorem Arena.apart (valid : Arena s r) (q : Qudit) (h : ℕ) (t : S) (live : r.slots.get? h = some t)
    (owns : q ∈ Representation.qudits t) (j : ℕ) (other : j ≠ h) : q ∉ r.holdings j := by
  intro also
  obtain ⟨u, there, second⟩ := (mem_holdings r j q).mp also
  exact other (valid.once q j h u t there live second owns)

/-! Products over a register. -/

theorem Arena.whole_everyone (valid : Arena s r) (hs : List ℕ) (found : r.ownersOf r.qudits = .ok hs) :
    r.slots.whole f = r.slots.part f r.home * ((hs.filter (· != r.home)).map (r.slots.part f)).prod := by
  obtain ⟨once, all⟩ := valid.everyone hs found
  have product := List.prod_toFinset (r.slots.part f) once
  rw [List.map_cons, List.prod_cons] at product
  rw [← product, Slots.whole]
  refine (Finset.prod_subset (fun h member => ?_) fun h _ absent => ?_).symm
  · obtain ⟨t, live⟩ := (all h).mp (List.mem_toFinset.mp member)
    exact Finset.mem_range.mpr (Slots.get?_inside _ _ _ live)
  · cases live : r.slots.get? h with
    | none => exact Slots.part_vacant _ h live
    | some t => exact absurd (List.mem_toFinset.mpr ((all h).mpr ⟨t, live⟩)) absent

theorem whole_replace (r : Register R S) (hs : List ℕ) (v : S) (some : hs ≠ []) (once : hs.Nodup)
    (inside : ∀ h ∈ hs, h < r.slots.cells.length) (product : f v = (hs.map (r.slots.part f)).prod) :
    (r.replace hs v).2.slots.whole f = r.slots.whole f := by
  obtain ⟨member, length, read⟩ := replace_slots r hs v some inside
  have listed := List.mem_toFinset.mpr member
  refine Slots.whole_congr _ _ hs.toFinset length (fun h chosen => inside h (List.mem_toFinset.mp chosen)) ?_ ?_
  · intro h other
    rw [List.mem_toFinset] at other
    rw [read, if_neg fun same => other (by rwa [same]), if_neg other]
  · rw [List.prod_toFinset (r.slots.part f) once, ← product, Finset.prod_eq_single_of_mem _ listed]
    · exact Slots.part_live _ _ v (by rw [read, if_pos rfl])
    · intro h chosen other
      exact Slots.part_vacant _ h (by rw [read, if_neg other, if_pos (List.mem_toFinset.mp chosen)])

end Register

end QuantumRegister
