import QuantumRegister.Proofs.Register.Joining

/-!
Sampling a register. The states sample apart from each other, so what they show at once is a joint value
at which none of them vanishes, and the joint state does not vanish there either.
-/

set_option autoImplicit false

namespace QuantumRegister

open QuantumRegister.Assignment
open QuantumRegister.Dense (weight)
open QuantumRegister.Random (Draw Source)
open QuantumRegister.Register (Arena Reached)

theorem Dense.weight_positive (L : List Qudit) (F : Assignment → ℂ) (once : L.Nodup) (depends : DependsOn L F) (σ : Assignment)
    (within : Within L σ) (some : F σ ≠ 0) : 0 < weight L F := by
  rw [weight, sumOver_spread L _ _ once]
  refine Finset.sum_pos' (fun i _ => Complex.normSq_nonneg _) ⟨index L σ, Finset.mem_range.mpr (index_lt L σ within), ?_⟩
  rw [depends _ σ fun q listed => spread_at L _ σ once within q listed]
  exact Complex.normSq_pos.mpr some

namespace Representation

/-! One state. -/

section States

variable {R S : Type} [Representation R S]

/-- The values that a state samples of its qudits are those of an assignment at which it does not vanish. -/
structure Foretells (fits : S → Prop) (wave : S → Assignment → ℂ) : Prop where
  depends : ∀ t, DependsOn (qudits t) (wave t)
  drawn : ∀ t qs, fits t → qs.Nodup → qs ⊆ qudits t → ∃ d, sampler t qs = .ok d
    ∧ ∀ source, ∃ σ, Within (qudits t) σ ∧ wave t σ ≠ 0 ∧ (d source).1 = qs.map σ

theorem repeated_drawn {α : Type} (d : Draw α) (n : ℕ) (source : Source) :
    (repeated d n source).1.length = n ∧ ∀ a ∈ (repeated d n source).1, ∃ s, (d s).1 = a := by
  induction n generalizing source with
  | zero => exact ⟨rfl, fun _ member => (List.not_mem_nil member).elim⟩
  | succ n ih =>
      obtain ⟨length, each⟩ := ih (d source).2
      exact ⟨congrArg Nat.succ length, List.forall_mem_cons.mpr ⟨⟨source, rfl⟩, each⟩⟩

variable {fits : S → Prop} {wave : S → Assignment → ℂ}

theorem Foretells.rows (foretells : Foretells fits wave) (t : S) (qs : List Qudit) (fit : fits t) (once : qs.Nodup)
    (inside : qs ⊆ qudits t) (repetitions seed : ℕ) :
    ∃ rows, Representation.rows t qs repetitions seed = .ok rows ∧ rows.length = repetitions
      ∧ ∀ row ∈ rows, ∃ σ, Within (qudits t) σ ∧ wave t σ ≠ 0 ∧ row = qs.map σ := by
  obtain ⟨d, found, values⟩ := foretells.drawn t qs fit once inside
  obtain ⟨length, each⟩ := repeated_drawn d repetitions (Source.ofSeed seed)
  refine ⟨_, by rw [Representation.rows, found], length, fun row member => ?_⟩
  obtain ⟨s, drawn⟩ := each row member
  obtain ⟨σ, within, nonzero, read⟩ := values s
  exact ⟨σ, within, nonzero, drawn.symm.trans read⟩

theorem Foretells.support (foretells : Foretells fits wave) (t : S) (fit : fits t) : ∃ σ, Within (qudits t) σ ∧ wave t σ ≠ 0 := by
  obtain ⟨d, -, values⟩ := foretells.drawn t [] fit List.nodup_nil (List.nil_subset _)
  obtain ⟨σ, within, nonzero, -⟩ := values default
  exact ⟨σ, within, nonzero⟩

end States

end Representation

namespace Register

open QuantumRegister.Representation (Foretells Merges)

variable {R S : Type} [Representation R S] {s : Settings R} {r : Register R S}

/-! Groups of qudits with one owner. -/

structure Parted (r : Register R S) (qs : List Qudit) (a : Columns) : Prop where
  apart : (a.groups.map Prod.fst).Nodup
  owned : ∀ e ∈ a.groups, ∃ t, r.slots.get? e.1 = some t ∧ e.2.Nodup ∧ e.2 ⊆ Representation.qudits t
  listed : ∀ e ∈ a.groups, e.2 ⊆ qs
  places : ∀ q ∈ qs, a.Holds q

theorem Parted.add {qs : List Qudit} {a : Columns} (parted : Parted r qs a) (h : ℕ) (t : S) (q : Qudit)
    (live : r.slots.get? h = some t) (owns : q ∈ Representation.qudits t) (new : q ∉ qs) : Parted r (qs ++ [q]) (a.add h q) where
  apart := a.apart_add h q parted.apart
  owned e member := by
    rcases a.add_cases h q e member with old | rfl | ⟨ps, old, rfl⟩
    · exact parted.owned e old
    · exact ⟨t, live, List.nodup_singleton q, List.cons_subset.mpr ⟨owns, List.nil_subset _⟩⟩
    · obtain ⟨u, here, once, inside⟩ := parted.owned _ old
      cases live.symm.trans here
      have absent : q ∉ ps := fun also => new (parted.listed _ old also)
      refine ⟨t, live, List.nodup_append.mpr ⟨once, List.nodup_singleton q, fun p first p' second same => ?_⟩,
        List.append_subset.mpr ⟨inside, List.cons_subset.mpr ⟨owns, List.nil_subset _⟩⟩⟩
      exact absent (List.mem_singleton.mp second ▸ same ▸ first)
  listed e member := by
    rcases a.add_cases h q e member with old | rfl | ⟨ps, old, rfl⟩
    · exact List.subset_append_of_subset_left _ (parted.listed e old)
    · exact List.subset_append_right _ _
    · exact List.append_subset.mpr ⟨List.subset_append_of_subset_left _ (parted.listed _ old), List.subset_append_right _ _⟩
  places p listed := by
    rcases List.mem_append.mp listed with old | last
    · exact a.holds_other h q (parted.places p old) fun same => new (same ▸ old)
    · exact List.mem_singleton.mp last ▸ a.holds_self h q

theorem Arena.grouped_parted (valid : Arena s r) (qs seen : List Qudit) (a : Columns) (parted : Parted r seen a)
    (once : (seen ++ qs).Nodup) (inside : qs ⊆ r.qudits) : ∃ a', r.grouped qs a = .ok a' ∧ Parted r (seen ++ qs) a' := by
  induction qs generalizing seen a with
  | nil => exact ⟨a, rfl, (List.append_nil seen).symm ▸ parted⟩
  | cons q qs ih =>
      obtain ⟨owned, later⟩ := List.cons_subset.mp inside
      rw [List.append_cons] at once ⊢
      obtain ⟨h, t, found, live, owns⟩ := valid.owner_found q owned
      have new : q ∉ seen := fun old =>
        (List.nodup_append.mp (List.nodup_append.mp once).1).2.2 q old q List.mem_cons_self rfl
      obtain ⟨a', done, all⟩ := ih (seen ++ [q]) (a.add h q) (parted.add h t q live owns new) once later
      exact ⟨a', (congrArg (· >>= fun h => r.grouped qs (a.add h q)) found).trans done, all⟩

/-! Outcomes of all groups at once. -/

variable {fits : S → Prop} {wave : S → Assignment → ℂ}

-- Values of each state, by its handle, at which it does not vanish.
def Visible (r : Register R S) (wave : S → Assignment → ℂ) (τ : ℕ → Assignment) : Prop :=
  ∀ h t, r.slots.get? h = some t → Within (Representation.qudits t) (τ h) ∧ wave t (τ h) ≠ 0

theorem Visible.update {τ : ℕ → Assignment} (visible : Visible r wave τ) (h : ℕ) (t : S) (live : r.slots.get? h = some t)
    (σ : Assignment) (within : Within (Representation.qudits t) σ) (some : wave t σ ≠ 0) : Visible r wave (Function.update τ h σ) := by
  intro k u there
  by_cases here : k = h
  · subst here
    cases live.symm.trans there
    rw [Function.update_self]
    exact ⟨within, some⟩
  · rw [Function.update_of_ne here]
    exact visible k u there

-- What the state of one group shows, again and again.
def Drawn (r : Register R S) (wave : S → Assignment → ℂ) (repetitions : ℕ) (e : ℕ × List Qudit) (rows : List (List ℕ)) : Prop :=
  rows.length = repetitions ∧ ∀ row ∈ rows, ∃ t σ, r.slots.get? e.1 = some t ∧ Within (Representation.qudits t) σ ∧ wave t σ ≠ 0
    ∧ row = e.2.map σ

theorem row_visible {repetitions : ℕ} {groups : List (ℕ × List Qudit)} {samples : List (List (List ℕ))}
    (drawn : List.Forall₂ (Drawn r wave repetitions) groups samples) (apart : (groups.map Prod.fst).Nodup)
    (seen : ∃ τ, Visible r wave τ) (i : ℕ) (inside : i < repetitions) : ∃ τ, Visible r wave τ
      ∧ ∀ g h ps, groups[g]? = some (h, ps) → (samples.getD g []).getD i [] = ps.map (τ h) := by
  induction drawn with
  | nil => exact seen.imp fun τ visible => ⟨visible, nofun⟩
  | cons head tail ih =>
      rename_i e rows groups samples
      obtain ⟨h, ps⟩ := e
      obtain ⟨fresh, apart⟩ := List.nodup_cons.mp apart
      obtain ⟨τ, visible, later⟩ := ih apart
      obtain ⟨count, each⟩ := head
      have bound : i < rows.length := count.symm ▸ inside
      obtain ⟨t, σ, live, within, nonzero, read⟩ := each rows[i] (List.getElem_mem bound)
      refine ⟨Function.update τ h σ, visible.update h t live σ within nonzero, fun g k qs found => ?_⟩
      cases g with
      | zero =>
          cases found
          rw [Function.update_self, ← read]
          simp [bound]
      | succ g =>
          have other : k ≠ h := fun same => fresh (List.mem_map.mpr ⟨(k, qs), List.mem_of_getElem? found, same⟩)
          rw [Function.update_of_ne other]
          exact later g k qs found

variable (foretells : Foretells fits wave)

include foretells

theorem Arena.read_visible (valid : Arena s r) {τ : ℕ → Assignment} (visible : Visible r wave τ) :
    ∃ σ, Within r.qudits σ ∧ r.slots.whole (wave · σ) ≠ 0
      ∧ ∀ h t, r.slots.get? h = some t → ∀ q ∈ Representation.qudits t, τ h q = σ q := by
  let σ : Assignment := fun q => τ ((Assoc.find? q r.owners).getD 0) q
  have read : ∀ h t, r.slots.get? h = some t → ∀ q ∈ Representation.qudits t, τ h q = σ q := fun h t live q owns => by
    have owner := (valid.owned q h).mpr ⟨t, live, owns⟩
    simp only [σ, owner, Option.getD_some]
  refine ⟨σ, fun q listed => ?_, ?_, read⟩
  · obtain ⟨h, t, -, live, owns⟩ := valid.owner_found q listed
    exact read h t live q owns ▸ (visible h t live).1 q owns
  · rw [Slots.whole]
    refine Finset.prod_ne_zero_iff.mpr fun h _ => ?_
    cases found : r.slots.get? h with
    | none => exact (Slots.part_vacant _ h found).trans_ne one_ne_zero
    | some t =>
        rw [Slots.part_live _ h t found, ← foretells.depends t (τ h) σ (read h t found)]
        exact (visible h t found).2

variable (each : ∀ h t, r.slots.get? h = some t → fits t)

include each

theorem groupRows_drawn (groups : List (ℕ × List Qudit))
    (owned : ∀ e ∈ groups, ∃ t, r.slots.get? e.1 = some t ∧ e.2.Nodup ∧ e.2 ⊆ Representation.qudits t) (repetitions : ℕ)
    (common : Source) :
    ∃ samples, r.groupRows repetitions groups common = .ok samples ∧ List.Forall₂ (Drawn r wave repetitions) groups samples := by
  induction groups generalizing common with
  | nil => exact ⟨[], rfl, .nil⟩
  | cons e groups ih =>
      obtain ⟨⟨t, live, once, inside⟩, later⟩ := List.forall_mem_cons.mp owned
      obtain ⟨h, qs⟩ := e
      generalize seeded : Random.drawDouble common = drawn
      obtain ⟨seed, next⟩ := drawn
      obtain ⟨rows, sampled, length, values⟩ := foretells.rows t qs (each h t live) once inside repetitions seed
      obtain ⟨samples, done, rest⟩ := ih later next
      refine ⟨rows :: samples, ?_, .cons ⟨length, fun row member => ?_⟩ rest⟩
      · simp only [groupRows, seeded, state_of_live r h t live, bind, Except.bind, sampled, done]
        rfl
      · obtain ⟨σ, shown⟩ := values row member
        exact ⟨t, σ, live, shown⟩

theorem some_visible : ∃ τ, Visible r wave τ := by
  have supported : ∀ h, ∃ σ, ∀ t, r.slots.get? h = some t → Within (Representation.qudits t) σ ∧ wave t σ ≠ 0 := by
    intro h
    cases found : r.slots.get? h with
    | none => exact ⟨fun _ => 0, fun t live => by cases live⟩
    | some t =>
        obtain ⟨σ, seen⟩ := foretells.support t (each h t found)
        exact ⟨σ, fun u live => by cases live; exact seen⟩
  choose τ visible using supported
  exact ⟨τ, visible⟩

theorem Arena.rows_visible (valid : Arena s r) (qs : List Qudit) (inside : qs ⊆ r.qudits) (repetitions seed : ℕ) :
    ∃ rows, r.rows qs repetitions seed = .ok rows ∧ rows.length = repetitions
      ∧ ∀ row ∈ rows, ∃ σ, Within r.qudits σ ∧ r.slots.whole (wave · σ) ≠ 0 ∧ row = qs.map σ := by
  have distinct : ∀ q, q ∈ Qudit.distinct qs ↔ q ∈ qs := fun q =>
    (Qudit.mem_distinctAfter [] qs q).trans (and_iff_left List.not_mem_nil)
  have none : Parted r [] {} := ⟨List.nodup_nil, nofun, nofun, nofun⟩
  obtain ⟨a, grouped, parted⟩ := valid.grouped_parted (Qudit.distinct qs) [] {} none (Qudit.nodup_distinctAfter [] qs)
    fun q listed => inside ((distinct q).mp listed)
  obtain ⟨samples, sampled, drawn⟩ := groupRows_drawn foretells each a.groups parted.owned repetitions (Source.ofSeed seed)
  let spot (q : Qudit) := (Assoc.find? q a.columnOf).getD (0, 0)
  refine ⟨(List.range repetitions).map fun i => qs.map fun q =>
      ((samples.getD (spot q).1 []).getD i []).getD (spot q).2 0, ?_, (List.length_map _).trans List.length_range,
    fun row member => ?_⟩
  · simp only [Register.rows, grouped, sampled, bind, Except.bind]
    rfl
  · obtain ⟨i, bound, rfl⟩ := List.mem_map.mp member
    obtain ⟨τ, visible, shown⟩ := row_visible drawn parted.apart (some_visible foretells each) i (List.mem_range.mp bound)
    obtain ⟨σ, within, some, read⟩ := valid.read_visible foretells visible
    refine ⟨σ, within, some, List.map_congr_left fun q listed => ?_⟩
    obtain ⟨g, k, h, ps, place, here, stands⟩ := parted.places q ((distinct q).mpr listed)
    obtain ⟨t, live, -, owns⟩ := parted.owned _ (List.mem_of_getElem? here)
    rw [← read h t live q (owns (List.mem_of_getElem? stands))]
    simp only [spot, place, Option.getD_some, shown g h ps here]
    rw [List.getD_eq_getElem?_getD, List.getElem?_map, stands]
    rfl

end Register

/-! Dense states. -/

namespace DenseState

open QuantumRegister.Dense (drawPick pick pick_positive marginal_some marginal_getD)

theorem foretells_sound : Representation.Foretells Sound DenseState.wave where
  depends := wave_depends
  drawn t qs sound once inside := by
    obtain ⟨axes, found⟩ := sound.exact.axes_found (R := ℝ) qs once inside
    have picks := sound.exact.picks qs axes found
    refine ⟨_, by rw [show Representation.sampler t qs = t.sampler qs from rfl, sampler, found], fun source => ?_⟩
    set k := (drawPick (t.marginal axes) source).1
    have positive : 0 < (t.marginal axes).getD k 0 := pick_positive _ _ (marginal_some picks t.amplitudes sound.full sound.norm)
    rw [show t.marginal axes = Dense.Amplitudes.marginal (Qudit.dims t.frame.qudits) axes t.amplitudes from rfl,
      marginal_getD picks t.amplitudes sound.full] at positive
    split at positive
    · rename_i bound
      obtain ⟨σ, within, some⟩ := Dense.weight_support _ _ sound.exact.distinct positive.ne'
      by_cases here : index qs σ = k
      · rw [if_pos here] at some
        exact ⟨σ, within, some, ((map_digits qs σ (fun q listed => within q (inside listed)) k bound).mpr here).symm⟩
      · exact absurd (if_neg here) some
    · exact absurd positive (lt_irrefl 0)

end DenseState

/-! Stabilizer states. -/

namespace Event

-- Where a state is seen after its qubits were found to have some values, they have these values there.
theorem acts_project (F : (Qudit → ZMod 2) → ℂ) (found : List (Qudit × Bool)) (β : Qudit → ZMod 2)
    (some : acts F (found.map fun p => .project p.1 p.2) β ≠ 0) : F β ≠ 0 ∧ ∀ p ∈ found, β p.1 = Form.gf p.2 := by
  induction found generalizing F with
  | nil => exact ⟨some, fun _ member => (List.not_mem_nil member).elim⟩
  | cons p found ih =>
      obtain ⟨before, later⟩ := ih (act F (.project p.1 p.2)) some
      rw [act] at before
      split at before
      · rename_i here
        exact ⟨right_ne_zero_of_mul before, List.forall_mem_cons.mpr ⟨here, later⟩⟩
      · exact absurd (mul_zero _) before

end Event

namespace Form

theorem measureAll_length {R : Type} [Scalar R] (c : Form R) (axes : List ℕ) (source : Source) :
    (c.measureAll axes source).1.1.length = axes.length := by
  induction axes generalizing c source with
  | nil => rfl
  | cons q axes ih => exact congrArg Nat.succ (ih _ _)

theorem turned_measureAll {n : ℕ} {c : Form ℝ} (valid : Tableau n c) (axes : List ℕ) (inside : ∀ k ∈ axes, k < n)
    (source : Source) : Turned c (c.measureAll axes source).1.2 := by
  induction axes generalizing c source with
  | nil => exact turned_of_same rfl
  | cons q axes ih =>
      obtain ⟨first, later⟩ := List.forall_mem_cons.mp inside
      have held : Tableau n (c.measure q source).1.2 := by
        rw [measure_eq]
        exact valid.project q _
      exact (turned_measure valid q source).trans (ih held later _)

end Form

theorem Assignment.bits_toNat (σ : Assignment) (q : Qudit) (b : Bool) (bound : σ q < 2) (same : bits σ q = Form.gf b) :
    σ q = b.toNat := by
  have cases : σ q = 0 ∨ σ q = 1 := by omega
  have read := (Form.gf_inj _ _).mp same
  rcases cases with zero | one
  · rw [← read, zero]
    rfl
  · rw [← read, one]
    rfl

namespace StabilizerState

theorem foretells_proper : Representation.Foretells Proper StabilizerState.wave where
  depends t σ τ same := by
    have read : t.frame.qudits.map (fun q => σ q == 1) = t.frame.qudits.map (fun q => τ q == 1) :=
      List.map_congr_left fun q owned => congrArg (· == 1) (same q owned)
    rw [wave, wave, read]
  drawn t qs proper once inside := by
    have sound := proper.toSound
    have found : t.frame.axes (R := ℝ) qs = .ok (qs.map t.frame.qudits.idxOf) :=
      axes_listed ⟨default, default, t⟩ sound.exact qs once inside
    refine ⟨_, by rw [show Representation.sampler t qs = t.sampler qs from rfl, sampler, found], fun source => ?_⟩
    have replayed := replay_measureAll t.frame.qudits t.form qs source
    have settled := sound.measured qs _ found source
    have length := Form.measureAll_length t.form (qs.map t.frame.qudits.idxOf) source
    obtain ⟨z, eighth, turned⟩ := Form.turned_measureAll sound.valid (qs.map t.frame.qudits.idxOf)
      (List.forall_mem_map.mpr fun q listed => List.idxOf_lt_length_of_mem (inside listed)) source
    set measured := (t.form.measureAll (qs.map t.frame.qudits.idxOf) source).1
    have unit : weight t.frame.qudits (t.setForm measured.2).wave = 1 := by
      refine (weight_wave _ settled proper.qubits).trans ?_
      rw [setForm, turned, map_mul, Form.normSq_of_eighth z eighth, mul_one, ← weight_wave t sound proper.qubits, proper.unit]
    obtain ⟨σ, within, some⟩ := Dense.weight_support _ _ sound.exact.distinct (unit.trans_ne one_ne_zero)
    have names : ∀ e ∈ (qs.zip measured.1).map fun p => Event.project p.1 p.2, Names t.frame.qudits e.labels := fun e member => by
      obtain ⟨p, pair, rfl⟩ := List.mem_map.mp member
      exact names_single ⟨once, inside⟩ _ ⟨p.1, (List.of_mem_zip pair).1, rfl⟩
    have acted := (Event.replay_alone sound.exact.distinct sound.valid _ names).2.2
    rw [← replayed] at acted
    rw [wave_signal _ settled, signal, setForm, ← acted] at some
    obtain ⟨before, values⟩ := Event.acts_project _ _ _ some
    refine ⟨σ, within, (wave_signal t sound σ).trans_ne before, ?_⟩
    have equal : measured.1.length = qs.length := length.trans (List.length_map _)
    have each : ∀ p ∈ qs.zip measured.1, p.2.toNat = σ p.1 := fun p pair => by
      have owned := inside (List.of_mem_zip pair).1
      exact (bits_toNat σ p.1 p.2 ((within p.1 owned).trans_eq (proper.qubits p.1 owned)) (values p pair)).symm
    calc measured.1.map Bool.toNat
        = ((qs.zip measured.1).map Prod.snd).map Bool.toNat := by rw [List.map_snd_zip equal.le]
      _ = ((qs.zip measured.1).map Prod.fst).map σ := by
          rw [List.map_map, List.map_map]
          exact List.map_congr_left each
      _ = qs.map σ := by rw [List.map_fst_zip equal.ge]

end StabilizerState

/-! Registers. -/

namespace Register

section Created

variable {R S : Type} [Scalar R] [Representation R S] {s : Settings R} {w : Workspace R S}

theorem Reached.created (reached : Reached s w) : ∃ r c c', Register.new (S := S) s c = .ok (r, c') := by
  induction reached with
  | new r c c' made => exact ⟨r, c, c', made⟩
  | apply w op _ held => exact held
  | applyAll w ops _ held => exact held
  | copy w deep _ held => exact held
  | meanwhile w c _ held => exact held

theorem new_each {P : S → Prop} (begun : ∀ qs index source log t, Representation.basisState qs index source log = .ok t → P t)
    {r : Register R S} {c c' : Cells} (made : Register.new s c = .ok (r, c')) : ∀ t ∈ r.states, P t := by
  obtain ⟨qs, -, made⟩ := SimError.bind_ok made
  obtain ⟨states, begins, made⟩ := SimError.bind_ok made
  cases made
  intro t member
  obtain ⟨h, live⟩ := (Slots.mem_live _ t).mp member
  rw [get?_ofList] at live
  exact initialStates_all begun qs _ _ states begins t (List.mem_of_getElem? live)

theorem Reached.begun [LawfulRepresentation R S] {P : Qudit → Prop} (reached : Reached s w)
    (begun : ∀ qs index source log (t : S), Representation.basisState qs index source log = .ok t → ∀ q ∈ Representation.qudits t, P q) :
    ∀ q ∈ w.register.qudits, P q := by
  obtain ⟨r, c, c', made⟩ := reached.created
  have begins := Reached.new r c c' made
  have same : w.register.qudits = r.qudits := begins.arena.qudits_kept reached.arena
  intro q listed
  obtain ⟨h, t, -, live, owns⟩ := begins.arena.owner_found q (same ▸ listed)
  exact new_each begun made t ((Slots.mem_live r.slots t).mpr ⟨h, live⟩) q owns

end Created

theorem Reached.qubits {s : Settings ℝ} {w : Workspace ℝ (StabilizerState ℝ)} (reached : Reached s w) :
    ∀ q ∈ w.register.qudits, q.dim = 2 := by
  refine reached.begun fun qs index source log t made => ?_
  obtain ⟨two, listed, -⟩ := StabilizerState.basisState_done qs index source log t made
  exact fun q owns => two q (listed ▸ owns)

end Register

structure Outcomes {S : Type} [Representation ℝ S] (wave : S → Assignment → ℂ) (qs : List Qudit) (repetitions : ℕ) (m : S)
    (rows : List (List ℕ)) : Prop where
  count : rows.length = repetitions
  columns : ∀ row ∈ rows, row.length = qs.length
  equal : ∀ row ∈ rows, ∀ i j : ℕ, qs[i]? = qs[j]? → row[i]? = row[j]?
  possible : ∀ row ∈ rows, 0 < weight (Representation.qudits m) fun σ => if qs.map σ = row then wave m σ else 0

/-- Sampling gives such outcomes of the joint state. It takes two words from the source of the register
if no seed is given, and leaves everything else. -/
structure Sampled {S : Type} [Representation ℝ S] (wave : S → Assignment → ℂ) (qs : List Qudit) (repetitions : ℕ)
    (seed : Option ℕ) (w w' : Workspace ℝ S) : Prop where
  outcomes : ∃ rows m, Register.sample qs repetitions seed w = (.ok rows, w') ∧ w.register.merged = .ok m
    ∧ Outcomes wave qs repetitions m rows
  register : w'.register = w.register
  logs : w'.cells.logs = w.cells.logs
  seeded : seed ≠ none → w'.cells = w.cells
  unseeded : seed = none → w'.cells = w.cells.setSource w.register.source (Random.drawDouble (w.cells.source w.register.source)).2

section Sampling

open QuantumRegister.Representation (Merges Foretells)

variable {S : Type} [Representation ℝ S] {s : Settings ℝ} {w : Workspace ℝ S} {fits fair : S → Prop}
  {admits : List Qudit → Assignment → Prop} {wave : S → Assignment → ℂ}

theorem Register.Arena.sampled (valid : Arena s w.register) (merges : Merges fits admits wave) (foretells : Foretells fair wave)
    (within : ∀ L σ, Within L σ → admits L σ) (weaker : ∀ t, fair t → fits t) (each : ∀ t ∈ w.register.states, fair t)
    (qs : List Qudit) (inside : qs ⊆ w.register.qudits) (repetitions : ℕ) (seed : Option ℕ) :
    ∃ w', Sampled wave qs repetitions seed w w' := by
  have live : ∀ h t, w.register.slots.get? h = some t → fair t := fun h t here =>
    each t ((Slots.mem_live w.register.slots t).mpr ⟨h, here⟩)
  obtain ⟨m, merged, -, order, values⟩ := merges.merged valid fun h t here => weaker t (live h t here)
  have drawn (n : ℕ) : ∃ rows, w.register.rows qs repetitions n = .ok rows ∧ Outcomes wave qs repetitions m rows := by
    obtain ⟨rows, done, count, read⟩ := valid.rows_visible foretells live qs inside repetitions n
    refine ⟨rows, done, count, fun row member => ?_, fun row member i j same => ?_, fun row member => ?_⟩
    · obtain ⟨σ, -, -, rfl⟩ := read row member
      exact List.length_map σ
    · obtain ⟨σ, -, -, rfl⟩ := read row member
      rw [List.getElem?_map, List.getElem?_map, same]
    · obtain ⟨σ, inRange, some, rfl⟩ := read row member
      rw [order]
      refine Dense.weight_positive _ _ valid.canonical (fun τ υ same => ?_) σ inRange ?_
      · rw [List.map_congr_left fun q listed => same q (inside listed), foretells.depends m τ υ (order ▸ same)]
      · rw [if_pos rfl, values σ (within _ σ inRange)]
        exact some
  cases seed with
  | some n =>
      obtain ⟨rows, done, outcomes⟩ := drawn n
      exact ⟨w, ⟨rows, m, congrArg (·, w) done, merged, outcomes⟩, rfl, rfl, fun _ => rfl, fun none => by cases none⟩
  | none =>
      obtain ⟨rows, done, outcomes⟩ := drawn (Random.drawDouble (w.cells.source w.register.source)).1
      exact ⟨_, ⟨rows, m, Prod.ext done rfl, merged, outcomes⟩, rfl, rfl, fun some => absurd rfl some, fun _ => rfl⟩

end Sampling

theorem sampling_sound : (∀ (s : Settings ℝ) (w : Workspace ℝ (DenseState ℝ)) (qs : List Qudit) (repetitions : ℕ) (seed : Option ℕ),
      Reached s w → (∀ t ∈ w.register.states, weight t.frame.qudits t.wave = 1) → qs ⊆ w.register.qudits →
        ∃ w', Sampled DenseState.wave qs repetitions seed w w')
    ∧ ∀ (s : Settings ℝ) (w : Workspace ℝ (StabilizerState ℝ)) (qs : List Qudit) (repetitions : ℕ) (seed : Option ℕ),
      Reached s w → (∀ t ∈ w.register.states, weight t.frame.qudits t.wave = 1) → qs ⊆ w.register.qudits →
        ∃ w', Sampled StabilizerState.wave qs repetitions seed w w' := by
  refine ⟨fun s w qs repetitions seed reached unit inside => ?_, fun s w qs repetitions seed reached unit inside => ?_⟩
  · refine reached.arena.sampled DenseState.merges_full DenseState.foretells_sound (fun _ _ within => within)
      (fun t sound => ⟨sound.exact, sound.full⟩) (fun t member => ?_) qs inside repetitions seed
    obtain ⟨h, live⟩ := (Slots.mem_live w.register.slots t).mp member
    obtain ⟨exact, full⟩ := (reached.each DenseState.durable_full).get h t live
    exact ⟨exact, full, (Dense.normSq_weight _ _ exact.distinct full).trans (unit t member)⟩
  · refine reached.arena.sampled StabilizerState.merges_wave StabilizerState.foretells_proper (fun _ _ _ => trivial)
      (fun t proper => proper.toSound) (fun t member => ?_) qs inside repetitions seed
    obtain ⟨h, live⟩ := (Slots.mem_live w.register.slots t).mp member
    exact ⟨(reached.each StabilizerState.durable_sound).get h t live,
      fun q owns => reached.qubits q (reached.arena.listed q h t live owns), unit t member⟩

theorem DenseState.basisState_unit (qs : List Qudit) (i : ℕ) (source : SourceRef) (log : LogRef) (ψ : DenseState ℝ)
    (made : Representation.basisState qs i source log = .ok ψ) : weight ψ.frame.qudits ψ.wave = 1 := by
  obtain ⟨exact, full⟩ := durable_full.begun qs i source log ψ made
  refine (Dense.normSq_weight _ _ exact.distinct full).symm.trans ?_
  rw [show Representation.basisState qs i source log = DenseState.basisState qs i source log from rfl, DenseState.basisState] at made
  split at made
  · cases made
  · split at made
    · cases made
    · split at made
      · cases made
      · rename_i inside
        cases made
        exact basis_norm _ i (not_le.mp inside)

theorem StabilizerState.basisState_unit (qs : List Qudit) (i : ℕ) (source : SourceRef) (log : LogRef) (t : StabilizerState ℝ)
    (made : Representation.basisState qs i source log = .ok t) : weight t.frame.qudits t.wave = 1 := by
  obtain ⟨two, listed, form⟩ := basisState_done qs i source log t made
  obtain ⟨z, eighth, turned⟩ := Form.turned_basis qs.length i
  rw [weight_wave t (durable_sound.begun qs i source log t made) (listed ▸ two), form, turned, map_mul,
    Form.normSq_of_eighth z eighth]
  simp [Form.zero]

theorem sampling_sound_pair :
    (∃ (w w' : Workspace ℝ (DenseState ℝ)), Reached pairSettings w
        ∧ Sampled DenseState.wave [Qudit.qubit 1, Qudit.qubit 0, Qudit.qubit 1] 2 none w w')
      ∧ ∃ (w w' : Workspace ℝ (StabilizerState ℝ)), Reached pairSettings w
        ∧ Sampled StabilizerState.wave [Qudit.qubit 1, Qudit.qubit 0, Qudit.qubit 1] 2 none w w' := by
  constructor
  · obtain ⟨r, c, made⟩ := pair_dense
    have reached : Reached pairSettings ⟨r, c⟩ := .new r {} c made
    have inside : [Qudit.qubit 1, Qudit.qubit 0, Qudit.qubit 1] ⊆ r.qudits := by
      rw [Option.some.inj (reached.arena.order.symm.trans (rfl : pairSettings.qudits = some [Qudit.qubit 0, Qudit.qubit 1]))]
      decide
    obtain ⟨w', sampled⟩ := sampling_sound.1 _ _ _ 2 none reached (Register.new_each DenseState.basisState_unit made) inside
    exact ⟨_, w', reached, sampled⟩
  · have reached : Reached pairSettings ⟨pairRegister, pairCells⟩ := .new _ {} _ pairRegister_new
    obtain ⟨w', sampled⟩ := sampling_sound.2 _ _ [Qudit.qubit 1, Qudit.qubit 0, Qudit.qubit 1] 2 none reached
      (Register.new_each StabilizerState.basisState_unit pairRegister_new) (by decide)
    exact ⟨_, w', reached, sampled⟩

end QuantumRegister
