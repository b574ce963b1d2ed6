import QuantumRegister.Proofs.Register.Grouping
import QuantumRegister.Proofs.Register.Relabel

/-!
Joining states in any order. Two bracketings of the same states give the same amplitudes once their
qudits stand in the same order, and so do all registers that hold the same states, in whatever slots.
-/

set_option autoImplicit false

namespace QuantumRegister

open QuantumRegister.Assignment
open QuantumRegister.Register (Arena Reached)

theorem Frame.Exact.permutation_iff {R : Type} {f : Frame} (valid : f.Exact) (order : List Qudit) :
    (∃ axes, f.permutation (R := R) order = .ok axes) ↔ order.Perm f.qudits := by
  constructor
  · rintro ⟨axes, found⟩
    rw [Frame.permutation] at found
    split at found
    · cases found
    · rename_i length
      obtain ⟨-, names⟩ := valid.axes_idxOf order axes found
      exact (List.subperm_of_subset names.once names.inside).perm_of_length_le (not_not.mp length).ge
  · intro perm
    obtain ⟨axes, found⟩ := valid.axes_found (R := R) order (perm.nodup_iff.mpr valid.distinct) perm.subset
    exact ⟨axes, by rw [Frame.permutation, if_neg (not_not.mpr perm.length_eq), found]⟩

/-! All states of a register. -/

theorem Slots.whole_live {S M : Type} [CommMonoid M] {f : S → M} (a : Slots S) : a.whole f = (a.live.map f).prod := by
  obtain ⟨cells, free⟩ := a
  induction cells with
  | nil => rfl
  | cons cell cells ih =>
      have shifted : (⟨cell :: cells, free⟩ : Slots S).whole f = (cell.map f).getD 1 * (⟨cells, free⟩ : Slots S).whole f := by
        rw [whole, List.length_cons, Finset.prod_range_succ', mul_comm]
        rfl
      rw [shifted, ih]
      cases cell with
      | none => exact one_mul _
      | some t => rfl

namespace Register

variable {R S : Type} [Representation R S] {s : Settings R} {r : Register R S}

theorem states_holdings (r : Register R S) :
    r.states.flatMap Representation.qudits = (List.range r.slots.cells.length).flatMap r.holdings := by
  have each (cells : List (Option S)) : (cells.filterMap id).flatMap Representation.qudits
      = (List.range cells.length).flatMap fun h => (((cells[h]?).join).map Representation.qudits).getD [] := by
    induction cells with
    | nil => rfl
    | cons cell cells ih =>
        rw [List.length_cons, List.range_succ_eq_map, List.flatMap_cons, List.flatMap_map]
        cases cell with
        | none => exact ih
        | some t => exact congrArg (Representation.qudits t ++ ·) ih
  exact each r.slots.cells

theorem Arena.states_perm (valid : Arena s r) : (r.states.flatMap Representation.qudits).Perm r.qudits := by
  rw [states_holdings]
  have once := valid.holdings_nodup _ (List.nodup_range (n := r.slots.cells.length))
  refine (List.perm_ext_iff_of_nodup once valid.canonical).mpr fun q => ⟨fun owned => ?_, fun listed => ?_⟩
  · obtain ⟨h, -, owns⟩ := List.mem_flatMap.mp owned
    exact valid.holdings_listed h q owns
  · obtain ⟨h, t, -, live, owns⟩ := valid.owner_found q listed
    exact List.mem_flatMap.mpr ⟨h, List.mem_range.mpr (Slots.get?_inside _ _ _ live), (mem_holdings r h q).mpr ⟨t, live, owns⟩⟩

end Register

namespace Representation

inductive Bracketing (S : Type) where
  | state (t : S)
  | pair (left right : Bracketing S)

section Joining

variable {R S X Y M : Type} [Representation R S]

def Bracketing.states : Bracketing S → List S
  | .state t => [t]
  | .pair left right => left.states ++ right.states

def Bracketing.join : Bracketing S → Except (SimError R) S
  | .state t => .ok t
  | .pair left right => do kronecker (← left.join) (← right.join)

variable [CommMonoid M] {fits : S → Prop} {admits : List Qudit → Y → Prop} {value : S → Y → M}

theorem Joins.bracketed (joins : Joins fits admits value) (B : Bracketing S) (each : ∀ t ∈ B.states, fits t)
    (once : (B.states.flatMap qudits).Nodup) :
    ∃ v, B.join = .ok v ∧ fits v ∧ qudits v = B.states.flatMap qudits
      ∧ ∀ y, admits (qudits v) y → value v y = (B.states.map (value · y)).prod := by
  induction B with
  | state t =>
      refine ⟨t, rfl, each t List.mem_cons_self, (List.append_nil _).symm, fun y _ => ?_⟩
      exact (List.prod_singleton (x := value t y)).symm
  | pair left right ihLeft ihRight =>
      rw [Bracketing.states, List.flatMap_append] at once ⊢
      obtain ⟨onceLeft, onceRight, -⟩ := List.nodup_append.mp once
      obtain ⟨a, joinedLeft, fitLeft, listedLeft, valuesLeft⟩ :=
        ihLeft (fun t member => each t (List.mem_append_left _ member)) onceLeft
      obtain ⟨b, joinedRight, fitRight, listedRight, valuesRight⟩ :=
        ihRight (fun t member => each t (List.mem_append_right _ member)) onceRight
      rw [← listedLeft, ← listedRight] at once ⊢
      obtain ⟨v, joined, fit, listed, values⟩ := joins.joined a b fitLeft fitRight once
      refine ⟨v, ?_, fit, listed, fun y admitted => ?_⟩
      · simp only [Bracketing.join, joinedLeft, joinedRight, bind, Except.bind, joined]
      · have first : admits (qudits a) y := joins.narrow (listed ▸ List.subset_append_left _ _) admitted
        have second : admits (qudits b) y := joins.narrow (listed ▸ List.subset_append_right _ _) admitted
        rw [values y admitted, valuesLeft y first, valuesRight y second, List.map_append, List.prod_append]

-- What `shown` shows of a state is settled by the order of its qudits and its values.
def Settles (fits : S → Prop) (admits : List Qudit → Y → Prop) (value : S → Y → M) (shown : S → X) : Prop :=
  ∀ t u, fits t → fits u → qudits t = qudits u → (∀ y, admits (qudits t) y → value t y = value u y) → shown t = shown u

variable {shown : S → X} {s s' : Settings R} {r r' : Register R S}

theorem Merges.regrouped (merges : Merges fits admits value) (settles : Settles fits admits value shown) (A B : Bracketing S)
    (same : A.states = B.states) (each : ∀ t ∈ A.states, fits t) (once : (A.states.flatMap qudits).Nodup) :
    ∃ a b, A.join = .ok a ∧ B.join = .ok b ∧ shown a = shown b := by
  obtain ⟨a, joinedA, fitA, listedA, valuesA⟩ := merges.bracketed A each once
  obtain ⟨b, joinedB, fitB, listedB, valuesB⟩ := merges.bracketed B (same ▸ each) (same ▸ once)
  have order : qudits a = qudits b := by rw [listedA, listedB, same]
  refine ⟨a, b, joinedA, joinedB, settles a b fitA fitB order fun y admitted => ?_⟩
  rw [valuesA y admitted, valuesB y (order ▸ admitted), same]

theorem Merges.rearranged (merges : Merges fits admits value) (settles : Settles fits admits value shown) (B : Bracketing S)
    (each : ∀ t ∈ B.states, fits t) (u : S) (fit : fits u) (once : (qudits u).Nodup) (perm : (B.states.flatMap qudits).Perm (qudits u))
    (values : ∀ y, admits (qudits u) y → value u y = (B.states.map (value · y)).prod) :
    ∃ v turned, B.join = .ok v ∧ transposed v (qudits u) = .ok turned ∧ shown turned = shown u := by
  obtain ⟨v, joined, fitV, listed, valuesV⟩ := merges.bracketed B each (perm.nodup_iff.mpr once)
  obtain ⟨turned, done, fitTurned, order, same⟩ := merges.turned v (qudits u) fitV (listed ▸ perm.symm)
  refine ⟨v, turned, joined, done, settles turned u fitTurned fit order fun y admitted => ?_⟩
  rw [order] at admitted
  have part : admits (qudits v) y := merges.narrow (listed ▸ perm.subset) admitted
  rw [same y admitted, valuesV y part, values y admitted]

theorem Merges.exchanged (merges : Merges fits admits value) (settles : Settles fits admits value shown) (a b : S) (fitA : fits a)
    (fitB : fits b) (once : (qudits a ++ qudits b).Nodup) :
    ∃ ab ba turned, kronecker a b = .ok ab ∧ kronecker b a = .ok ba
      ∧ transposed ab (qudits b ++ qudits a) = .ok turned ∧ shown turned = shown ba := by
  have each : ∀ t ∈ (Bracketing.pair (.state a) (.state b)).states, fits t := by simp [Bracketing.states, fitA, fitB]
  have swapped : (qudits a ++ qudits b).Perm (qudits b ++ qudits a) := List.perm_append_comm
  obtain ⟨ba, joined, fit, listed, values⟩ := merges.joined b a fitB fitA (swapped.nodup_iff.mp once)
  obtain ⟨ab, turned, joined', done, same⟩ := merges.rearranged settles (.pair (.state a) (.state b)) each ba fit
    (listed ▸ swapped.nodup_iff.mp once) (by simpa [Bracketing.states, listed] using swapped) fun y admitted => by
      rw [values y admitted, mul_comm]
      simp [Bracketing.states]
  exact ⟨ab, ba, turned, joined', joined, listed ▸ done, same⟩

theorem Merges.returned (merges : Merges fits admits value) (settles : Settles fits admits value shown) (t u : S)
    (order next : List Qudit) (fit : fits t) (perm : order.Perm (qudits t)) (done : transposed t order = .ok u)
    (again : next.Perm (qudits t)) : ∃ v w, transposed u next = .ok v ∧ transposed t next = .ok w ∧ shown v = shown w := by
  obtain ⟨u', done', fitU, listed, values⟩ := merges.turned t order fit perm
  cases done.symm.trans done'
  obtain ⟨v, twice, fitV, listedV, valuesV⟩ := merges.turned u next fitU (listed ▸ again.trans perm.symm)
  obtain ⟨w, once, fitW, listedW, valuesW⟩ := merges.turned t next fit again
  refine ⟨v, w, twice, once, settles v w fitV fitW (listedV.trans listedW.symm) fun y admitted => ?_⟩
  rw [listedV] at admitted
  rw [valuesV y admitted, valuesW y admitted]
  exact values y (merges.narrow (again.trans perm.symm).symm.subset admitted)

/-! Registers. -/

theorem Merges.merged_states (merges : Merges fits admits value) (valid : Arena s r) (each : ∀ t ∈ r.states, fits t) :
    ∃ m, r.merged = .ok m ∧ fits m ∧ qudits m = r.qudits
      ∧ ∀ y, admits r.qudits y → value m y = (r.states.map (value · y)).prod := by
  obtain ⟨m, merged, fit, order, values⟩ :=
    merges.merged valid fun h t live => each t ((Slots.mem_live r.slots t).mpr ⟨h, live⟩)
  exact ⟨m, merged, fit, order, fun y admitted => (values y admitted).trans (Slots.whole_live r.slots)⟩

theorem Merges.merged_bracketed (merges : Merges fits admits value) (settles : Settles fits admits value shown) (valid : Arena s r)
    (each : ∀ t ∈ r.states, fits t) (B : Bracketing S) (perm : B.states.Perm r.states) :
    ∃ m v turned, r.merged = .ok m ∧ B.join = .ok v ∧ transposed v r.qudits = .ok turned ∧ shown turned = shown m := by
  obtain ⟨m, merged, fit, order, values⟩ := merges.merged_states valid each
  have owned : (B.states.flatMap qudits).Perm r.qudits := (perm.flatMap_right qudits).trans valid.states_perm
  obtain ⟨v, turned, joined, done, same⟩ := merges.rearranged settles B (fun t member => each t (perm.subset member)) m fit
    (order ▸ valid.canonical) (order ▸ owned) fun y admitted => by
      rw [values y (order ▸ admitted), (perm.map (value · y)).prod_eq]
  exact ⟨m, v, turned, merged, joined, order ▸ done, same⟩

theorem Merges.merged_slots (merges : Merges fits admits value) (settles : Settles fits admits value shown) (valid : Arena s r)
    (valid' : Arena s' r') (each : ∀ t ∈ r.states, fits t) (same : r'.qudits = r.qudits) (perm : r'.states.Perm r.states) :
    ∃ m m', r.merged = .ok m ∧ r'.merged = .ok m' ∧ shown m' = shown m := by
  obtain ⟨m, merged, fit, order, values⟩ := merges.merged_states valid each
  obtain ⟨m', merged', fit', order', values'⟩ := merges.merged_states valid' fun t member => each t (perm.subset member)
  rw [same] at order' values'
  refine ⟨m, m', merged, merged', settles m' m fit' fit (order'.trans order.symm) fun y admitted => ?_⟩
  rw [order'] at admitted
  rw [values y admitted, values' y admitted, (perm.map (value · y)).prod_eq]

end Joining

/-! States that a program can hold. -/

section Attained

variable {R S : Type} [Scalar R] [Representation R S]

inductive Attained : S → Prop where
  | begun (qs : List Qudit) (index : ℕ) (source : SourceRef) (log : LogRef) (t : S) (made : basisState qs index source log = .ok t) :
      Attained t
  | joined (t u v : S) (first : Attained t) (second : Attained u) (done : kronecker t u = .ok v) : Attained v
  | parted (t single rest : S) (qs : List Qudit) (validate : Bool) (tolerance : R) (before : Attained t)
      (done : factor t qs validate tolerance = .ok (single, rest)) : Attained single
  | left (t single rest : S) (qs : List Qudit) (validate : Bool) (tolerance : R) (before : Attained t)
      (done : factor t qs validate tolerance = .ok (single, rest)) : Attained rest
  | turned (t u : S) (order : List Qudit) (before : Attained t) (done : transposed t order = .ok u) : Attained u
  | relabelled (t : S) (f : Frame) (before : Attained t) (exact : f.Exact) (flat : f.dims = (frame t).dims) : Attained (setFrame t f)
  | copied (deep : Bool) (t : S) (source : SourceRef) (log : LogRef) (before : Attained t) :
      Attained (setFrame (duplicate deep t) ((frame t).rewired source log))
  | performed (op : Operation R) (b : Bench S) (before : Attained b.state) : Attained (perform op b).2.state
  | observed (qs : List Qudit) (b : Bench S) (before : Attained b.state) : Attained (observe qs b).2.state
  | cleared (qs : List Qudit) (b : Bench S) (before : Attained b.state) : Attained (Representation.reset qs b).2.state

theorem Attained.held {P : S → Prop} (durable : Durable P) (turns : ∀ t u order, P t → transposed t order = .ok u → P u) {t : S}
    (attained : Attained t) : P t := by
  induction attained with
  | begun qs index source log t made => exact durable.begun qs index source log t made
  | joined t u v _ _ done first second => exact durable.joined t u v first second done
  | parted t single rest qs validate tolerance _ done held => exact (durable.parted t qs validate tolerance single rest held done).1
  | left t single rest qs validate tolerance _ done held => exact (durable.parted t qs validate tolerance single rest held done).2
  | turned t u order _ done held => exact turns t u order held done
  | relabelled t f _ exact flat held => exact durable.relabelled t f held exact flat
  | copied deep t source log _ held => exact durable.copied deep t source log held
  | performed op b _ held => exact durable.performed op b held
  | observed qs b _ held => exact durable.observed qs b held
  | cleared qs b _ held => exact durable.cleared qs b held

end Attained

/-- How states of one representation are joined and brought into other orders. `shown` is what is compared
of two states; `amplitude` is that of a state at the values that an assignment gives its qudits. -/
structure JoinsInAnyOrder {S X : Type} [Representation ℝ S] (fits : S → Prop) (shown : S → X)
    (amplitude : S → Assignment → Option (Cplx ℝ)) : Prop where
  attained : ∀ t, Attained t → fits t
  associative : ∀ a b c, fits a → fits b → fits c → (qudits a ++ qudits b ++ qudits c).Nodup → ∃ ab bc first second,
    kronecker a b = .ok ab ∧ kronecker ab c = .ok first ∧ kronecker b c = .ok bc ∧ kronecker a bc = .ok second
      ∧ shown first = shown second
  commutative : ∀ a b, fits a → fits b → (qudits a ++ qudits b).Nodup → ∃ ab ba turned, kronecker a b = .ok ab
    ∧ kronecker b a = .ok ba ∧ transposed ab (qudits b ++ qudits a) = .ok turned ∧ shown turned = shown ba
  turns : ∀ t order, fits t → ((∃ u, transposed t order = .ok u) ↔ order.Perm (qudits t))
  placed : ∀ t u order, fits t → transposed t order = .ok u → qudits u = order
    ∧ ∀ σ, Within order σ → ∃ z, amplitude u σ = some z ∧ amplitude t σ = some z
  returned : ∀ t u order next, fits t → transposed t order = .ok u → next.Perm (qudits t) → ∃ v w,
    transposed u next = .ok v ∧ transposed t next = .ok w ∧ shown v = shown w
  slots : ∀ (s s' : Settings ℝ) (r r' : Register ℝ S), Arena s r → Arena s' r' → (∀ t ∈ r.states, fits t) →
    r'.qudits = r.qudits → r'.states.Perm r.states → ∃ m m', r.merged = .ok m ∧ r'.merged = .ok m' ∧ shown m' = shown m
  folds : ∀ (s : Settings ℝ) (r : Register ℝ S) (B : Bracketing S), Arena s r → (∀ t ∈ r.states, fits t) → B.states.Perm r.states →
    ∃ m v turned, r.merged = .ok m ∧ B.join = .ok v ∧ transposed v r.qudits = .ok turned ∧ shown turned = shown m
  reached : ∀ (s : Settings ℝ) (w : Workspace ℝ S), Reached s w → Arena s w.register ∧ ∀ t ∈ w.register.states, fits t

section Laws

variable {S X : Type} [Representation ℝ S] [LawfulRepresentation ℝ S] {fits : S → Prop} {admits : List Qudit → Assignment → Prop}
  {wave : S → Assignment → ℂ} {shown : S → X} {amplitude : S → Assignment → Option (Cplx ℝ)}

theorem Merges.inAnyOrder (merges : Merges fits admits wave) (settles : Settles fits admits wave shown) (durable : Durable fits)
    (ordered : ∀ t u order, fits t → transposed t order = .ok u → order.Perm (qudits t))
    (within : ∀ L σ, Within L σ → admits L σ)
    (reads : ∀ t σ, fits t → Within (qudits t) σ → ∃ z, amplitude t σ = some z ∧ z.toComplex = wave t σ) :
    JoinsInAnyOrder fits shown amplitude where
  attained t attained := attained.held durable fun t u order fit done => by
    obtain ⟨v, done', fitV, -⟩ := merges.turned t order fit (ordered t u order fit done)
    cases done.symm.trans done'
    exact fitV
  associative a b c fitA fitB fitC once := by
    let A : Bracketing S := .pair (.pair (.state a) (.state b)) (.state c)
    let B : Bracketing S := .pair (.state a) (.pair (.state b) (.state c))
    have each : ∀ t ∈ A.states, fits t := by simp [A, Bracketing.states, fitA, fitB, fitC]
    have listed : A.states.flatMap qudits = qudits a ++ qudits b ++ qudits c := by simp [A, Bracketing.states]
    obtain ⟨first, second, joined, joined', same⟩ := merges.regrouped settles A B rfl each (listed ▸ once)
    obtain ⟨ab, inner, joined⟩ := SimError.bind_ok joined
    obtain ⟨_, last, joined⟩ := SimError.bind_ok joined
    obtain ⟨_, head, joined'⟩ := SimError.bind_ok joined'
    obtain ⟨bc, inner', joined'⟩ := SimError.bind_ok joined'
    cases last
    cases head
    exact ⟨ab, bc, first, second, inner, joined, inner', joined', same⟩
  commutative a b fitA fitB once := merges.exchanged settles a b fitA fitB once
  turns t order fit := ⟨fun ⟨u, done⟩ => ordered t u order fit done, fun perm => by
    obtain ⟨u, done, -⟩ := merges.turned t order fit perm
    exact ⟨u, done⟩⟩
  placed t u order fit done := by
    have perm := ordered t u order fit done
    obtain ⟨u', done', fitU, listed, values⟩ := merges.turned t order fit perm
    cases done.symm.trans done'
    refine ⟨listed, fun σ inside => ?_⟩
    obtain ⟨z, readU, new⟩ := reads u σ fitU (listed.symm ▸ inside)
    obtain ⟨x, readT, old⟩ := reads t σ fit fun q member => inside q (perm.mem_iff.mpr member)
    have same : z = x := Cplx.toComplex_injective (new.trans ((values σ (within order σ inside)).trans old.symm))
    exact ⟨z, readU, same ▸ readT⟩
  returned t u order next fit done again := merges.returned settles t u order next fit (ordered t u order fit done) done again
  slots _ _ _ _ valid valid' each same perm := merges.merged_slots settles valid valid' each same perm
  folds _ _ B valid each perm := merges.merged_bracketed settles valid each B perm
  reached _ w reached := ⟨reached.arena, fun t member => by
    obtain ⟨h, live⟩ := (Slots.mem_live w.register.slots t).mp member
    exact (reached.each durable).get h t live⟩

end Laws

end Representation

/-! Dense states. -/

namespace DenseState

open QuantumRegister.Dense (wave_injective)

theorem settles_full : Representation.Settles Readable.Full Within DenseState.wave
    fun ψ : DenseState ℝ => (ψ.frame.qudits, ψ.amplitudes) := by
  intro ψ φ first second order values
  have order : φ.frame.qudits = ψ.frame.qudits := order.symm
  have size : φ.amplitudes.size = MixedRadix.size (Qudit.dims ψ.frame.qudits) := second.2.trans (by rw [Frame.dims, order])
  refine Prod.ext order.symm ?_
  by_cases positive : ∀ q ∈ ψ.frame.qudits, 0 < q.dim
  · refine wave_injective ψ.frame.qudits _ _ first.1.distinct positive first.2 size fun σ within => ?_
    have here := values σ within
    rw [DenseState.wave, DenseState.wave, order] at here
    exact here
  · -- A qudit without levels leaves no amplitudes at all.
    push Not at positive
    obtain ⟨q, listed, none⟩ := positive
    have empty : MixedRadix.size (Qudit.dims ψ.frame.qudits) = 0 :=
      List.prod_eq_zero (List.mem_map.mpr ⟨q, listed, Nat.le_zero.mp none⟩)
    exact (Array.size_eq_zero_iff.mp (first.2.trans empty)).trans (Array.size_eq_zero_iff.mp (size.trans empty)).symm

theorem ordered_full (ψ φ : DenseState ℝ) (order : List Qudit) (full : Readable.Full ψ) (done : Representation.transposed ψ order = .ok φ) :
    order.Perm (Representation.qudits ψ) := by
  obtain ⟨axes, found, -⟩ := SimError.bind_ok (show ψ.transposed order = .ok φ from done)
  exact (full.1.permutation_iff order).mp ⟨axes, found⟩

theorem amplitude_read (ψ : DenseState ℝ) (σ : Assignment) (full : Readable.Full ψ) (within : Within ψ.frame.qudits σ) :
    ∃ z, ψ.amplitudes[index ψ.frame.qudits σ]? = some z ∧ z.toComplex = ψ.wave σ := by
  have inside : index ψ.frame.qudits σ < ψ.amplitudes.size := (index_lt _ σ within).trans_eq full.2.symm
  refine ⟨ψ.amplitudes.amp (index ψ.frame.qudits σ), ?_, rfl⟩
  simp [Dense.Amplitudes.amp, inside]

end DenseState

/-! Stabilizer states. -/

namespace StabilizerState

theorem merges_wave : Representation.Merges Sound (fun _ _ => True) StabilizerState.wave where
  narrow _ _ := trivial
  joined t u first second once := by
    obtain ⟨v, joined, sound, listed, values⟩ := merges_signal.joined t u first second once
    refine ⟨v, joined, sound, listed, fun σ _ => ?_⟩
    rw [wave_signal v sound, wave_signal t first, wave_signal u second, values _ trivial]
  turned t order sound perm := by
    obtain ⟨u, turned, settled, listed, values⟩ := merges_signal.turned t order sound perm
    refine ⟨u, turned, settled, listed, fun σ _ => ?_⟩
    rw [wave_signal u settled, wave_signal t sound, values _ trivial]

theorem settles_sound : Representation.Settles Sound (fun _ _ => True) StabilizerState.wave
    fun φ : StabilizerState ℝ => (φ.frame.qudits, φ.form.amplitude?) := by
  intro φ χ first second order values
  have order : χ.frame.qudits = φ.frame.qudits := order.symm
  refine Prod.ext order.symm (funext fun x => ?_)
  refine Register.amplitude_across φ.frame.qudits first.exact.distinct _ _ first.valid (order ▸ second.valid) (funext fun β => ?_) x
  have here := values (fun q => (β q).val) trivial
  have read : bits (fun q => (β q).val) = β := by
    funext q
    rcases Form.bit_cases (β q) with zero | one
    · rw [bits, zero]
      rfl
    · rw [bits, one]
      rfl
  rw [wave_signal φ first, wave_signal χ second, read, signal, signal, order] at here
  exact here

theorem ordered_sound (φ χ : StabilizerState ℝ) (order : List Qudit) (sound : φ.Sound) (done : Representation.transposed φ order = .ok χ) :
    order.Perm (Representation.qudits φ) := by
  obtain ⟨axes, found, -⟩ := SimError.bind_ok (show φ.transposed order = .ok χ from done)
  exact (sound.exact.permutation_iff order).mp ⟨axes, found⟩

theorem amplitude_read (φ : StabilizerState ℝ) (σ : Assignment) (sound : φ.Sound) :
    ∃ z, φ.form.amplitude? (φ.frame.qudits.map fun q => σ q == 1) = some z ∧ z.toComplex = φ.wave σ :=
  ⟨_, if_pos (by rw [List.length_map, sound.valid.width]), rfl⟩

end StabilizerState

theorem joining_in_any_order :
    Representation.JoinsInAnyOrder Readable.Full (fun ψ : DenseState ℝ => (ψ.frame.qudits, ψ.amplitudes))
        (fun ψ σ => ψ.amplitudes[index ψ.frame.qudits σ]?)
      ∧ Representation.JoinsInAnyOrder StabilizerState.Sound (fun φ => (φ.frame.qudits, φ.form.amplitude?))
        (fun φ σ => φ.form.amplitude? (φ.frame.qudits.map fun q => σ q == 1)) :=
  ⟨DenseState.merges_full.inAnyOrder DenseState.settles_full DenseState.durable_full DenseState.ordered_full (fun _ _ within => within)
      DenseState.amplitude_read,
    StabilizerState.merges_wave.inAnyOrder StabilizerState.settles_sound StabilizerState.durable_sound StabilizerState.ordered_sound
      (fun _ _ _ => trivial) fun φ σ sound _ => StabilizerState.amplitude_read φ σ sound⟩

theorem joining_in_any_order_pair : ∃ (w : Workspace ℝ (StabilizerState ℝ)) (m m' : StabilizerState ℝ),
    Reached pairSettings ⟨pairRegister, pairCells⟩ ∧ Reached pairSettings w ∧ w.register.states.Perm pairRegister.states
      ∧ w.register.groups = [[Qudit.qubit 1], [Qudit.qubit 0], []] ∧ pairRegister.merged = .ok m ∧ w.register.merged = .ok m'
      ∧ m'.frame.qudits = m.frame.qudits ∧ m'.form.amplitude? = m.form.amplitude? := by
  have reached : Reached pairSettings ⟨pairRegister, pairCells⟩ := .new _ {} _ pairRegister_new
  let first : StabilizerState ℝ := ⟨⟨[Qudit.qubit 0], [(Qudit.qubit 0, 0)], ⟨0⟩, ⟨0⟩⟩, Form.basis 1 0⟩
  let second : StabilizerState ℝ := ⟨⟨[Qudit.qubit 1], [(Qudit.qubit 1, 0)], ⟨0⟩, ⟨0⟩⟩, Form.basis 1 0⟩
  let base : StabilizerState ℝ := ⟨⟨[], [], ⟨0⟩, ⟨0⟩⟩, Form.basis 0 0⟩
  let r : Register ℝ (StabilizerState ℝ) := { pairRegister with
    slots := Slots.ofList [second, first, base], owners := [(Qudit.qubit 0, 1), (Qudit.qubit 1, 0)] }
  have applied : Register.apply (Gate.swap (Qudit.qubit 0) (Qudit.qubit 1) : Gate ℝ).operation ⟨pairRegister, pairCells⟩
      = (.ok (), ⟨r, pairCells⟩) := rfl
  have again := Reached.apply _ (Gate.swap (Qudit.qubit 0) (Qudit.qubit 1) : Gate ℝ).operation reached
  rw [applied] at again
  have perm : r.states.Perm pairRegister.states := .swap first second [base]
  obtain ⟨-, laws⟩ := joining_in_any_order
  obtain ⟨valid, each⟩ := laws.reached _ _ reached
  obtain ⟨m, m', merged, merged', same⟩ := laws.slots _ _ _ _ valid (laws.reached _ _ again).1 each rfl perm
  exact ⟨_, m, m', reached, again, perm, rfl, merged, merged', congrArg Prod.fst same, congrArg Prod.snd same⟩

end QuantumRegister
