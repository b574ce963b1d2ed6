import QuantumRegister.Proofs.Dense.Weight
import QuantumRegister.Proofs.Representation

/-!
Returning qudits to their lowest level, one after another, whatever holds their state. Each of them is
found with a value; what was found together is carried to the lowest levels, at norm one, and the rest is
gone.
-/

set_option autoImplicit false

namespace QuantumRegister

open QuantumRegister.MixedRadix
open QuantumRegister.Assignment
open QuantumRegister.Dense
open QuantumRegister.Representation (observe reset qudits frame)

theorem Assignment.within_update (L : List Qudit) (σ : Assignment) (q : Qudit) (v : ℕ) (bound : v < q.dim) (within : Within L σ) :
    Within L (Function.update σ q v) := by
  intro p listed
  by_cases same : p = q
  · rwa [same, Function.update_self]
  · rw [Function.update_of_ne same]
    exact within p listed

theorem Assignment.within_overwrite (L qs : List Qudit) (σ : Assignment) (values : List ℕ)
    (below : List.Forall₂ (· < ·) values (Qudit.dims qs)) (within : Within L σ) : Within L (overwrite σ qs values) := by
  induction qs generalizing values with
  | nil =>
      cases below
      exact within
  | cons q qs ih =>
      cases below with
      | cons bound below => exact within_update L _ q _ bound (ih _ below)

theorem Assignment.map_update (qs : List Qudit) (σ : Assignment) (q : Qudit) (v : ℕ) (other : q ∉ qs) :
    qs.map (Function.update σ q v) = qs.map σ :=
  List.map_congr_left fun _ listed => Function.update_of_ne (ne_of_mem_of_not_mem listed other) _ _

namespace Dense

theorem weight_carried (L : List Qudit) (q : Qudit) (k : ℕ) (F : Assignment → ℂ) (once : L.Nodup) (listed : q ∈ L)
    (inside : k < q.dim) : weight L (fun σ => if σ q = 0 then F (Function.update σ q k) else 0)
      = weight L fun σ => if σ q = k then F σ else 0 := by
  have single : [q] ⊆ L := List.cons_subset.mpr ⟨listed, List.nil_subset _⟩
  have lowest : 0 ∈ Finset.range q.dim := Finset.mem_range.mpr (Nat.zero_lt_of_lt inside)
  have own : k ∈ Finset.range q.dim := Finset.mem_range.mpr inside
  rw [weight_parted L [q] _ once (List.nodup_singleton q) single, weight_parted L [q] _ once (List.nodup_singleton q) single]
  refine congrArg (fun G => sumOver (others L [q]) G fun _ => 0) (funext fun σ => ?_)
  simp only [sumOver, Function.update_self, Function.update_idem, apply_ite Complex.normSq, map_zero]
  rw [Finset.sum_ite_eq_of_mem' _ _ _ lowest, Finset.sum_ite_eq_of_mem' _ _ _ own]

noncomputable def jointChance (L qs : List Qudit) (values : List ℕ) (F : Assignment → ℂ) : ℝ :=
  weight L fun σ => if qs.map σ = values then F σ else 0

-- What finding values on the qudits `qs`, and returning them to their lowest levels, makes of a wave function.
structure Emptied (L qs : List Qudit) (values : List ℕ) (F G : Assignment → ℂ) : Prop where
  below : List.Forall₂ (· < ·) values (Qudit.dims qs)
  possible : 0 < jointChance L qs values F
  norm : weight L G = 1
  gone : ∀ σ, Within L σ → (∃ q ∈ qs, σ q ≠ 0) → G σ = 0
  kept : ∀ σ, Within L σ → (∀ q ∈ qs, σ q = 0) → G σ = F (overwrite σ qs values) / (√(jointChance L qs values F) : ℝ)

theorem emptied_nil (L : List Qudit) (F : Assignment → ℂ) (norm : weight L F = 1) : Emptied L [] [] F F := by
  have whole : jointChance L [] [] F = 1 := norm
  refine ⟨.nil, whole.symm ▸ one_pos, norm, fun σ _ ⟨q, listed, _⟩ => (List.not_mem_nil listed).elim, fun σ _ _ => ?_⟩
  rw [whole, Real.sqrt_one, Complex.ofReal_one, div_one]
  rfl

-- Whatever a single qudit's value is carried with, norm one leaves no choice for the factor.
theorem emptied_single (L : List Qudit) (q : Qudit) (v : ℕ) (F G : Assignment → ℂ) (r : ℝ) (once : L.Nodup) (listed : q ∈ L)
    (inside : v < q.dim) (positive : 0 < r) (norm : weight L G = 1)
    (carried : ∀ σ, Within L σ → G σ = (if σ q = 0 then F (Function.update σ q v) else 0) * (r : ℂ)) : Emptied L [q] [v] F G := by
  have alone : jointChance L [q] [v] F = weight L fun σ => if σ q = v then F σ else 0 := by simp [jointChance]
  have unit : r * r * jointChance L [q] [v] F = 1 := by
    rw [alone, ← weight_carried L q v F once listed inside, ← weight_scale, ← norm]
    exact (weight_congr L _ _ once carried).symm
  have square : 0 < r * r := mul_pos positive positive
  have possible : 0 < jointChance L [q] [v] F := (mul_pos_iff_of_pos_left square).mp (unit ▸ one_pos)
  have factor : r * √(jointChance L [q] [v] F) = 1 := by
    rw [← Real.sqrt_mul_self positive.le, ← Real.sqrt_mul square.le, unit, Real.sqrt_one]
  refine ⟨.cons inside .nil, possible, norm, fun σ within some => ?_, fun σ within none => ?_⟩
  · obtain ⟨p, member, nonzero⟩ := some
    obtain rfl := List.mem_singleton.mp member
    rw [carried σ within, if_neg nonzero, zero_mul]
  · rw [carried σ within, if_pos (none q List.mem_cons_self), eq_div_iff, mul_assoc, ← Complex.ofReal_mul, factor,
      Complex.ofReal_one, mul_one]
    · rfl
    · exact Complex.ofReal_ne_zero.mpr (Real.sqrt_pos.mpr possible).ne'

section Cons

variable {L qs : List Qudit} {q : Qudit} {v : ℕ} {values : List ℕ} {F G H : Assignment → ℂ} (once : L.Nodup) (listed : q ∈ L)
  (other : q ∉ qs) (first : Emptied L [q] [v] F G) (rest : Emptied L qs values G H)

include first

theorem Emptied.inside : v < q.dim := by
  cases first.below with
  | cons bound _ => exact bound

theorem Emptied.single (σ : Assignment) (within : Within L σ) :
    G σ = (if σ q = 0 then F (Function.update σ q v) else 0) * ((1 / √(jointChance L [q] [v] F) : ℝ) : ℂ) := by
  rw [Complex.ofReal_div, Complex.ofReal_one, mul_one_div]
  by_cases zero : σ q = 0
  · rw [if_pos zero]
    exact first.kept σ within fun p member => List.mem_singleton.mp member ▸ zero
  · rw [if_neg zero, zero_div]
    exact first.gone σ within ⟨q, List.mem_cons_self, zero⟩

include once listed other

theorem Emptied.chances (values : List ℕ) :
    jointChance L [q] [v] F * jointChance L qs values G = jointChance L (q :: qs) (v :: values) F := by
  let part (σ : Assignment) : ℂ := if qs.map σ = values then F σ else 0
  have carried (σ : Assignment) (within : Within L σ) : (if qs.map σ = values then G σ else 0)
      = (if σ q = 0 then part (Function.update σ q v) else 0) * ((1 / √(jointChance L [q] [v] F) : ℝ) : ℂ) := by
    rw [first.single σ within]
    simp only [part, map_update qs σ q v other]
    by_cases agrees : qs.map σ = values
    · simp only [if_pos agrees]
    · simp only [if_neg agrees, ite_self, zero_mul]
  have together : (fun σ => if σ q = v then part σ else 0) = fun σ => if (q :: qs).map σ = v :: values then F σ else 0 := by
    funext σ
    simp only [part, List.map_cons, List.cons.injEq, ite_and]
  have scale : jointChance L [q] [v] F * (1 / √(jointChance L [q] [v] F) * (1 / √(jointChance L [q] [v] F))) = 1 := by
    rw [div_mul_div_comm, one_mul, Real.mul_self_sqrt first.possible.le, mul_one_div_cancel first.possible.ne']
  calc jointChance L [q] [v] F * jointChance L qs values G
      = jointChance L [q] [v] F * weight L fun σ => (if σ q = 0 then part (Function.update σ q v) else 0)
          * ((1 / √(jointChance L [q] [v] F) : ℝ) : ℂ) := congrArg _ (weight_congr L _ _ once carried)
    _ = weight L fun σ => if σ q = v then part σ else 0 := by
        rw [weight_scale, weight_carried L q v part once listed first.inside, ← mul_assoc, scale, one_mul]
    _ = jointChance L (q :: qs) (v :: values) F := congrArg (weight L) together

include rest

theorem Emptied.cons : Emptied L (q :: qs) (v :: values) F H := by
  have product := first.chances once listed other values
  refine ⟨.cons first.inside rest.below, product ▸ mul_pos first.possible rest.possible, rest.norm, fun σ within some => ?_,
    fun σ within none => ?_⟩
  · by_cases later : ∃ p ∈ qs, σ p ≠ 0
    · exact rest.gone σ within later
    · have zeros : ∀ p ∈ qs, σ p = 0 := fun p member => by_contra fun nonzero => later ⟨p, member, nonzero⟩
      have nonzero : overwrite σ qs values q ≠ 0 := by
        rw [overwrite_other σ qs values q other]
        obtain ⟨p, member, nonzero⟩ := some
        rcases List.mem_cons.mp member with rfl | tail
        · exact nonzero
        · exact absurd (zeros p tail) nonzero
      rw [rest.kept σ within zeros, first.gone _ (within_overwrite L qs σ values rest.below within) ⟨q, List.mem_cons_self, nonzero⟩,
        zero_div]
  · have zero : overwrite σ qs values q = 0 := (overwrite_other σ qs values q other).trans (none q List.mem_cons_self)
    rw [rest.kept σ within fun p member => none p (List.mem_cons_of_mem q member),
      first.kept _ (within_overwrite L qs σ values rest.below within) fun p member => List.mem_singleton.mp member ▸ zero, div_div,
      ← Complex.ofReal_mul, ← Real.sqrt_mul first.possible.le, product]
    rfl

end Cons

end Dense

/-! Runs. -/

section Runs

variable {S : Type} [Representation ℝ S]

-- The values that qudits are found with as they are reset, one after another.
def drawnValues : List Qudit → Bench S → List ℕ
  | [], _ => []
  | q :: qs, b =>
    match (observe [q] b).1 with
    | .ok values => values.headD 0 :: drawnValues qs (reset [q] b).2
    | .error _ => []

-- What has to be known of a representation: how it resets a single qudit, and that it resets several in their order.
structure Empties (fine : S → Prop) (wave : S → Assignment → ℂ) : Prop where
  distinct : ∀ t, fine t → (qudits t).Nodup
  unit : ∀ t, fine t → weight (qudits t) (wave t) = 1
  none : ∀ b : Bench S, fine b.state → reset [] b = (.ok (), b)
  each : ∀ (b : Bench S) (q : Qudit) (qs : List Qudit), fine b.state → (q :: qs).Nodup → q :: qs ⊆ qudits b.state →
    reset (q :: qs) b = (reset [q] >>= fun _ => reset qs : Step ℝ S Unit) b
  single : ∀ (b : Bench S) (q : Qudit), fine b.state → q ∈ qudits b.state → ∃ v s t, (observe [q] b).1 = .ok [v]
    ∧ reset [q] b = (.ok (), ⟨s, b.log, t⟩) ∧ fine t ∧ frame t = frame b.state
    ∧ Emptied (qudits b.state) [q] [v] (wave b.state) (wave t)

theorem Empties.reset {fine : S → Prop} {wave : S → Assignment → ℂ} (empties : Empties fine wave) (qs : List Qudit) (once : qs.Nodup)
    (b : Bench S) (held : fine b.state) (inside : qs ⊆ qudits b.state) :
    ∃ s t, Representation.reset qs b = (.ok (), ⟨s, b.log, t⟩) ∧ fine t ∧ frame t = frame b.state
      ∧ Emptied (qudits b.state) qs (drawnValues qs b) (wave b.state) (wave t) := by
  induction qs generalizing b with
  | nil => exact ⟨b.source, b.state, empties.none b held, held, rfl, emptied_nil _ _ (empties.unit b.state held)⟩
  | cons q qs ih =>
      obtain ⟨other, rest⟩ := List.nodup_cons.mp once
      obtain ⟨owned, later⟩ := List.cons_subset.mp inside
      obtain ⟨v, s, t, found, ran, fine, framed, first⟩ := empties.single b q held owned
      have listed : qudits t = qudits b.state := congrArg Frame.qudits framed
      obtain ⟨s', t', done, good, same, emptied⟩ := ih rest ⟨s, b.log, t⟩ fine (listed ▸ later)
      have drawn : drawnValues (q :: qs) b = v :: drawnValues qs ⟨s, b.log, t⟩ := by
        rw [drawnValues, found, ran]
        rfl
      refine ⟨s', t', ?_, good, same.trans framed, ?_⟩
      · rw [empties.each b q qs held once inside, Step.bind_apply, ran]
        exact done
      · rw [drawn]
        exact first.cons (empties.distinct b.state held) owned other (listed ▸ emptied)

end Runs

end QuantumRegister
