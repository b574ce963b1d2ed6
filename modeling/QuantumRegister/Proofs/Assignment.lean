import QuantumRegister.Proofs.MixedRadix
import QuantumRegister.Qudit

/-!
Values assigned to qudits, the flat position of an assignment, and sums over the values of some
qudits.
-/

set_option autoImplicit false

namespace QuantumRegister

open QuantumRegister.MixedRadix

namespace Qudit

theorem dims_length (qs : List Qudit) : (dims qs).length = qs.length := List.length_map _

theorem dims_cons (q : Qudit) (qs : List Qudit) : dims (q :: qs) = q.dim :: dims qs := rfl

theorem dims_append (qs rs : List Qudit) : dims (qs ++ rs) = dims qs ++ dims rs := List.map_append

theorem dims_positive (qs : List Qudit) (positive : ∀ q ∈ qs, 0 < q.dim) : ∀ d ∈ dims qs, 0 < d := by
  intro d member
  obtain ⟨q, listed, rfl⟩ := List.mem_map.mp member
  exact positive q listed

theorem positive_of_dims (qs : List Qudit) (positive : ∀ d ∈ dims qs, 0 < d) : ∀ q ∈ qs, 0 < q.dim :=
  fun q listed => positive q.dim (List.mem_map.mpr ⟨q, listed, rfl⟩)

end Qudit

abbrev Assignment := Qudit → ℕ

namespace Assignment

def Within (qs : List Qudit) (σ : Assignment) : Prop := ∀ q ∈ qs, σ q < q.dim

def index (qs : List Qudit) (σ : Assignment) : ℕ := value (Qudit.dims qs) (qs.map σ)

def spread (qs : List Qudit) (σ : Assignment) (i : ℕ) : Assignment := overwrite σ qs (digits (Qudit.dims qs) i)

variable {M : Type}

def DependsOn (qs : List Qudit) (F : Assignment → M) : Prop := ∀ σ τ, (∀ q ∈ qs, σ q = τ q) → F σ = F τ

theorem within_below (qs : List Qudit) (σ : Assignment) (within : Within qs σ) :
    List.Forall₂ (· < ·) (qs.map σ) (Qudit.dims qs) := by
  rw [Qudit.dims, List.forall₂_map_left_iff, List.forall₂_map_right_iff, List.forall₂_same]
  exact within

theorem index_depends (qs : List Qudit) : DependsOn qs (index qs) := by
  intro σ τ same
  rw [index, index, List.map_congr_left same]

theorem index_lt (qs : List Qudit) (σ : Assignment) (within : Within qs σ) : index qs σ < size (Qudit.dims qs) :=
  value_lt _ _ (within_below qs σ within)

theorem index_cons (q : Qudit) (qs : List Qudit) (σ : Assignment) :
    index (q :: qs) σ = σ q * size (Qudit.dims qs) + index qs σ := by
  rw [index, List.map_cons, Qudit.dims_cons, value_cons _ _ _ _ (by rw [List.length_map, Qudit.dims_length])]
  rfl

theorem index_append (qs rs : List Qudit) (σ : Assignment) :
    index (qs ++ rs) σ = index qs σ * size (Qudit.dims rs) + index rs σ := by
  rw [index, List.map_append, Qudit.dims_append, value_append _ _ _ _ (by rw [List.length_map, Qudit.dims_length])
    (by rw [List.length_map, Qudit.dims_length])]
  rfl

theorem digits_index (qs : List Qudit) (σ : Assignment) (within : Within qs σ) :
    digits (Qudit.dims qs) (index qs σ) = qs.map σ :=
  digits_value _ _ (within_below qs σ within)

theorem map_digits (qs : List Qudit) (σ : Assignment) (within : Within qs σ) (k : ℕ) (inside : k < size (Qudit.dims qs)) :
    qs.map σ = digits (Qudit.dims qs) k ↔ index qs σ = k := by
  constructor
  · intro same
    rw [index, same, value_digits _ k inside]
  · intro same
    rw [← same, digits_index qs σ within]

theorem depends_index {F : Assignment → M} {qs : List Qudit} (depends : DependsOn qs F) (σ τ : Assignment) (first : Within qs σ)
    (second : Within qs τ) (same : index qs σ = index qs τ) : F σ = F τ := by
  have digits := digits_index qs σ first
  rw [same, digits_index qs τ second] at digits
  exact depends σ τ fun q listed => (List.map_inj_left.mp digits q listed).symm

theorem spread_other (qs : List Qudit) (σ : Assignment) (i : ℕ) (q : Qudit) (other : q ∉ qs) : spread qs σ i q = σ q :=
  overwrite_other σ qs _ q other

theorem map_spread (qs : List Qudit) (σ : Assignment) (i : ℕ) (once : qs.Nodup) :
    qs.map (spread qs σ i) = digits (Qudit.dims qs) i :=
  map_overwrite σ qs _ once (by rw [digits_length, Qudit.dims_length])

theorem index_spread (qs : List Qudit) (σ : Assignment) (i : ℕ) (once : qs.Nodup) (inside : i < size (Qudit.dims qs)) :
    index qs (spread qs σ i) = i := by
  rw [index, map_spread qs σ i once, value_digits _ i inside]

theorem within_spread (qs : List Qudit) (σ : Assignment) (i : ℕ) (once : qs.Nodup) (positive : ∀ q ∈ qs, 0 < q.dim) :
    Within qs (spread qs σ i) := by
  have small := digits_below (Qudit.dims qs) i (Qudit.dims_positive qs positive)
  rw [← map_spread qs σ i once, Qudit.dims, List.forall₂_map_left_iff, List.forall₂_map_right_iff, List.forall₂_same] at small
  exact small

theorem exists_index (qs : List Qudit) (i : ℕ) (once : qs.Nodup) (positive : ∀ q ∈ qs, 0 < q.dim) (inside : i < size (Qudit.dims qs)) :
    ∃ σ, Within qs σ ∧ index qs σ = i :=
  ⟨spread qs (fun _ => 0) i, within_spread qs _ i once positive, index_spread qs _ i once inside⟩

theorem spread_within (L qs : List Qudit) (σ : Assignment) (i : ℕ) (once : qs.Nodup) (positive : ∀ q ∈ qs, 0 < q.dim)
    (within : Within L σ) : Within L (spread qs σ i) := by
  intro q listed
  by_cases target : q ∈ qs
  · exact within_spread qs σ i once positive q target
  · rw [spread_other qs σ i q target]
    exact within q listed

theorem spread_at (qs : List Qudit) (σ τ : Assignment) (once : qs.Nodup) (within : Within qs τ) (q : Qudit) (listed : q ∈ qs) :
    spread qs σ (index qs τ) q = τ q := by
  have values := map_spread qs σ (index qs τ) once
  rw [digits_index qs τ within] at values
  exact List.map_inj_left.mp values q listed

theorem spread_index (qs : List Qudit) (σ τ : Assignment) (once : qs.Nodup) (within : Within qs τ)
    (same : ∀ q, q ∉ qs → τ q = σ q) : spread qs σ (index qs τ) = τ := by
  funext q
  by_cases listed : q ∈ qs
  · exact spread_at qs σ τ once within q listed
  · rw [spread_other qs σ _ q listed, same q listed]

/-! The same values, read in another order. -/

-- The position among the joint values of `qs` at which the qudits have the values they have at `i` among those of `rs`.
def reread (qs rs : List Qudit) (i : ℕ) : ℕ := index qs (spread rs (fun _ => 0) i)

section Reread

variable {qs rs : List Qudit} (once : rs.Nodup)

include once

theorem reread_index (inside : qs ⊆ rs) (τ : Assignment) (within : Within rs τ) : reread qs rs (index rs τ) = index qs τ :=
  index_depends qs _ _ fun q listed => spread_at rs _ τ once within q (inside listed)

theorem reread_reread (perm : rs.Perm qs) (positive : ∀ q ∈ rs, 0 < q.dim) (i : ℕ) (bound : i < size (Qudit.dims rs)) :
    reread rs qs (reread qs rs i) = i := by
  have within := within_spread rs (fun _ => 0) i once positive
  have back := reread_index (perm.nodup_iff.mp once) perm.subset (spread rs (fun _ => 0) i) fun q listed =>
    within q (perm.mem_iff.mpr listed)
  exact back.trans (index_spread rs _ i once bound)

theorem reread_bijective (perm : rs.Perm qs) (positive : ∀ q ∈ rs, 0 < q.dim) :
    Set.BijOn (reread qs rs) (Set.Iio (size (Qudit.dims rs))) (Set.Iio (size (Qudit.dims qs))) := by
  have small : ∀ {ps os : List Qudit}, os.Nodup → os.Perm ps → (∀ q ∈ os, 0 < q.dim) →
      Set.MapsTo (reread ps os) (Set.Iio (size (Qudit.dims os))) (Set.Iio (size (Qudit.dims ps))) := by
    intro ps os distinct same some i _
    exact index_lt ps _ fun q listed => within_spread os _ i distinct some q (same.mem_iff.mpr listed)
  have distinct := perm.nodup_iff.mp once
  have some : ∀ q ∈ qs, 0 < q.dim := fun q listed => positive q (perm.mem_iff.mpr listed)
  exact Set.InvOn.bijOn ⟨fun i bound => reread_reread once perm positive i bound,
    fun i bound => reread_reread distinct perm.symm some i bound⟩ (small once perm positive) (small distinct perm.symm some)

end Reread

/-! Sums. -/

variable [AddCommMonoid M]

def sumOver : List Qudit → (Assignment → M) → Assignment → M
  | [], F, σ => F σ
  | q :: qs, F, σ => ∑ v ∈ Finset.range q.dim, sumOver qs F (Function.update σ q v)

theorem sumOver_congr (qs : List Qudit) (F G : Assignment → M) (σ : Assignment) (once : qs.Nodup)
    (same : ∀ τ, Within qs τ → (∀ q, q ∉ qs → τ q = σ q) → F τ = G τ) : sumOver qs F σ = sumOver qs G σ := by
  induction qs generalizing σ with
  | nil => exact same σ (fun q member => (List.not_mem_nil member).elim) fun q _ => rfl
  | cons q qs ih =>
      obtain ⟨absent, once⟩ := List.nodup_cons.mp once
      refine Finset.sum_congr rfl fun v bound => ih _ once fun τ within others => same τ ?_ ?_
      · intro p listed
        rcases List.mem_cons.mp listed with rfl | later
        · rw [others p absent, Function.update_self]
          exact Finset.mem_range.mp bound
        · exact within p later
      · intro p unlisted
        rw [List.mem_cons, not_or] at unlisted
        rw [others p unlisted.2, Function.update_of_ne unlisted.1]

theorem sumOver_append (qs rs : List Qudit) (F : Assignment → M) (σ : Assignment) :
    sumOver (qs ++ rs) F σ = sumOver qs (sumOver rs F) σ := by
  induction qs generalizing σ with
  | nil => rfl
  | cons q qs ih => exact Finset.sum_congr rfl fun v _ => ih _

theorem sumOver_perm (qs rs : List Qudit) (F : Assignment → M) (σ : Assignment) (once : qs.Nodup) (perm : qs.Perm rs) :
    sumOver qs F σ = sumOver rs F σ := by
  induction perm generalizing σ with
  | nil => rfl
  | cons q _ ih => exact Finset.sum_congr rfl fun v _ => ih _ (List.nodup_cons.mp once).2
  | swap p q qs =>
      have apart : q ≠ p := fun same => (List.nodup_cons.mp once).1 (same ▸ List.mem_cons_self)
      simp only [sumOver]
      rw [Finset.sum_comm]
      refine Finset.sum_congr rfl fun v _ => Finset.sum_congr rfl fun w _ => ?_
      rw [Function.update_comm apart]
  | trans first _ ih₁ ih₂ => rw [ih₁ σ once, ih₂ σ (first.nodup_iff.mp once)]

theorem flat_lt {d n x y : ℕ} (first : x < d) (second : y < n) : x * n + y < d * n := by
  calc x * n + y < (x + 1) * n := by rw [Nat.add_mul, Nat.one_mul]; omega
    _ ≤ d * n := Nat.mul_le_mul_right n first

theorem flat_inj {n a b x y : ℕ} (first : b < n) (second : y < n) (same : a * n + b = x * n + y) : a = x ∧ b = y := by
  have remainder := congrArg (· % n) same
  simp only [Nat.mul_add_mod_self_right, Nat.mod_eq_of_lt first, Nat.mod_eq_of_lt second] at remainder
  subst remainder
  exact ⟨Nat.eq_of_mul_eq_mul_right (Nat.zero_lt_of_lt first) (Nat.add_right_cancel same), rfl⟩

theorem sum_rows (d n : ℕ) (f : ℕ → M) : ∑ i ∈ Finset.range (d * n), f i = ∑ x ∈ Finset.range d, ∑ j ∈ Finset.range n, f (x * n + j) := by
  induction d with
  | zero => rw [Nat.zero_mul, Finset.sum_range_zero, Finset.sum_range_zero]
  | succ d ih => rw [Nat.succ_mul, Finset.sum_range_add, ih, Finset.sum_range_succ]

theorem sumOver_index (qs : List Qudit) (f : ℕ → M) (σ : Assignment) (once : qs.Nodup) :
    sumOver qs (fun τ => f (index qs τ)) σ = ∑ i ∈ Finset.range (size (Qudit.dims qs)), f i := by
  induction qs generalizing f σ with
  | nil => exact (Finset.sum_range_one f).symm
  | cons q qs ih =>
      obtain ⟨absent, once⟩ := List.nodup_cons.mp once
      rw [Qudit.dims_cons, size_cons, sum_rows]
      refine Finset.sum_congr rfl fun v _ => ?_
      rw [← ih (fun i => f (v * size (Qudit.dims qs) + i)) (Function.update σ q v) once]
      refine sumOver_congr qs _ _ _ once fun τ _ others => ?_
      rw [index_cons, others q absent, Function.update_self]

theorem sumOver_spread (qs : List Qudit) (F : Assignment → M) (σ : Assignment) (once : qs.Nodup) :
    sumOver qs F σ = ∑ i ∈ Finset.range (size (Qudit.dims qs)), F (spread qs σ i) := by
  rw [← sumOver_index qs (fun i => F (spread qs σ i)) σ once]
  refine sumOver_congr qs _ _ σ once fun τ within others => ?_
  rw [spread_index qs σ τ once within others]

theorem sumOver_depends (qs rs : List Qudit) (F : Assignment → M) (once : rs.Nodup) (depends : DependsOn (qs ++ rs) F) :
    DependsOn qs (sumOver rs F) := by
  intro σ τ same
  rw [sumOver_spread rs F σ once, sumOver_spread rs F τ once]
  refine Finset.sum_congr rfl fun i _ => depends _ _ fun q listed => ?_
  by_cases summed : q ∈ rs
  · have values := map_spread rs σ i once
    rw [← map_spread rs τ i once] at values
    exact List.map_inj_left.mp values q summed
  · rw [spread_other rs σ i q summed, spread_other rs τ i q summed]
    exact same q ((List.mem_append.mp listed).resolve_right summed)

end Assignment

section Factors

open Assignment

variable {M : Type} [CommSemiring M]

theorem sumOver_mul_left (qs : List Qudit) (c : M) (F : Assignment → M) (σ : Assignment) :
    sumOver qs (fun τ => c * F τ) σ = c * sumOver qs F σ := by
  induction qs generalizing σ with
  | nil => rfl
  | cons q qs ih =>
      rw [sumOver, sumOver, Finset.mul_sum]
      exact Finset.sum_congr rfl fun v _ => ih _

end Factors

end QuantumRegister
