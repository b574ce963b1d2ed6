import QuantumRegister.Proofs.Dense.Wave
import QuantumRegister.Proofs.Unitary

/-!
Weights of wave functions: of products, of images under unitary matrices, and of the parts that agree
with an outcome.
-/

set_option autoImplicit false

namespace QuantumRegister.Dense

open QuantumRegister.MixedRadix
open QuantumRegister.Assignment

def others (L qs : List Qudit) : List Qudit := L.filter fun q => decide (q ∉ qs)

theorem mem_others (L qs : List Qudit) (q : Qudit) : q ∈ others L qs ↔ q ∈ L ∧ q ∉ qs := by
  rw [others, List.mem_filter, decide_eq_true_eq]

theorem others_nodup (L qs : List Qudit) (once : L.Nodup) : (others L qs).Nodup := once.filter _

theorem parted (L qs : List Qudit) (once : L.Nodup) (distinct : qs.Nodup) (inside : qs ⊆ L) : L.Perm (others L qs ++ qs) := by
  have apart : (others L qs ++ qs).Nodup := by
    refine List.nodup_append.mpr ⟨others_nodup L qs once, distinct, fun p rest q listed same => ?_⟩
    exact ((mem_others L qs p).mp rest).2 (same ▸ listed)
  refine (List.perm_ext_iff_of_nodup once apart).mpr fun q => ?_
  rw [List.mem_append, mem_others]
  by_cases listed : q ∈ qs
  · simp [listed, inside listed]
  · simp [listed]

theorem weight_parted (L qs : List Qudit) (F : Assignment → ℂ) (once : L.Nodup) (distinct : qs.Nodup) (inside : qs ⊆ L) :
    weight L F = sumOver (others L qs) (sumOver qs fun σ => Complex.normSq (F σ)) fun _ => 0 := by
  rw [weight, sumOver_perm L _ _ _ once (parted L qs once distinct inside), sumOver_append]

theorem weight_product (Q L : List Qudit) (g ρ : Assignment → ℂ) (once : Q.Nodup) (distinct : L.Nodup) (inside : L ⊆ Q)
    (near : DependsOn L g) (far : DependsOn (others Q L) ρ) :
    weight Q (fun σ => g σ * ρ σ) = weight L g * weight (others Q L) ρ := by
  have local_depends : DependsOn ([] ++ L) fun σ => Complex.normSq (g σ) := fun σ τ same =>
    congrArg Complex.normSq (near σ τ same)
  have constant := sumOver_depends [] L (fun σ => Complex.normSq (g σ)) distinct local_depends
  rw [weight_parted Q L _ once distinct inside, weight, weight, ← sumOver_mul_left]
  refine sumOver_congr _ _ _ _ (others_nodup Q L once) fun σ _ _ => ?_
  rw [constant (fun _ => 0) σ fun q member => (List.not_mem_nil member).elim, mul_comm, ← sumOver_mul_left]
  refine sumOver_congr _ _ _ _ distinct fun τ _ same => ?_
  have agree : ρ τ = ρ σ := far τ σ fun q member => same q ((mem_others Q L q).mp member).2
  rw [Complex.normSq_mul, agree, mul_comm]

theorem sumOver_sum {ι : Type} (qs : List Qudit) (terms : Finset ι) (F : ι → Assignment → ℝ) (σ : Assignment) (once : qs.Nodup) :
    ∑ j ∈ terms, sumOver qs (F j) σ = sumOver qs (fun τ => ∑ j ∈ terms, F j τ) σ := by
  simp only [sumOver_spread qs _ σ once]
  exact Finset.sum_comm

theorem weight_outcomes (L qs : List Qudit) (F : Assignment → ℂ) (once : L.Nodup) (inside : qs ⊆ L) :
    ∑ j ∈ Finset.range (size (Qudit.dims qs)), weight L (fun σ => if index qs σ = j then F σ else 0) = weight L F := by
  unfold weight
  rw [sumOver_sum L _ _ _ once]
  refine sumOver_congr L _ _ _ once fun σ within _ => ?_
  have bound := index_lt qs σ fun q listed => within q (inside listed)
  dsimp only
  rw [Finset.sum_eq_single (index qs σ)]
  · rw [if_pos rfl]
  · intro j _ other
    rw [if_neg (Ne.symm other), map_zero]
  · intro outside
    exact (outside (Finset.mem_range.mpr bound)).elim

theorem weight_scale (L : List Qudit) (F : Assignment → ℂ) (c : ℝ) : weight L (fun σ => F σ * (c : ℂ)) = c * c * weight L F := by
  rw [weight, weight, ← sumOver_mul_left]
  refine congrArg (fun G => sumOver L G fun _ => 0) (funext fun σ => ?_)
  rw [Complex.normSq_mul, Complex.normSq_ofReal, mul_comm]

theorem weight_nonneg (L : List Qudit) (F : Assignment → ℂ) (once : L.Nodup) : 0 ≤ weight L F := by
  rw [weight, sumOver_spread L _ _ once]
  exact Finset.sum_nonneg fun i _ => Complex.normSq_nonneg _

theorem weight_support (L : List Qudit) (F : Assignment → ℂ) (once : L.Nodup) (some : weight L F ≠ 0) :
    ∃ σ, Within L σ ∧ F σ ≠ 0 := by
  by_contra none
  refine some ((weight_congr L F (fun _ => 0) once fun σ within => ?_).trans ?_)
  · by_contra nonzero
    exact none ⟨σ, within, nonzero⟩
  · rw [weight, sumOver_spread L _ _ once]
    exact Finset.sum_eq_zero fun i _ => map_zero _

/-! The action of a matrix on some qudits. -/

noncomputable def acted (qs : List Qudit) (m : Operator ℝ) (F : Assignment → ℂ) (σ : Assignment) : ℂ :=
  sumOver qs (fun τ => (m.entry (index qs σ) (index qs τ)).toComplex * F τ) σ

theorem acted_congr (L qs : List Qudit) (m : Operator ℝ) (F G : Assignment → ℂ) (once : qs.Nodup)
    (same : ∀ σ, Within L σ → F σ = G σ) (σ : Assignment) (within : Within L σ) : acted qs m F σ = acted qs m G σ := by
  refine sumOver_congr qs _ _ σ once fun τ inside kept => ?_
  rw [same τ fun q listed => ?_]
  by_cases target : q ∈ qs
  · exact inside q target
  · rw [kept q target]
    exact within q listed

theorem acted_mul (qs : List Qudit) (m : Operator ℝ) (F ρ : Assignment → ℂ) (once : qs.Nodup) (σ : Assignment)
    (still : ∀ τ, (∀ q, q ∉ qs → τ q = σ q) → ρ τ = ρ σ) : acted qs m (fun τ => F τ * ρ τ) σ = acted qs m F σ * ρ σ := by
  rw [acted, acted, mul_comm (sumOver _ _ _), ← sumOver_mul_left]
  refine sumOver_congr qs _ _ σ once fun τ _ kept => ?_
  rw [still τ kept]
  ring

theorem sumOver_base {M : Type} [AddCommMonoid M] (qs : List Qudit) (F : Assignment → M) (σ τ : Assignment) (once : qs.Nodup)
    (same : ∀ q, q ∉ qs → τ q = σ q) : sumOver qs F τ = sumOver qs F σ := by
  rw [sumOver_spread qs F τ once, sumOver_spread qs F σ once]
  refine Finset.sum_congr rfl fun i _ => congrArg F (funext fun q => ?_)
  by_cases listed : q ∈ qs
  · have values := map_spread qs τ i once
    rw [← map_spread qs σ i once] at values
    exact List.map_inj_left.mp values q listed
  · rw [spread_other qs τ i q listed, spread_other qs σ i q listed, same q listed]

theorem acted_spread (qs : List Qudit) (m : Operator ℝ) (F : Assignment → ℂ) (σ : Assignment) (once : qs.Nodup) (i : ℕ)
    (bound : i < size (Qudit.dims qs)) : acted qs m F (spread qs σ i)
      = ∑ j ∈ Finset.range (size (Qudit.dims qs)), (m.entry i j).toComplex * F (spread qs σ j) := by
  rw [acted, sumOver_base qs _ σ _ once fun q other => spread_other qs σ i q other, index_spread qs σ i once bound,
    sumOver_spread qs _ σ once]
  exact Finset.sum_congr rfl fun j inside => by rw [index_spread qs σ j once (Finset.mem_range.mp inside)]

-- Whatever one matrix of a complete family takes away is found with the others.
theorem weight_complete (L qs : List Qudit) (ops : List (Operator ℝ)) (F : Assignment → ℂ) (once : L.Nodup) (distinct : qs.Nodup)
    (inside : qs ⊆ L) (complete : Operator.Complete (size (Qudit.dims qs)) ops) :
    (ops.map fun m => weight L (acted qs m F)).sum = weight L F := by
  have parts (m : Operator ℝ) := weight_parted L qs (acted qs m F) once distinct inside
  simp only [parts]
  rw [weight_parted L qs F once distinct inside, ← Fin.sum_univ_fun_getElem, sumOver_sum _ _ _ _ (others_nodup L qs once)]
  refine sumOver_congr _ _ _ _ (others_nodup L qs once) fun σ _ _ => ?_
  rw [sumOver_spread qs _ σ distinct, ← complete.isometry fun j => F (spread qs σ j), ← Fin.sum_univ_fun_getElem]
  refine Finset.sum_congr rfl fun n _ => ?_
  rw [sumOver_spread qs _ σ distinct]
  exact Finset.sum_congr rfl fun i member => by rw [acted_spread qs _ F σ distinct i (Finset.mem_range.mp member)]

theorem weight_acted (L qs : List Qudit) (m : Operator ℝ) (F : Assignment → ℂ) (once : L.Nodup) (distinct : qs.Nodup)
    (inside : qs ⊆ L) (unitary : m.Unitary) (rows : m.rows = size (Qudit.dims qs)) :
    weight L (acted qs m F) = weight L F := by
  have single := weight_complete L qs [m] F once distinct inside (rows ▸ unitary.complete)
  rwa [List.map_singleton, List.sum_singleton] at single

/-! Norms after products and projections. -/

section Norms

variable {L qs : List Qudit} {axes : List ℕ} (picks : Picks L qs axes) (a : Amplitudes ℝ)
  (full : a.size = size (Qudit.dims L))

include picks full

omit full in
theorem contract_weight (m : Operator ℝ) (dst : Amplitudes ℝ) (positive : ∀ q ∈ L, 0 < q.dim) (fits : dst.size = size (Qudit.dims L)) :
    Amplitudes.normSq ((Layout.of (Qudit.dims L) axes).contract m a dst) = weight L (acted qs m (wave L a)) := by
  have size := Layout.contract_size (Layout.of (Qudit.dims L) axes) m a dst
  rw [normSq_weight L _ picks.distinct (size.trans fits)]
  exact weight_congr L _ _ picks.distinct fun σ within => wave_contract picks positive m a dst fits σ within

theorem contract_norm (m : Operator ℝ) (dst : Amplitudes ℝ) (positive : ∀ q ∈ L, 0 < q.dim) (fits : dst.size = size (Qudit.dims L))
    (unitary : m.Unitary) (rows : m.rows = size (Qudit.dims qs)) :
    Amplitudes.normSq ((Layout.of (Qudit.dims L) axes).contract m a dst) = a.normSq := by
  rw [contract_weight picks a m dst positive fits, weight_acted L qs m (wave L a) picks.distinct picks.nodup picks.subset unitary rows,
    normSq_weight L a picks.distinct full]

theorem marginal_getD (k : ℕ) : (Amplitudes.marginal (Qudit.dims L) axes a).getD k 0
    = if k < size (Qudit.dims qs) then weight L (fun σ => if index qs σ = k then wave L a σ else 0) else 0 := by
  rw [marginal_eq picks a full]
  by_cases inside : k < size (Qudit.dims qs)
  · simp [inside]
  · simp [inside]

theorem marginal_some (norm : a.normSq = 1) : ∃ p ∈ Amplitudes.marginal (Qudit.dims L) axes a, 0 < p := by
  have total := weight_outcomes L qs (wave L a) picks.distinct picks.subset
  rw [← normSq_weight L a picks.distinct full, norm] at total
  by_contra none
  have empty : ∀ j ∈ Finset.range (size (Qudit.dims qs)), weight L (fun σ => if index qs σ = j then wave L a σ else 0) ≤ 0 := by
    intro j member
    refine not_lt.mp fun positive => none ⟨_, ?_, positive⟩
    rw [marginal_eq picks a full]
    exact List.mem_map.mpr ⟨j, List.mem_range.mpr (Finset.mem_range.mp member), rfl⟩
  have sum := Finset.sum_nonpos empty
  rw [total] at sum
  exact absurd sum (not_le.mpr one_pos)

theorem project_norm (k : ℕ) (positive : 0 < (Amplitudes.marginal (Qudit.dims L) axes a).getD k 0) :
    Amplitudes.normSq (Amplitudes.project (Qudit.dims L) axes (digits (Qudit.dims qs) k)
      ((Amplitudes.marginal (Qudit.dims L) axes a).getD k 0) a) = 1 := by
  have chance := marginal_getD picks a full k
  by_cases inside : k < size (Qudit.dims qs)
  · rw [if_pos inside] at chance
    have agrees (σ : Assignment) (within : Within L σ) : qs.map σ = digits (Qudit.dims qs) k ↔ index qs σ = k :=
      map_digits qs σ (fun q listed => within q (picks.subset listed)) k inside
    generalize (Amplitudes.marginal (Qudit.dims L) axes a).getD k 0 = p at positive chance ⊢
    have scaled : ∀ σ, Within L σ → wave L (Amplitudes.project (Qudit.dims L) axes (digits (Qudit.dims qs) k) p a) σ
        = (if index qs σ = k then wave L a σ else 0) * ((1 / √p : ℝ) : ℂ) := by
      intro σ within
      rw [wave_project picks _ p a full (by rw [digits_length, Qudit.dims_length]) σ within]
      by_cases here : index qs σ = k
      · rw [if_pos ((agrees σ within).mpr here), if_pos here]
      · rw [if_neg fun same => here ((agrees σ within).mp same), if_neg here, zero_mul]
    have size : (Amplitudes.project (Qudit.dims L) axes (digits (Qudit.dims qs) k) p a).size = MixedRadix.size (Qudit.dims L) :=
      Array.size_ofFn.trans full
    rw [normSq_weight L _ picks.distinct size, weight_congr L _ _ picks.distinct scaled, weight_scale,
      ← chance, div_mul_div_comm, one_mul, Real.mul_self_sqrt positive.le, one_div_mul_cancel positive.ne']
  · rw [if_neg inside] at chance
    exact absurd chance positive.ne'

end Norms

theorem permute_full {L N : List Qudit} {perm : List ℕ} (picks : Picks L N perm) (a : Amplitudes ℝ) :
    (a.permute (Qudit.dims L) perm).size = size (Qudit.dims N) := by
  rw [permute_size, picks.radices_eq]

theorem permute_norm {L N : List Qudit} {perm : List ℕ} (picks : Picks L N perm) (axes : perm.Perm (List.range L.length))
    (qudits : N.Perm L) (a : Amplitudes ℝ) (full : a.size = size (Qudit.dims L)) :
    Amplitudes.normSq (a.permute (Qudit.dims L) perm) = a.normSq := by
  rw [normSq_weight N _ picks.nodup (permute_full picks a), normSq_weight L a picks.distinct full,
    weight_congr N _ _ picks.nodup fun σ within => wave_permute picks axes a σ within]
  exact sumOver_perm _ _ _ _ picks.nodup qudits

theorem jointDim_eq (Q qs : List Qudit) (once : Q.Nodup) (distinct : qs.Nodup) (inside : qs ⊆ Q) (positive : ∀ q ∈ Q, 0 < q.dim)
    (small : size (Qudit.dims Q) < wordSize) : Qudit.jointDim qs = size (Qudit.dims qs) := by
  have split := size_perm _ _ ((parted Q qs once distinct inside).map Qudit.dim)
  rw [List.map_append, size_append] at split
  have rest : 0 < size ((others Q qs).map Qudit.dim) := by
    refine size_pos _ (Qudit.dims_positive _ fun q member => ?_)
    exact positive q ((mem_others Q qs q).mp member).1
  have bound : size (Qudit.dims qs) ≤ size (Qudit.dims Q) := by
    calc size (Qudit.dims qs) ≤ size ((others Q qs).map Qudit.dim) * size (Qudit.dims qs) := Nat.le_mul_of_pos_left _ rest
      _ = size (Qudit.dims Q) := split.symm
  exact Nat.mod_eq_of_lt (bound.trans_lt small)

theorem square_rows (Q qs : List Qudit) (once : Q.Nodup) (distinct : qs.Nodup) (inside : qs ⊆ Q) (positive : ∀ q ∈ Q, 0 < q.dim)
    (small : size (Qudit.dims Q) < wordSize) (m : Operator ℝ) (fits : Operator.checkSquare qs m = .ok ()) :
    m.rows = size (Qudit.dims qs) :=
  ((Operator.checkSquare_ok qs m).mp fits).1.trans (jointDim_eq Q qs once distinct inside positive small)

end QuantumRegister.Dense
