import QuantumRegister.Proofs.Operator
import QuantumRegister.Proofs.Assignment
import QuantumRegister.Proofs.Dense.Digits

/-!
The wave function of an amplitude array: a complex number for each assignment of values to the
qudits of its axes. Each operation on arrays is read as one on wave functions.
-/

set_option autoImplicit false

namespace QuantumRegister.Dense

open QuantumRegister.MixedRadix
open QuantumRegister.Assignment

noncomputable def wave (L : List Qudit) (a : Amplitudes ℝ) (σ : Assignment) : ℂ := (a.amp (index L σ)).toComplex

noncomputable def weight (L : List Qudit) (F : Assignment → ℂ) : ℝ := sumOver L (fun σ => Complex.normSq (F σ)) fun _ => 0

theorem wave_depends (L : List Qudit) (a : Amplitudes ℝ) : DependsOn L (wave L a) := by
  intro σ τ same
  rw [wave, wave, index_depends L σ τ same]

/-! Axes of some qudits. -/

-- The axes in `axes` belong to the qudits `qs` of a state over `L`.
structure Picks (L qs : List Qudit) (axes : List ℕ) : Prop where
  distinct : L.Nodup
  once : axes.Nodup
  inside : ∀ k ∈ axes, k < L.length
  named : axes.map (L.getD · default) = qs

def along (L : List Qudit) (σ : Assignment) (k : ℕ) : ℕ := σ (L.getD k default)

theorem map_along (L : List Qudit) (σ : Assignment) : (List.range L.length).map (along L σ) = L.map σ := by
  refine List.ext_getElem (by simp) fun k _ inside => ?_
  have bound : k < L.length := by rwa [List.length_map] at inside
  simp [along, bound]

theorem place_along (L : List Qudit) (σ : Assignment) : place (Qudit.dims L) (along L σ) = index L σ := by
  rw [place, Qudit.dims_length, map_along]
  rfl

theorem dims_getD (L : List Qudit) (k : ℕ) (inside : k < L.length) : (Qudit.dims L).getD k 1 = (L.getD k default).dim := by
  simp [Qudit.dims, inside]

theorem below_along (L : List Qudit) (σ : Assignment) (within : Within L σ) : Below (Qudit.dims L) (along L σ) := by
  intro k inside
  rw [Qudit.dims_length] at inside
  rw [dims_getD L k inside]
  have place : L.getD k default = L[k] := by simp [inside]
  exact within _ (place ▸ List.getElem_mem inside)

namespace Picks

variable {L qs : List Qudit} {axes : List ℕ} (picks : Picks L qs axes)

include picks

theorem bounds : ∀ k ∈ axes, k < (Qudit.dims L).length := by
  intro k member
  rw [Qudit.dims_length]
  exact picks.inside k member

theorem map_axes (σ : Assignment) : axes.map (along L σ) = qs.map σ := by
  rw [← picks.named, List.map_map]
  rfl

theorem radices_eq : Layout.radices (Qudit.dims L) axes = Qudit.dims qs := by
  have listed : Qudit.dims (axes.map (L.getD · default)) = axes.map fun k => (L.getD k default).dim := List.map_map
  rw [Layout.radices, ← picks.named, listed]
  exact List.map_congr_left fun k member => dims_getD L k (picks.inside k member)

theorem nodup : qs.Nodup := by
  rw [← picks.named]
  refine List.Nodup.map_on (fun j first k second same => ?_) picks.once
  have inside := picks.inside
  rw [List.getD_eq_getElem _ _ (inside j first), List.getD_eq_getElem _ _ (inside k second)] at same
  exact (picks.distinct.getElem_inj_iff).mp same

theorem subset : qs ⊆ L := by
  intro q listed
  rw [← picks.named] at listed
  obtain ⟨k, member, rfl⟩ := List.mem_map.mp listed
  rw [List.getD_eq_getElem _ _ (picks.inside k member)]
  exact List.getElem_mem _

theorem other (k : ℕ) (member : k ∈ untouched (Qudit.dims L) axes) : L.getD k default ∉ qs := by
  obtain ⟨bound, free⟩ := (mem_untouched _ _ _).mp member
  rw [Qudit.dims_length] at bound
  intro listed
  rw [← picks.named] at listed
  obtain ⟨j, target, same⟩ := List.mem_map.mp listed
  rw [List.getD_eq_getElem _ _ (picks.inside j target), List.getD_eq_getElem _ _ bound] at same
  exact free ((picks.distinct.getElem_inj_iff.mp same) ▸ target)

theorem digitsOn_index (σ : Assignment) (within : Within L σ) : digitsOn (Qudit.dims L) axes (index L σ) = qs.map σ := by
  rw [digitsOn_eq, ← picks.map_axes, ← place_along]
  exact List.map_congr_left fun k member => digitAt_place _ _ (below_along L σ within) k (picks.bounds k member)

end Picks

/-! Products with matrices. -/

theorem toComplex_fold {α : Type} (xs : List α) (f : α → Cplx ℝ) (z : Cplx ℝ) :
    (xs.foldl (fun acc x => acc + f x) z).toComplex = z.toComplex + (xs.map fun x => (f x).toComplex).sum := by
  induction xs generalizing z with
  | nil => exact (add_zero _).symm
  | cons x xs ih => rw [List.foldl_cons, ih, Cplx.toComplex_add, List.map_cons, List.sum_cons, add_assoc]

theorem index_spread_split {L qs : List Qudit} {axes : List ℕ} (picks : Picks L qs axes) (σ : Assignment) (j : ℕ) :
    index L (spread qs σ j) = strided (Qudit.dims L) (untouched (Qudit.dims L) axes) (along L σ)
      + offset (strides (Qudit.dims L)) axes (digits (Qudit.dims qs) j) := by
  rw [← place_along, place_split _ axes _ picks.once picks.bounds, ← offset_map _ axes, picks.map_axes,
    map_spread qs σ j picks.nodup]
  congr 1
  exact strided_congr _ _ _ _ fun k member => spread_other qs σ j _ (picks.other k member)

theorem wave_contract {L qs : List Qudit} {axes : List ℕ} (picks : Picks L qs axes) (positive : ∀ q ∈ L, 0 < q.dim)
    (m : Grid (Cplx ℝ)) (src dst : Amplitudes ℝ) (full : dst.size = size (Qudit.dims L)) (σ : Assignment)
    (within : Within L σ) :
    wave L ((Layout.of (Qudit.dims L) axes).contract m src dst) σ
      = sumOver qs (fun τ => (Operator.entry m (index qs σ) (index qs τ)).toComplex * wave L src τ) σ := by
  have at_place := Layout.contract_at (Qudit.dims L) axes m src dst (along L σ) 0 picks.once (Qudit.dims_positive L positive)
    picks.bounds (below_along L σ within) full
  rw [place_along] at at_place
  rw [wave, Amplitudes.amp, at_place, Layout.result, Layout.product, toComplex_fold, picks.radices_eq, picks.map_axes,
    Cplx.toComplex_zero, zero_add, Layout.offsets_zipIdx, List.map_map, picks.radices_eq, sumOver_spread _ _ _ picks.nodup]
  refine congrArg List.sum (List.map_congr_left fun j member => ?_)
  have inside : j < size (Qudit.dims qs) := List.mem_range.mp member
  simp only [Function.comp_apply, Cplx.toComplex_mul]
  rw [index_spread qs σ j picks.nodup inside, wave, Amplitudes.amp, index_spread_split picks]
  rfl

/-! Weights. -/

theorem sum_eq (xs : List ℝ) : Scalar.sum xs = xs.sum := List.sum_eq_foldl.symm

theorem normSq_range (a : Amplitudes ℝ) : a.normSq = ∑ i ∈ Finset.range a.size, (a.amp i).normSq := by
  have entries : a.toList = (List.range a.size).map a.amp := by
    refine List.ext_getElem (by simp) fun i inside _ => ?_
    have bound : i < a.size := by simpa using inside
    simp [Amplitudes.amp, bound]
  rw [Amplitudes.normSq, Amplitudes.probabilities, sum_eq, entries, List.map_map]
  rfl

theorem normSq_weight (L : List Qudit) (a : Amplitudes ℝ) (once : L.Nodup) (full : a.size = size (Qudit.dims L)) :
    a.normSq = weight L (wave L a) := by
  rw [normSq_range, full, weight]
  exact (sumOver_index L (fun i => (a.amp i).normSq) _ once).symm

theorem weight_congr (L : List Qudit) (F G : Assignment → ℂ) (once : L.Nodup) (same : ∀ σ, Within L σ → F σ = G σ) :
    weight L F = weight L G :=
  sumOver_congr L _ _ _ once fun τ within _ => by rw [same τ within]

/-! Projections and chances. -/

section Chances

variable {L qs : List Qudit} {axes : List ℕ} (picks : Picks L qs axes)

include picks

theorem wave_project (values : List ℕ) (chance : ℝ) (a : Amplitudes ℝ) (full : a.size = size (Qudit.dims L))
    (length : values.length = qs.length) (σ : Assignment) (within : Within L σ) :
    wave L (Amplitudes.project (Qudit.dims L) axes values chance a) σ
      = if qs.map σ = values then wave L a σ * ((1 / √chance : ℝ) : ℂ) else 0 := by
  have inside : index L σ < a.size := by
    rw [full]
    exact index_lt L σ within
  have count : values.length = axes.length := by rw [length, ← picks.named, List.length_map]
  rw [wave, Amplitudes.amp, project_digits _ _ _ count]
  simp only [Array.getD_eq_getD_getElem?, Array.getElem?_ofFn, inside, dite_true, Option.getD_some,
    picks.digitsOn_index σ within]
  by_cases agrees : qs.map σ = values
  · rw [if_pos agrees, if_pos agrees, Cplx.toComplex_scale]
    rfl
  · rw [if_neg agrees, if_neg agrees]
    rfl

theorem jointValue_index (σ : Assignment) (within : Within L σ) :
    Amplitudes.jointValue (Qudit.dims L) (strides (Qudit.dims L)) axes (index L σ) = index qs σ := by
  rw [jointValue_digits, picks.digitsOn_index σ within, picks.radices_eq]
  rfl

end Chances

theorem sum_gathered (key : ℕ → ℕ) (w : ℕ → ℝ) (j n : ℕ) :
    ((List.range n).filter fun i => key i = j).foldl (fun acc i => acc + w i) 0
      = ∑ i ∈ Finset.range n, if key i = j then w i else 0 := by
  induction n with
  | zero => rfl
  | succ n ih =>
      rw [List.range_succ, List.filter_append, List.foldl_append, ih, Finset.sum_range_succ]
      by_cases here : key n = j
      · simp [here]
      · simp [here]

theorem marginal_eq {L qs : List Qudit} {axes : List ℕ} (picks : Picks L qs axes) (a : Amplitudes ℝ)
    (full : a.size = size (Qudit.dims L)) :
    Amplitudes.marginal (Qudit.dims L) axes a
      = (List.range (size (Qudit.dims qs))).map fun j => weight L fun σ => if index qs σ = j then wave L a σ else 0 := by
  have radices : (axes.map fun k => (Qudit.dims L).getD k 1) = Qudit.dims qs := picks.radices_eq
  have sums := gathered_list (Amplitudes.jointValue (Qudit.dims L) (strides (Qudit.dims L)) axes) (fun i => (a.amp i).normSq)
    a.size (size (Qudit.dims qs))
  rw [Amplitudes.marginal, radices]
  refine sums.trans (List.map_congr_left fun j _ => ?_)
  rw [sum_gathered, full, ← sumOver_index L _ (fun _ => 0) picks.distinct]
  refine sumOver_congr L _ _ _ picks.distinct fun σ within _ => ?_
  dsimp only
  rw [jointValue_index picks σ within]
  by_cases here : index qs σ = j
  · rw [if_pos here, if_pos here]
    rfl
  · rw [if_neg here, if_neg here, map_zero]

/-! Joint states and reordered axes. -/

theorem products_getD {K : Type} [Mul K] (xs ys : List K) (x y : ℕ) (d : K) (first : x < xs.length) (second : y < ys.length) :
    (xs.flatMap fun a => ys.map fun b => a * b).getD (x * ys.length + y) d = xs.getD x d * ys.getD y d := by
  induction xs generalizing x with
  | nil => cases first
  | cons a xs ih =>
      rw [List.flatMap_cons]
      cases x with
      | zero =>
          rw [Nat.zero_mul, Nat.zero_add, List.getD_append _ _ _ _ (by rwa [List.length_map])]
          simp [second]
      | succ x =>
          have later : (x + 1) * ys.length + y = ys.length + (x * ys.length + y) := by ring
          rw [later, List.getD_append_right _ _ _ _ (by rw [List.length_map]; omega), List.length_map, Nat.add_sub_cancel_left,
            ih x (Nat.lt_of_succ_lt_succ first), List.getD_cons_succ]

theorem kronecker_size {R : Type} [Scalar R] (a b : Amplitudes R) : (a.kronecker b).size = a.size * b.size := by
  simp [Amplitudes.kronecker, List.length_flatMap]

theorem kronecker_amp (a b : Amplitudes ℝ) (x y : ℕ) (first : x < a.size) (second : y < b.size) :
    (a.kronecker b).amp (x * b.size + y) = a.amp x * b.amp y := by
  have entry := products_getD a.toList b.toList x y 0 (by simpa using first) (by simpa using second)
  have flat (c : Amplitudes ℝ) (i : ℕ) : c.amp i = c.toList.getD i 0 := by simp [Amplitudes.amp]
  rw [flat, flat a, flat b, ← entry, Array.length_toList, Amplitudes.kronecker]

theorem wave_kronecker (L M : List Qudit) (a b : Amplitudes ℝ) (first : a.size = size (Qudit.dims L))
    (second : b.size = size (Qudit.dims M)) (σ : Assignment) (within : Within (L ++ M) σ) :
    wave (L ++ M) (a.kronecker b) σ = wave L a σ * wave M b σ := by
  have left := index_lt L σ fun q listed => within q (List.mem_append_left M listed)
  have right := index_lt M σ fun q listed => within q (List.mem_append_right L listed)
  rw [wave, wave, wave, ← Cplx.toComplex_mul, index_append, ← second,
    kronecker_amp a b _ _ (left.trans_eq first.symm) (right.trans_eq second.symm)]

theorem permute_size (dims perm : List ℕ) (a : Amplitudes ℝ) : (a.permute dims perm).size = size (Layout.radices dims perm) :=
  Array.size_ofFn

theorem wave_permute {L N : List Qudit} {perm : List ℕ} (picks : Picks L N perm) (all : perm.Perm (List.range L.length))
    (a : Amplitudes ℝ) (σ : Assignment) (within : Within N σ) :
    wave N (Amplitudes.permute (Qudit.dims L) perm a) σ = wave L a σ := by
  have radices : (perm.map fun k => (Qudit.dims L).getD k 1) = Qudit.dims N := picks.radices_eq
  have inside := index_lt N σ within
  have position : offset (strides (Qudit.dims L)) perm (digits (Qudit.dims N) (index N σ)) = index L σ := by
    rw [digits_index N σ within, ← picks.map_axes, offset_map, ← place_along, place_eq_strided, Qudit.dims_length]
    exact strided_perm _ _ _ _ all
  rw [wave, wave, Amplitudes.permute, radices]
  simp [Amplitudes.amp, inside, position]

theorem wave_basis (L : List Qudit) (i : ℕ) (σ : Assignment) (within : Within L σ) :
    wave L (Amplitudes.basis (size (Qudit.dims L)) i) σ = if index L σ = i then 1 else 0 := by
  have inside := index_lt L σ within
  rw [wave, Amplitudes.basis]
  simp only [Amplitudes.amp, Array.getD_eq_getD_getElem?, Array.getElem?_ofFn, inside, dite_true, Option.getD_some]
  by_cases here : index L σ = i
  · rw [if_pos here, if_pos here, Cplx.toComplex_one]
  · rw [if_neg here, if_neg here, Cplx.toComplex_zero]

theorem wave_rescale (L : List Qudit) (a : Amplitudes ℝ) (x : ℝ) (σ : Assignment) :
    wave L (a.map fun z => z.scale x) σ = wave L a σ * x := by
  rw [wave, wave, ← Cplx.toComplex_scale]
  refine congrArg Cplx.toComplex ?_
  have empty : (0 : Cplx ℝ) = (0 : Cplx ℝ).scale x := Cplx.toComplex_injective (by simp)
  by_cases inside : index L σ < a.size
  · simp [Amplitudes.amp, inside]
  · simpa [Amplitudes.amp, inside] using empty

theorem wave_injective (L : List Qudit) (a b : Amplitudes ℝ) (once : L.Nodup) (positive : ∀ q ∈ L, 0 < q.dim)
    (first : a.size = size (Qudit.dims L)) (second : b.size = size (Qudit.dims L))
    (same : ∀ σ, Within L σ → wave L a σ = wave L b σ) : a = b := by
  refine Array.ext (first.trans second.symm) fun i left right => ?_
  have inside : i < size (Qudit.dims L) := by rwa [← first]
  obtain ⟨σ, within, place⟩ := exists_index L i once positive inside
  have here := same σ within
  rw [wave, wave, place] at here
  have equal := Cplx.toComplex_injective here
  simpa [Amplitudes.amp, left, right] using equal

end QuantumRegister.Dense
