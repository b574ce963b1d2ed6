import QuantumRegister.Dense.Amplitudes
import QuantumRegister.Proofs.Dense.Layout
import QuantumRegister.Proofs.Exact
import QuantumRegister.Proofs.Words

/-!
The digits of a flat position. Marginal chances and projections read them through the strides of the axes, and
find the digits that a position is split into.
-/

set_option autoImplicit false

namespace QuantumRegister.Dense

open QuantumRegister.MixedRadix
open QuantumRegister.Dense.Layout (radices)

def digitsOn (dims axes : List ℕ) (i : ℕ) : List ℕ := axes.map fun k => (digits dims i).getD k 0

theorem digitsOn_eq (dims axes : List ℕ) (i : ℕ) : digitsOn dims axes i = axes.map fun k => digitAt dims k i :=
  List.map_congr_left fun k _ => digits_getD dims i k

theorem digitsOn_below (dims : List ℕ) (positive : ∀ d ∈ dims, 0 < d) (axes : List ℕ) (i : ℕ) :
    List.Forall₂ (· < ·) (digitsOn dims axes i) (radices dims axes) := by
  rw [digitsOn_eq, radices, List.forall₂_map_left_iff, List.forall₂_map_right_iff]
  exact List.forall₂_same.mpr fun k _ => digitAt_lt dims positive k i

/-! Joint values. -/

theorem jointValue_digits (dims axes : List ℕ) (i : ℕ) :
    Amplitudes.jointValue dims (strides dims) axes i = value (radices dims axes) (digitsOn dims axes i) := by
  rw [digitsOn_eq, radices, value, List.zip_map', List.foldl_map]
  rfl

theorem jointValue_iff (dims : List ℕ) (positive : ∀ d ∈ dims, 0 < d) (axes : List ℕ) (i j : ℕ)
    (inside : j < size (radices dims axes)) :
    Amplitudes.jointValue dims (strides dims) axes i = j ↔ digitsOn dims axes i = digits (radices dims axes) j := by
  rw [jointValue_digits]
  constructor
  · rintro rfl
    exact (digits_value _ _ (digitsOn_below dims positive axes i)).symm
  · intro same
    rw [same, value_digits _ j inside]

/-! Sums by key. -/

section Gathered

variable {K : Type} [Add K] [Zero K]

theorem gathered (key : ℕ → ℕ) (w : ℕ → K) (is : List ℕ) (sums : Array K) (j : ℕ) (inside : j < sums.size) :
    (is.foldl (fun acc i => acc.setIfInBounds (key i) (acc.getD (key i) 0 + w i)) sums).getD j 0
      = (is.filter fun i => key i = j).foldl (fun acc i => acc + w i) (sums.getD j 0) := by
  induction is generalizing sums with
  | nil => rfl
  | cons i is ih =>
      rw [List.foldl_cons, ih _ (by rwa [Array.size_setIfInBounds])]
      by_cases here : key i = j
      · rw [List.filter_cons_of_pos (by simpa using here), List.foldl_cons]
        simp [Array.getD_eq_getD_getElem?, here, inside]
      · rw [List.filter_cons_of_neg (by simpa using here)]
        simp [Array.getD_eq_getD_getElem?, here]

theorem gathered_size (key : ℕ → ℕ) (w : ℕ → K) (is : List ℕ) (sums : Array K) :
    (is.foldl (fun acc i => acc.setIfInBounds (key i) (acc.getD (key i) 0 + w i)) sums).size = sums.size := by
  induction is generalizing sums with
  | nil => rfl
  | cons i is ih => rw [List.foldl_cons, ih, Array.size_setIfInBounds]

theorem gathered_list (key : ℕ → ℕ) (w : ℕ → K) (n d : ℕ) :
    ((List.range n).foldl (fun acc i => acc.setIfInBounds (key i) (acc.getD (key i) 0 + w i)) (Array.replicate d 0)).toList
      = (List.range d).map fun j => ((List.range n).filter fun i => key i = j).foldl (fun acc i => acc + w i) 0 := by
  have sums_size := gathered_size key w (List.range n) (Array.replicate d 0)
  rw [Array.size_replicate] at sums_size
  refine List.ext_getElem (by rw [Array.length_toList, sums_size]; simp) fun j inside _ => ?_
  have bound : j < d := by rwa [Array.length_toList, sums_size] at inside
  have entry := gathered key w (List.range n) (Array.replicate d 0) j (by simpa using bound)
  have none : (Array.replicate d (0 : K)).getD j 0 = 0 := by simp [bound]
  rw [none, Array.getD_eq_getD_getElem?, Array.getElem?_eq_getElem (by rwa [sums_size]), Option.getD_some] at entry
  rw [Array.getElem_toList, entry, List.getElem_map, List.getElem_range]

end Gathered

/-! Marginal chances and projections. -/

variable {R : Type} [Scalar R]

theorem marginal_digits (dims : List ℕ) (positive : ∀ d ∈ dims, 0 < d) (axes : List ℕ) (a : Amplitudes R) :
    Amplitudes.marginal dims axes a = (List.range (size (radices dims axes))).map fun j =>
      Scalar.sum (((List.range a.size).filter fun i => digitsOn dims axes i = digits (radices dims axes) j).map
        fun i => (a.amp i).normSq) := by
  have sums := gathered_list (Amplitudes.jointValue dims (strides dims) axes) (fun i => (a.amp i).normSq) a.size
    (size (radices dims axes))
  refine sums.trans (List.map_congr_left fun j listed => ?_)
  have inside : j < size (radices dims axes) := List.mem_range.mp listed
  rw [Scalar.sum, List.foldl_map]
  refine congrArg (List.foldl _ 0) (List.filter_congr fun i _ => ?_)
  exact decide_eq_decide.mpr (jointValue_iff dims positive axes i j inside)

theorem agrees_digits (dims axes values : List ℕ) (length : values.length = axes.length) (i : ℕ) :
    ((axes.zip values).all fun p => i / (strides dims).getD p.1 1 % dims.getD p.1 1 == p.2)
      = decide (digitsOn dims axes i = values) := by
  rw [digitsOn_eq]
  induction axes generalizing values with
  | nil =>
      rw [List.length_nil, List.length_eq_zero_iff] at length
      subst length
      rfl
  | cons k axes ih =>
      cases values with
      | nil => cases length
      | cons v values =>
          rw [List.zip_cons_cons, List.all_cons, List.map_cons, ih values (Nat.succ.inj length), Bool.eq_iff_iff]
          simp [digitAt]

theorem project_digits (dims axes values : List ℕ) (length : values.length = axes.length) (chance : R) (a : Amplitudes R) :
    Amplitudes.project dims axes values chance a = Array.ofFn fun i : Fin a.size =>
      if digitsOn dims axes i = values then (a.amp i).scale (Scalar.reciprocal (Scalar.sqrt chance)) else Cplx.ofReal 0 := by
  rw [Amplitudes.project]
  refine congrArg Array.ofFn (funext fun i => ?_)
  rw [agrees_digits dims axes values length]
  simp only [decide_eq_true_eq]

-- Digits and positions determine each other, and the strides find the same digits; in machine words as well, where
-- no step leaves the words.
theorem positions_agree (dims : List ℕ) (positive : ∀ d ∈ dims, 0 < d) (fits : size dims < wordSize) :
    (∀ i, i < size dims →
        digits? dims i = some (digits dims i) ∧ List.Forall₂ (· < ·) (digits dims i) dims ∧ wordValue dims (digits dims i) = i)
      ∧ (∀ xs, List.Forall₂ (· < ·) xs dims → wordValue dims xs < size dims ∧ digits? dims (wordValue dims xs) = some xs)
      ∧ (∀ i k, k < dims.length → (digits dims i)[k]? = some (digitAt dims k i))
      ∧ (∀ (axes : List ℕ) (a : Amplitudes R), Amplitudes.marginal dims axes a
        = (List.range (size (radices dims axes))).map fun j =>
          Scalar.sum (((List.range a.size).filter fun i => digitsOn dims axes i = digits (radices dims axes) j).map
            fun i => (a.amp i).normSq))
      ∧ (∀ (axes values : List ℕ) (chance : R) (a : Amplitudes R), values.length = axes.length →
        Amplitudes.project dims axes values chance a = Array.ofFn fun i : Fin a.size =>
          if digitsOn dims axes i = values then (a.amp i).scale (Scalar.reciprocal (Scalar.sqrt chance)) else Cplx.ofReal 0)
      ∧ (∀ i, i < wordSize → (divideWord (asWords dims) (.ofNat i)).1.map UInt64.toNat = digits dims i)
      ∧ (∀ xs, List.Forall₂ (· < ·) xs dims →
        (hornerWord? (asWords dims) (asWords xs)).map UInt64.toNat = some (wordValue dims xs))
      ∧ ∃ table, strideTable? (asWords dims) = some table ∧ table.map UInt64.toNat = strides dims
        ∧ ∀ i, i < wordSize → ∀ k, (.ofNat i / table.getD k 1 % (asWords dims).getD k 1 : UInt64).toNat = digitAt dims k i := by
  have value_word (xs : List ℕ) (below : List.Forall₂ (· < ·) xs dims) : wordValue dims xs = value dims xs :=
    Nat.mod_eq_of_lt ((value_lt dims xs below).trans fits)
  have below (i : ℕ) := digits_below dims i positive
  have small := radices_small dims positive fits
  refine ⟨fun i inside => ⟨digits?_some dims i positive, below i, ?_⟩, fun xs fitting => ⟨?_, ?_⟩, fun i k inside => ?_,
    marginal_digits dims positive, fun axes values chance a length => project_digits dims axes values length chance a,
    divided_digits dims small, fun xs fitting => ?_, ?_⟩
  · rw [value_word _ (below i), value_digits dims i inside]
  · rw [value_word xs fitting]
    exact value_lt dims xs fitting
  · rw [value_word xs fitting, digits?_some dims _ positive, digits_value dims xs fitting]
  · have bound : k < (digits dims i).length := by rwa [digits_length]
    rw [← digits_getD, List.getD_eq_getElem _ _ bound]
    exact List.getElem?_eq_getElem bound
  · rw [horner_value dims xs fitting fits, value_word xs fitting]
  · obtain ⟨table, filled, full⟩ := strideTable_value positive fits
    exact ⟨table, filled, full, digitAt_word positive fits table full⟩

def wide : List ℕ := [2 ^ 32, 3, 2 ^ 30, 1]

theorem positions_agree_wide :
    digits? wide (3 * 2 ^ 62 - 1) = some [2 ^ 32 - 1, 2, 2 ^ 30 - 1, 0]
      ∧ wordValue wide [2 ^ 32 - 1, 2, 2 ^ 30 - 1, 0] = 3 * 2 ^ 62 - 1
      ∧ digitAt wide 2 (3 * 2 ^ 62 - 1) = 2 ^ 30 - 1
      ∧ Amplitudes.marginal wide [1] (#[1] : Amplitudes ℝ) = [1, 0, 0]
      ∧ ∃ table, strideTable? (asWords wide) = some table ∧ table.map UInt64.toNat = [3 * 2 ^ 30, 2 ^ 30, 1, 1] := by
  obtain ⟨forth, -, places, sums, -, -, -, table, filled, full, -⟩ :=
    positions_agree (R := ℝ) wide (by decide) (by decide +kernel)
  have last : digits wide (3 * 2 ^ 62 - 1) = [2 ^ 32 - 1, 2, 2 ^ 30 - 1, 0] := by decide +kernel
  obtain ⟨found, -, read⟩ := forth (3 * 2 ^ 62 - 1) (by decide +kernel)
  have third := places (3 * 2 ^ 62 - 1) 2 (by decide)
  rw [last] at found read third
  refine ⟨found, read, (Option.some.inj third).symm, ?_, table, filled, full⟩
  have single : (List.range 1).filter (fun i => digitsOn wide [1] i = digits (radices wide [1]) 0) = [0] := by decide +kernel
  have none (j : ℕ) (other : j = 1 ∨ j = 2) :
      (List.range 1).filter (fun i => digitsOn wide [1] i = digits (radices wide [1]) j) = [] := by
    rcases other with rfl | rfl <;> decide +kernel
  have three : List.range (size (radices wide [1])) = [0, 1, 2] := by decide +kernel
  have one : (#[1] : Amplitudes ℝ).size = 1 := rfl
  rw [sums, three, one, List.map_cons, List.map_cons, List.map_cons, single, none 1 (.inl rfl), none 2 (.inr rfl)]
  have whole : (Amplitudes.amp (#[1] : Amplitudes ℝ) 0).normSq = 1 := by
    change (1 : ℝ) * 1 + 0 * 0 = 1
    norm_num
  simp [whole, Scalar.sum]

end QuantumRegister.Dense
