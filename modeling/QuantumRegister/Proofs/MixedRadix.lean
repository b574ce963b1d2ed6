import Mathlib
import QuantumRegister.MixedRadix

/-!
Digits and positions of a mixed-radix system determine each other.
-/

set_option autoImplicit false

namespace QuantumRegister.MixedRadix

theorem size_cons (d : ℕ) (dims : List ℕ) : size (d :: dims) = d * size dims := rfl

theorem size_append (dims more : List ℕ) : size (dims ++ more) = size dims * size more := by
  induction dims with
  | nil => rw [List.nil_append, show size [] = 1 from rfl, Nat.one_mul]
  | cons d dims ih => rw [List.cons_append, size_cons, size_cons, ih, Nat.mul_assoc]

theorem size_pos (dims : List ℕ) (positive : ∀ d ∈ dims, 0 < d) : 0 < size dims := by
  induction dims with
  | nil => exact Nat.one_pos
  | cons d dims ih =>
      exact Nat.mul_pos (positive d List.mem_cons_self) (ih fun e member => positive e (List.mem_cons_of_mem d member))

theorem positive_of_size (dims : List ℕ) (positive : 0 < size dims) : ∀ d ∈ dims, 0 < d := by
  intro d member
  refine Nat.pos_of_ne_zero fun zero => ?_
  have none : size dims = 0 := List.prod_eq_zero (zero ▸ member)
  omega

theorem size_perm (dims more : List ℕ) (perm : dims.Perm more) : size dims = size more :=
  perm.prod_eq

theorem checkedSize_some (acc : ℕ) (dims : List ℕ) (n : ℕ) (small : acc < wordSize) (checked : checkedSize acc dims = some n) :
    n = acc * size dims ∧ n < wordSize := by
  induction dims generalizing acc with
  | nil => exact ⟨(Option.some.inj checked).symm.trans (Nat.mul_one acc).symm, Option.some.inj checked ▸ small⟩
  | cons d dims ih =>
      rw [checkedSize] at checked
      split at checked
      · rename_i bound
        rw [size_cons, ← Nat.mul_assoc]
        exact ih _ bound checked
      · cases checked

theorem checkedSize_eq (acc : ℕ) (dims : List ℕ) (positive : ∀ d ∈ dims, 0 < d) (small : acc * size dims < wordSize) :
    checkedSize acc dims = some (acc * size dims) := by
  induction dims generalizing acc with
  | nil => exact congrArg some (Nat.mul_one acc).symm
  | cons d dims ih =>
      have rest := size_pos dims fun e member => positive e (List.mem_cons_of_mem d member)
      have whole : acc * size (d :: dims) = acc * d * size dims := by rw [size_cons, Nat.mul_assoc]
      rw [whole] at small ⊢
      have step : acc * d < wordSize := (Nat.le_mul_of_pos_right _ rest).trans_lt small
      rw [checkedSize, if_pos step, ih (acc * d) (fun e member => positive e (List.mem_cons_of_mem d member)) small]

-- A product that leaves the words on the way is not in them at the end.
theorem checkedSize_whole (dims : List ℕ) (positive : ∀ d ∈ dims, 0 < d) :
    checkedSize 1 dims = if size dims < wordSize then some (size dims) else none := by
  split
  · rename_i small
    rw [checkedSize_eq 1 dims positive (by rwa [Nat.one_mul]), Nat.one_mul]
  · rename_i large
    cases checked : checkedSize 1 dims with
    | none => rfl
    | some n =>
        obtain ⟨product, small⟩ := checkedSize_some 1 dims n (by decide) checked
        rw [product, Nat.one_mul] at small
        exact absurd small large

theorem value_from (dims digits : List ℕ) (length : digits.length = dims.length) (acc : ℕ) :
    (digits.zip dims).foldl (fun acc p => acc * p.2 + p.1) acc = acc * size dims + value dims digits := by
  induction dims generalizing digits acc with
  | nil =>
      rw [List.length_nil, List.length_eq_zero_iff] at length
      subst length
      exact (Nat.mul_one acc).symm
  | cons d dims ih =>
      cases digits with
      | nil => cases length
      | cons x digits =>
          have shorter : digits.length = dims.length := Nat.succ.inj length
          rw [value, List.zip_cons_cons, List.foldl_cons, List.foldl_cons, ih digits shorter, ih digits shorter, size_cons]
          ring

theorem value_cons (d x : ℕ) (dims digits : List ℕ) (length : digits.length = dims.length) :
    value (d :: dims) (x :: digits) = x * size dims + value dims digits := by
  rw [value, List.zip_cons_cons, List.foldl_cons, value_from dims digits length, Nat.zero_mul, Nat.zero_add]

theorem split_high (dims : List ℕ) (n : ℕ) : (split dims n).2 = n / size dims := by
  induction dims with
  | nil => exact (Nat.div_one n).symm
  | cons d dims ih =>
      rw [size_cons, Nat.mul_comm, ← Nat.div_div_eq_div_mul, ← ih]
      rfl

theorem digits_cons (d : ℕ) (dims : List ℕ) (n : ℕ) : digits (d :: dims) n = n / size dims % d :: digits dims n := by
  rw [← split_high]
  rfl

theorem digits_length (dims : List ℕ) (n : ℕ) : (digits dims n).length = dims.length := by
  induction dims generalizing n with
  | nil => rfl
  | cons d dims ih => rw [digits_cons, List.length_cons, ih, List.length_cons]

theorem digits_below (dims : List ℕ) (n : ℕ) (positive : ∀ d ∈ dims, 0 < d) :
    List.Forall₂ (· < ·) (digits dims n) dims := by
  induction dims with
  | nil => exact .nil
  | cons d dims ih =>
      rw [digits_cons]
      exact .cons (Nat.mod_lt _ (positive d List.mem_cons_self)) (ih fun e member => positive e (List.mem_cons_of_mem d member))

theorem digits?_some (dims : List ℕ) (n : ℕ) (positive : ∀ d ∈ dims, 0 < d) : digits? dims n = some (digits dims n) := by
  have levels : dims.contains 0 = false := by
    simpa using fun none => Nat.lt_irrefl 0 (positive 0 none)
  rw [digits?, levels]
  rfl

theorem value_lt (dims digits : List ℕ) (below : List.Forall₂ (· < ·) digits dims) : value dims digits < size dims := by
  induction below with
  | nil => exact Nat.one_pos
  | cons less below ih =>
      rename_i x d digits dims
      rw [value_cons d x dims digits below.length_eq, size_cons]
      calc x * size dims + value dims digits < x * size dims + size dims := Nat.add_lt_add_left ih _
        _ = (x + 1) * size dims := by ring
        _ ≤ d * size dims := Nat.mul_le_mul_right _ less

theorem digits_add_mul (dims : List ℕ) (k n : ℕ) : digits dims (k * size dims + n) = digits dims n := by
  induction dims generalizing k with
  | nil => rfl
  | cons d dims ih =>
      have shift : k * size (d :: dims) + n = (k * d) * size dims + n := by rw [size_cons, Nat.mul_assoc]
      rw [digits_cons, digits_cons, shift, ih]
      refine congrArg (· :: digits dims n) ?_
      rcases Nat.eq_zero_or_pos (size dims) with none | some
      · rw [none, Nat.mul_zero, Nat.zero_add]
      · rw [Nat.add_comm, Nat.add_mul_div_right _ _ some, Nat.add_mul_mod_self_right]

theorem digits_value (dims digits : List ℕ) (below : List.Forall₂ (· < ·) digits dims) :
    MixedRadix.digits dims (value dims digits) = digits := by
  induction below with
  | nil => rfl
  | cons less below ih =>
      rename_i x d digits dims
      have small := value_lt dims digits below
      rw [value_cons d x dims digits below.length_eq, digits_cons, digits_add_mul, ih, Nat.add_comm,
        Nat.add_mul_div_right _ _ (Nat.zero_lt_of_lt small), Nat.div_eq_of_lt small, Nat.zero_add, Nat.mod_eq_of_lt less]

theorem value_digits (dims : List ℕ) (n : ℕ) (inside : n < size dims) : value dims (digits dims n) = n := by
  induction dims generalizing n with
  | nil =>
      have zero : n = 0 := Nat.lt_one_iff.mp inside
      subst zero
      rfl
  | cons d dims ih =>
      have positive : 0 < size dims := Nat.pos_of_ne_zero fun none => by
        rw [size_cons, none, Nat.mul_zero] at inside
        exact Nat.not_lt_zero n inside
      have quotient : n / size dims < d := Nat.div_lt_of_lt_mul (by rwa [Nat.mul_comm, ← size_cons])
      have low : digits dims n = digits dims (n % size dims) := by
        conv_lhs => rw [← Nat.div_add_mod n (size dims), Nat.mul_comm]
        exact digits_add_mul dims _ _
      rw [digits_cons, value_cons _ _ _ _ (digits_length dims n), low, ih _ (Nat.mod_lt n positive), Nat.mod_eq_of_lt quotient,
        Nat.mul_comm, Nat.div_add_mod]

theorem value_append (dims more digits others : List ℕ) (first : digits.length = dims.length)
    (second : others.length = more.length) :
    value (dims ++ more) (digits ++ others) = value dims digits * size more + value more others := by
  rw [value, List.zip_append first, List.foldl_append, value_from more others second]
  rfl

/-! Digits written over others. -/

section Overwrite

variable {κ : Type} [DecidableEq κ]

def overwrite (e : κ → ℕ) : (axes : List κ) → (digits : List ℕ) → κ → ℕ
  | a :: axes, d :: digits => Function.update (overwrite e axes digits) a d
  | _, _ => e

theorem overwrite_other (e : κ → ℕ) (axes : List κ) (digits : List ℕ) (k : κ) (other : k ∉ axes) : overwrite e axes digits k = e k := by
  induction axes generalizing digits with
  | nil => rfl
  | cons a axes ih =>
      rw [List.mem_cons, not_or] at other
      cases digits with
      | nil => rfl
      | cons d digits => rw [overwrite, Function.update_of_ne other.1, ih digits other.2]

theorem map_overwrite (e : κ → ℕ) (axes : List κ) (digits : List ℕ) (once : axes.Nodup) (length : digits.length = axes.length) :
    axes.map (overwrite e axes digits) = digits := by
  induction axes generalizing digits with
  | nil => exact (List.length_eq_zero_iff.mp length).symm
  | cons a axes ih =>
      obtain ⟨absent, once⟩ := List.nodup_cons.mp once
      cases digits with
      | nil => cases length
      | cons d digits =>
          have others : axes.map (overwrite e (a :: axes) (d :: digits)) = axes.map (overwrite e axes digits) :=
            List.map_congr_left fun k member => Function.update_of_ne (ne_of_mem_of_not_mem member absent) _ _
          rw [List.map_cons, others, ih digits once (Nat.succ.inj length), overwrite, Function.update_self]

end Overwrite

/-! Positions through the strides. -/

def stride (dims : List ℕ) (k : ℕ) : ℕ := (strides dims).getD k 1

theorem strides_length (dims : List ℕ) : (strides dims).length = dims.length := by
  induction dims with
  | nil => rfl
  | cons d dims ih => rw [strides, List.length_cons, ih, List.length_cons]

theorem stride_last (dims : List ℕ) (k : ℕ) (last : dims.length ≤ k + 1) : stride dims k = 1 := by
  induction dims generalizing k with
  | nil => rfl
  | cons d dims ih =>
      cases k with
      | zero =>
          have none : dims = [] := List.length_eq_zero_iff.mp (Nat.le_zero.mp (Nat.le_of_succ_le_succ last))
          subst none
          rfl
      | succ k => exact ih k (Nat.le_of_succ_le_succ last)

theorem stride_eq_mul (dims : List ℕ) (k : ℕ) (inside : k + 1 < dims.length) :
    stride dims k = stride dims (k + 1) * dims.getD (k + 1) 1 := by
  induction dims generalizing k with
  | nil => cases inside
  | cons d dims ih =>
      cases k with
      | zero =>
          cases dims with
          | nil => exact absurd inside (Nat.lt_irrefl 1)
          | cons e dims => exact Nat.mul_comm e (size dims)
      | succ k => exact ih k (Nat.lt_of_succ_lt_succ inside)

theorem stride_le (dims : List ℕ) (positive : ∀ d ∈ dims, 0 < d) (k : ℕ) : stride dims k ≤ size dims := by
  induction dims generalizing k with
  | nil => exact le_refl 1
  | cons d dims ih =>
      have first : size dims ≤ size (d :: dims) := Nat.le_mul_of_pos_left _ (positive d List.mem_cons_self)
      cases k with
      | zero => exact first
      | succ k => exact (ih (fun e member => positive e (List.mem_cons_of_mem d member)) k).trans first

theorem digits_getD (dims : List ℕ) (n k : ℕ) : (digits dims n).getD k 0 = digitAt dims k n := by
  induction dims generalizing k with
  | nil => exact (Nat.mod_one _).symm
  | cons d dims ih =>
      rw [digits_cons]
      cases k with
      | zero => rfl
      | succ k => exact ih k

theorem radix_pos (dims : List ℕ) (positive : ∀ d ∈ dims, 0 < d) (k : ℕ) : 0 < dims.getD k 1 := by
  by_cases inside : k < dims.length
  · rw [List.getD_eq_getElem _ _ inside]
    exact positive _ (List.getElem_mem inside)
  · rw [List.getD_eq_default _ _ (not_lt.mp inside)]
    exact Nat.one_pos

theorem digitAt_lt (dims : List ℕ) (positive : ∀ d ∈ dims, 0 < d) (k n : ℕ) : digitAt dims k n < dims.getD k 1 :=
  Nat.mod_lt _ (radix_pos dims positive k)

-- The position whose digit at axis `k` is `e k`.
def place (dims : List ℕ) (e : ℕ → ℕ) : ℕ := value dims ((List.range dims.length).map e)

theorem place_cons (d : ℕ) (dims : List ℕ) (e : ℕ → ℕ) :
    place (d :: dims) e = e 0 * size dims + place dims fun k => e (k + 1) := by
  rw [place, List.length_cons, List.range_succ_eq_map, List.map_cons, List.map_map, value_cons _ _ _ _ (by simp)]
  rfl

theorem place_eq_sum (dims : List ℕ) (e : ℕ → ℕ) : place dims e = ∑ k ∈ Finset.range dims.length, e k * stride dims k := by
  induction dims generalizing e with
  | nil => rfl
  | cons d dims ih =>
      rw [place_cons, ih, List.length_cons, Finset.sum_range_succ', Nat.add_comm]
      rfl

def Below (dims : List ℕ) (e : ℕ → ℕ) : Prop := ∀ k, k < dims.length → e k < dims.getD k 1

theorem below_digits (dims : List ℕ) (e : ℕ → ℕ) (below : Below dims e) :
    List.Forall₂ (· < ·) ((List.range dims.length).map e) dims := by
  refine List.forall₂_iff_get.mpr ⟨by simp, fun k _ inside => ?_⟩
  have bound := below k inside
  rw [List.getD_eq_getElem _ _ inside] at bound
  simpa using bound

theorem place_lt (dims : List ℕ) (e : ℕ → ℕ) (below : Below dims e) : place dims e < size dims :=
  value_lt dims _ (below_digits dims e below)

theorem digitAt_place (dims : List ℕ) (e : ℕ → ℕ) (below : Below dims e) (k : ℕ) (inside : k < dims.length) :
    digitAt dims k (place dims e) = e k := by
  rw [← digits_getD, place, digits_value dims _ (below_digits dims e below)]
  simp [inside]

theorem place_injective (dims : List ℕ) (e f : ℕ → ℕ) (eBelow : Below dims e) (fBelow : Below dims f)
    (same : place dims e = place dims f) (k : ℕ) (inside : k < dims.length) : e k = f k := by
  rw [← digitAt_place dims e eBelow k inside, same, digitAt_place dims f fBelow k inside]

end QuantumRegister.MixedRadix
