import QuantumRegister.Proofs.MixedRadix

/-!
Positions, digits and strides computed in machine words. Where the number of positions is a word, no
product and no sum on the way leaves the words, and the results are those of unbounded numbers.
-/

set_option autoImplicit false

namespace QuantumRegister

open QuantumRegister.MixedRadix

/-! Products, sums and shifts of words. -/

theorem word_value {n : ℕ} (word : n < wordSize) : (UInt64.ofNat n).toNat = n :=
  UInt64.toNat_ofNat'.trans (Nat.mod_eq_of_lt word)

def times? (a b : UInt64) : Option UInt64 := if a.toNat * b.toNat < wordSize then some (a * b) else none

def plus? (a b : UInt64) : Option UInt64 := if a.toNat + b.toNat < wordSize then some (a + b) else none

theorem times_value (a b : UInt64) (small : a.toNat * b.toNat < wordSize) :
    ∃ w, times? a b = some w ∧ w.toNat = a.toNat * b.toNat :=
  ⟨a * b, if_pos small, (UInt64.toNat_mul a b).trans (Nat.mod_eq_of_lt small)⟩

theorem plus_value (a b : UInt64) (small : a.toNat + b.toNat < wordSize) :
    ∃ w, plus? a b = some w ∧ w.toNat = a.toNat + b.toNat :=
  ⟨a + b, if_pos small, (UInt64.toNat_add a b).trans (Nat.mod_eq_of_lt small)⟩

theorem product_value (acc : UInt64) (ds : List UInt64) :
    (ds.foldlM times? acc).map UInt64.toNat = checkedSize acc.toNat (ds.map UInt64.toNat) := by
  induction ds generalizing acc with
  | nil => rfl
  | cons d ds ih =>
      rw [List.foldlM_cons, List.map_cons, checkedSize]
      by_cases small : acc.toNat * d.toNat < wordSize
      · obtain ⟨w, multiplied, value⟩ := times_value acc d small
        rw [multiplied, if_pos small, ← value]
        exact ih w
      · rw [times?, if_neg small, if_neg small]
        rfl

theorem shift_value (a : UInt64) (k : ℕ) (short : k < 64) : (a >>> UInt64.ofNat k).toNat = a.toNat / 2 ^ k := by
  rw [UInt64.toNat_shiftRight, word_value (short.trans (by decide)), Nat.mod_eq_of_lt short, Nat.shiftRight_eq_div_pow]

def asWords (ns : List ℕ) : List UInt64 := ns.map UInt64.ofNat

theorem asWords_value (ns : List ℕ) (words : ∀ n ∈ ns, n < wordSize) : (asWords ns).map UInt64.toNat = ns := by
  rw [asWords, List.map_map]
  exact (List.map_congr_left fun n listed => word_value (words n listed)).trans (List.map_id ns)

theorem getD_value (ws : List UInt64) (k : ℕ) : (ws.getD k 1).toNat = (ws.map UInt64.toNat).getD k 1 :=
  (List.getD_map ws 1 UInt64.toNat).symm

namespace MixedRadix

theorem radices_small (dims : List ℕ) (positive : ∀ d ∈ dims, 0 < d) (fits : size dims < wordSize) :
    ∀ d ∈ dims, d < wordSize :=
  fun _ listed => (Nat.le_of_dvd (size_pos dims positive) (List.dvd_prod listed)).trans_lt fits

/-! Digits, from the least significant place up: each place leaves a quotient to the next one. -/

def divideWord (dims : List UInt64) (n : UInt64) : List UInt64 × UInt64 :=
  dims.foldr (fun d rest => (rest.2 % d :: rest.1, rest.2 / d)) ([], n)

theorem divideWord_value (dims : List UInt64) (n : UInt64) :
    ((divideWord dims n).1.map UInt64.toNat, (divideWord dims n).2.toNat) = split (dims.map UInt64.toNat) n.toNat := by
  induction dims with
  | nil => rfl
  | cons d dims ih =>
      have step : divideWord (d :: dims) n
          = ((divideWord dims n).2 % d :: (divideWord dims n).1, (divideWord dims n).2 / d) := rfl
      rw [step, List.map_cons, List.map_cons, split, ← ih, UInt64.toNat_mod, UInt64.toNat_div]

theorem divided_digits (dims : List ℕ) (small : ∀ d ∈ dims, d < wordSize) (n : ℕ) (word : n < wordSize) :
    (divideWord (asWords dims) (UInt64.ofNat n)).1.map UInt64.toNat = digits dims n := by
  have both := divideWord_value (asWords dims) (UInt64.ofNat n)
  rw [asWords_value dims small, word_value word] at both
  exact congrArg Prod.fst both

/-! Positions by Horner's rule. -/

def hornerStep? (acc : UInt64) (place : UInt64 × UInt64) : Option UInt64 := (times? acc place.2).bind (plus? · place.1)

def hornerWord? (dims digits : List UInt64) : Option UInt64 := (digits.zip dims).foldlM hornerStep? 0

theorem hornerStep_value (acc x d : UInt64) (small : acc.toNat * d.toNat + x.toNat < wordSize) :
    ∃ w, hornerStep? acc (x, d) = some w ∧ w.toNat = acc.toNat * d.toNat + x.toNat := by
  obtain ⟨product, multiplied, productValue⟩ := times_value acc d (Nat.lt_of_le_of_lt (Nat.le_add_right _ _) small)
  obtain ⟨sum, added, sumValue⟩ := plus_value product x (productValue ▸ small)
  refine ⟨sum, ?_, by rw [sumValue, productValue]⟩
  rw [hornerStep?, multiplied]
  exact added

-- Reading one more digit leaves as much room for the places after it.
theorem horner_room (acc x d rest bound : ℕ) (less : x < d) (some : 0 < rest) (fits : (acc + 1) * (d * rest) < bound) :
    (acc * d + x + 1) * rest < bound ∧ acc * d + x < bound ∧ d < bound := by
  have whole : (acc * d + x + 1) * rest < bound :=
    calc (acc * d + x + 1) * rest ≤ (acc * d + d) * rest := Nat.mul_le_mul_right _ (Nat.add_le_add_left less _)
      _ = (acc + 1) * (d * rest) := by ring
      _ < bound := fits
  refine ⟨whole, ?_, ?_⟩
  · calc acc * d + x < acc * d + x + 1 := Nat.lt_succ_self _
      _ ≤ (acc * d + x + 1) * rest := Nat.le_mul_of_pos_right _ some
      _ < bound := whole
  · calc d ≤ d * rest := Nat.le_mul_of_pos_right d some
      _ ≤ (acc + 1) * (d * rest) := Nat.le_mul_of_pos_left _ (Nat.succ_pos acc)
      _ < bound := fits

-- What is read so far is a position of the places before. The bound says that all places together fit the words.
theorem horner_from (dims digits : List ℕ) (below : List.Forall₂ (· < ·) digits dims) (acc : UInt64)
    (fits : (acc.toNat + 1) * size dims < wordSize) :
    (((asWords digits).zip (asWords dims)).foldlM hornerStep? acc).map UInt64.toNat
      = some (acc.toNat * size dims + value dims digits) := by
  induction below generalizing acc with
  | nil => exact congrArg some (Nat.mul_one acc.toNat).symm
  | cons less below ih =>
      rename_i x d digits dims
      obtain ⟨whole, step, level⟩ := horner_room acc.toNat x d (size dims) wordSize less
        (Nat.zero_lt_of_lt (value_lt dims digits below)) fits
      have digitValue : (UInt64.ofNat x).toNat = x := word_value (less.trans level)
      have radixValue : (UInt64.ofNat d).toNat = d := word_value level
      obtain ⟨w, stepped, stepValue⟩ := hornerStep_value acc (UInt64.ofNat x) (UInt64.ofNat d) (by rwa [digitValue, radixValue])
      rw [digitValue, radixValue] at stepValue
      have later := ih w (by rwa [stepValue])
      have unfolded : ((asWords (x :: digits)).zip (asWords (d :: dims))).foldlM hornerStep? acc
          = (hornerStep? acc (UInt64.ofNat x, UInt64.ofNat d)).bind (((asWords digits).zip (asWords dims)).foldlM hornerStep?) := rfl
      rw [unfolded, stepped, Option.bind_some, later, stepValue, value_cons d x dims digits below.length_eq, size_cons]
      exact congrArg some (by ring)

theorem horner_value (dims digits : List ℕ) (below : List.Forall₂ (· < ·) digits dims) (fits : size dims < wordSize) :
    (hornerWord? (asWords dims) (asWords digits)).map UInt64.toNat = some (value dims digits) := by
  have read := horner_from dims digits below 0 (by rwa [UInt64.toNat_zero, Nat.zero_add, Nat.one_mul])
  rwa [UInt64.toNat_zero, Nat.zero_mul, Nat.zero_add] at read

/-! The table of strides, filled from its last entry to its first. -/

def fillStrides? (dims : List UInt64) : (k : ℕ) → (table : List UInt64) → Option (List UInt64)
  | 0, table => some table
  | k + 1, table => (times? (table.getD (k + 1) 1) (dims.getD (k + 1) 1)).bind fun w => fillStrides? dims k (table.set k w)

def strideTable? (dims : List UInt64) : Option (List UInt64) :=
  fillStrides? dims (dims.length - 1) (List.replicate dims.length 1)

-- The entries from `k` on are strides; those before are still to be filled.
structure FilledFrom (dims : List ℕ) (k : ℕ) (table : List UInt64) : Prop where
  length : table.length = dims.length
  strides : ∀ j, k ≤ j → (table.getD j 1).toNat = stride dims j

section Fill

variable {dims : List ℕ} (positive : ∀ d ∈ dims, 0 < d) (fits : size dims < wordSize)

theorem filled_last (dims : List ℕ) : FilledFrom dims (dims.length - 1) (List.replicate dims.length 1) := by
  refine ⟨List.length_replicate, fun j last => ?_⟩
  have one : (List.replicate dims.length (1 : UInt64)).getD j 1 = 1 := by
    by_cases inside : j < dims.length
    · simp [inside]
    · simp [not_lt.mp inside]
  rw [one, stride_last dims j (by omega)]
  rfl

include positive fits

theorem fill_step (k : ℕ) (inside : k + 1 < dims.length) (table : List UInt64) (filled : FilledFrom dims (k + 1) table) :
    ∃ w, times? (table.getD (k + 1) 1) ((asWords dims).getD (k + 1) 1) = some w ∧ FilledFrom dims k (table.set k w) := by
  have level : ((asWords dims).getD (k + 1) 1).toNat = dims.getD (k + 1) 1 := by
    rw [getD_value, asWords_value dims (radices_small dims positive fits)]
  have next := filled.strides (k + 1) (Nat.le_refl _)
  have product : (table.getD (k + 1) 1).toNat * ((asWords dims).getD (k + 1) 1).toNat = stride dims k := by
    rw [next, level, stride_eq_mul dims k inside]
  obtain ⟨w, multiplied, wValue⟩ := times_value (table.getD (k + 1) 1) ((asWords dims).getD (k + 1) 1)
    (product ▸ (stride_le dims positive k).trans_lt fits)
  refine ⟨w, multiplied, by rw [List.length_set, filled.length], fun j reached => ?_⟩
  rcases Nat.eq_or_lt_of_le reached with here | beyond
  · subst here
    have bound : k < table.length := by
      rw [filled.length]
      exact Nat.lt_of_succ_lt inside
    rw [List.getD_eq_getElem?_getD, List.getElem?_set_self bound, Option.getD_some, wValue, product]
  · have kept : (table.set k w).getD j 1 = table.getD j 1 := by
      rw [List.getD_eq_getElem?_getD, List.getElem?_set_ne (Nat.ne_of_lt beyond), List.getD_eq_getElem?_getD]
    rw [kept, filled.strides j beyond]

theorem fill_run (k : ℕ) (inside : k ≤ dims.length - 1) (table : List UInt64) (filled : FilledFrom dims k table) :
    ∃ full, fillStrides? (asWords dims) k table = some full ∧ FilledFrom dims 0 full := by
  induction k generalizing table with
  | zero => exact ⟨table, rfl, filled⟩
  | succ k ih =>
      obtain ⟨w, multiplied, next⟩ := fill_step positive fits k (by omega) table filled
      obtain ⟨full, run, all⟩ := ih (by omega) (table.set k w) next
      refine ⟨full, ?_, all⟩
      rw [fillStrides?, multiplied]
      exact run

theorem strideTable_value : ∃ table, strideTable? (asWords dims) = some table ∧ table.map UInt64.toNat = strides dims := by
  obtain ⟨table, run, all⟩ := fill_run positive fits (dims.length - 1) (Nat.le_refl _) _ (filled_last dims)
  have length : (asWords dims).length = dims.length := List.length_map _
  refine ⟨table, by rw [strideTable?, length, run], List.ext_getElem ?_ fun k inside there => ?_⟩
  · rw [List.length_map, all.length, strides_length]
  · have entry := all.strides k (Nat.zero_le k)
    rwa [getD_value, stride, List.getD_eq_getElem _ _ inside, List.getD_eq_getElem _ _ there] at entry

theorem digitAt_word (table : List UInt64) (full : table.map UInt64.toNat = strides dims) (n : ℕ) (word : n < wordSize)
    (k : ℕ) : (UInt64.ofNat n / table.getD k 1 % (asWords dims).getD k 1).toNat = digitAt dims k n := by
  rw [UInt64.toNat_mod, UInt64.toNat_div, word_value word, getD_value, getD_value, full,
    asWords_value dims (radices_small dims positive fits)]
  rfl

end Fill

end MixedRadix

end QuantumRegister
