import QuantumRegister.Gate.Basic
import QuantumRegister.Proofs.Dense.Reset
import QuantumRegister.Proofs.Stabilizer.Events

/-!
The matrices of gates on two-level systems, as they act on functions of one bit for each qubit.
-/

set_option autoImplicit false

namespace QuantumRegister

open QuantumRegister.Assignment
open QuantumRegister.MixedRadix
open QuantumRegister.Dense
open QuantumRegister.Form (root sgn bit_cases)

abbrev Bits := Qudit → ZMod 2

namespace Bits

def place : List Qudit → Bits → ℕ
  | [], _ => 0
  | q :: qs, β => (β q).val * 2 ^ qs.length + place qs β

noncomputable def sum : List Qudit → (Bits → ℂ) → Bits → ℂ
  | [], W, β => W β
  | q :: qs, W, β => sum qs W (Function.update β q 0) + sum qs W (Function.update β q 1)

noncomputable def acted (qs : List Qudit) (m : Operator ℝ) (W : Bits → ℂ) (β : Bits) : ℂ :=
  sum qs (fun γ => (m.entry (place qs β) (place qs γ)).toComplex * W γ) β

variable (qs : List Qudit) (W : Bits → ℂ) (β : Bits)

theorem place_lt : place qs β < 2 ^ qs.length := by
  induction qs with
  | nil => exact Nat.one_pos
  | cons q qs ih =>
      have bit : (β q).val < 2 := ZMod.val_lt (β q)
      rw [place, List.length_cons, Nat.pow_succ']
      nlinarith

theorem place_eq (q : Qudit) (γ : Bits) : place (q :: qs) β = place (q :: qs) γ ↔ β q = γ q ∧ place qs β = place qs γ := by
  have here := place_lt qs β
  have there := place_lt qs γ
  have zero : (0 : ZMod 2).val = 0 := rfl
  have one : (1 : ZMod 2).val = 1 := rfl
  rw [place, place]
  rcases bit_cases (β q) with first | first <;> rcases bit_cases (γ q) with second | second <;>
    · simp only [first, second, zero, one, zero_ne_one, one_ne_zero, false_and, iff_false, true_and]
      omega

theorem sum_congr (V : Bits → ℂ) (same : ∀ γ, (∀ q, q ∉ qs → γ q = β q) → V γ = W γ) : sum qs V β = sum qs W β := by
  induction qs generalizing β with
  | nil => exact same β fun _ _ => rfl
  | cons q qs ih =>
      have each (z : ZMod 2) : sum qs V (Function.update β q z) = sum qs W (Function.update β q z) := by
        refine ih _ fun γ kept => same γ fun p other => ?_
        obtain ⟨apart, rest⟩ := not_or.mp (mt List.mem_cons.mpr other)
        rw [kept p rest, Function.update_of_ne apart]
      rw [sum, sum, each, each]

theorem sum_zero : sum qs (fun _ => 0) β = 0 := by
  induction qs generalizing β with
  | nil => rfl
  | cons q qs ih => rw [sum, ih, ih, add_zero]

theorem sum_pick (once : qs.Nodup) (τ : Bits) (same : ∀ q, q ∉ qs → τ q = β q) :
    sum qs (fun γ => if place qs β = place qs γ then W γ else 0) τ = W β := by
  induction qs generalizing τ with
  | nil =>
      rw [sum, place, place, if_pos rfl]
      exact congrArg W (funext fun q => same q List.not_mem_nil)
  | cons q qs ih =>
      obtain ⟨absent, rest⟩ := List.nodup_cons.mp once
      have each (z : ZMod 2) : sum qs (fun γ => if place (q :: qs) β = place (q :: qs) γ then W γ else 0) (Function.update τ q z)
          = if β q = z then W β else 0 := by
        have value (γ : Bits) (kept : ∀ p, p ∉ qs → γ p = Function.update τ q z p) : γ q = z :=
          (kept q absent).trans (Function.update_self q z τ)
        by_cases here : β q = z
        · rw [if_pos here, ← ih rest (Function.update τ q z) fun p other => ?_]
          · refine sum_congr qs _ _ _ fun γ kept => if_congr ?_ rfl rfl
            rw [place_eq, value γ kept, and_iff_right here]
          · by_cases target : p = q
            · rw [target, Function.update_self, here]
            · rw [Function.update_of_ne target, same p (List.not_mem_cons_of_ne_of_not_mem target other)]
        · rw [if_neg here]
          refine (sum_congr qs (fun _ => 0) _ _ fun γ kept => if_neg fun both => here ?_).trans (sum_zero qs _)
          exact ((place_eq qs β q γ).mp both).1.trans (value γ kept)
      rw [sum, each, each]
      rcases bit_cases (β q) with unset | set
      · simp [unset]
      · simp [set]

/-! Gates on one qubit. -/

noncomputable def turn (z : ℂ) (x : ZMod 2) : ℂ := if x = 1 then z else 1

theorem acted_one (q : Qudit) (m : Operator ℝ) : acted [q] m W β = (m.entry (β q).val (β q).val).toComplex * W β
    + (m.entry (β q).val (β q + 1).val).toComplex * W (β + Pi.single q 1) := by
  have at_place (z : ZMod 2) : place [q] (Function.update β q z) = z.val := by simp [place]
  have here : place [q] β = (β q).val := by simp [place]
  have kept : Function.update β q (β q) = β := Function.update_eq_self q β
  have flipped : Function.update β q (β q + 1) = β + Pi.single q 1 := by
    funext p
    by_cases target : p = q
    · rw [target, Function.update_self, Pi.add_apply, Pi.single_eq_same]
    · rw [Function.update_of_ne target, Pi.add_apply, Pi.single_eq_of_ne target, add_zero]
  simp only [acted, sum, at_place, here]
  rcases bit_cases (β q) with unset | set
  · rw [unset] at kept flipped ⊢
    rw [zero_add] at flipped ⊢
    rw [kept, flipped]
  · rw [set] at kept flipped ⊢
    rw [show (1 : ZMod 2) + 1 = 0 from rfl] at flipped ⊢
    rw [kept, flipped, add_comm]

-- The four entries of a matrix: those that keep a bit and those that flip it.
theorem acted_entries (q : Qudit) (m : Operator ℝ) (d e : ZMod 2 → ℂ)
    (entries : ∀ x, (m.entry x.val x.val).toComplex = d x ∧ (m.entry x.val (x + 1).val).toComplex = e x) :
    acted [q] m W = fun β => d (β q) * W β + e (β q) * W (β + Pi.single q 1) := by
  funext β
  rw [acted_one, (entries _).1, (entries _).2]

theorem acted_identity (q : Qudit) : acted [q] (Operator.identity 2) W = W := by
  rw [acted_entries W q _ (fun _ => 1) (fun _ => 0)]
  · simp
  · intro x
    rcases bit_cases x with rfl | rfl <;> exact ⟨rfl, rfl⟩

theorem acted_phase (q : Qudit) (z : Cplx ℝ) : acted [q] (Gate.phase z) W = fun β => turn z.toComplex (β q) * W β := by
  rw [acted_entries W q _ (turn z.toComplex) (fun _ => 0)]
  · simp
  · intro x
    rcases bit_cases x with rfl | rfl <;> exact ⟨rfl, rfl⟩

theorem acted_pauliX (q : Qudit) : acted [q] Gate.pauliX W = fun β => W (β + Pi.single q 1) := by
  rw [acted_entries W q _ (fun _ => 0) (fun _ => 1)]
  · simp
  · intro x
    rcases bit_cases x with rfl | rfl <;> exact ⟨rfl, rfl⟩

theorem acted_pauliY (q : Qudit) : acted [q] Gate.pauliY W = fun β => -(Complex.I * sgn (β q)) * W (β + Pi.single q 1) := by
  rw [acted_entries W q _ (fun _ => 0) (fun x => -(Complex.I * sgn x))]
  · simp
  · intro x
    have lower : (Gate.pauliY : Operator ℝ).entry 1 0 = Cplx.i := rfl
    have upper : (Gate.pauliY : Operator ℝ).entry 0 1 = -Cplx.i := rfl
    rcases bit_cases x with rfl | rfl
    · exact ⟨rfl, (congrArg Cplx.toComplex upper).trans (by simp)⟩
    · exact ⟨rfl, (congrArg Cplx.toComplex lower).trans (by simp)⟩

theorem acted_hadamard (q : Qudit) :
    acted [q] Gate.hadamard W = fun β => root * (W (β + Pi.single q 1) + sgn (β q) * W β) := by
  rw [acted_entries W q _ (fun x => root * sgn x) (fun _ => root)]
  · funext β
    ring
  · intro x
    rcases bit_cases x with rfl | rfl
    · exact ⟨(mul_one root).symm, rfl⟩
    · exact ⟨(mul_neg_one root).symm, rfl⟩

/-! Gates on several qubits. -/

theorem entry_controlled (u : Operator ℝ) (x z : ZMod 2) (i j : ℕ) (row : i < u.rows) (column : j < u.rows) :
    u.controlled.entry (x.val * u.rows + i) (z.val * u.rows + j)
      = if x = z then if x = 1 then u.entry i j else if i = j then 1 else 0 else 0 := by
  have low (k : ℕ) : (0 : ZMod 2).val * u.rows + k = k := by rw [show (0 : ZMod 2).val = 0 from rfl, Nat.zero_mul, Nat.zero_add]
  have high (k : ℕ) : (1 : ZMod 2).val * u.rows + k = u.rows + k := by rw [show (1 : ZMod 2).val = 1 from rfl, Nat.one_mul]
  rcases bit_cases x with rfl | rfl
  · rcases bit_cases z with rfl | rfl
    · rw [low, low, Operator.entry_controlled u i j (by omega) (by omega), if_neg (by omega), if_pos rfl, if_neg zero_ne_one]
    · rw [low, high, Operator.entry_controlled u i _ (by omega) (by omega), if_neg (by omega), if_neg (by omega),
        if_neg zero_ne_one]
  · rcases bit_cases z with rfl | rfl
    · rw [high, low, Operator.entry_controlled u _ j (by omega) (by omega), if_neg (by omega), if_neg (by omega),
        if_neg one_ne_zero]
    · rw [high, high, Operator.entry_controlled u _ _ (by omega) (by omega), if_pos (by omega), if_pos rfl, if_pos rfl,
        Nat.add_sub_cancel_left, Nat.add_sub_cancel_left]

theorem acted_controlled (a : Qudit) (once : (a :: qs).Nodup) (u : Operator ℝ) (rows : u.rows = 2 ^ qs.length) :
    acted (a :: qs) u.controlled W = fun β => if β a = 1 then acted qs u W β else W β := by
  obtain ⟨absent, rest⟩ := List.nodup_cons.mp once
  funext β
  have entry (z : ZMod 2) (γ : Bits) (kept : ∀ q, q ∉ qs → γ q = Function.update β a z q) :
      u.controlled.entry (place (a :: qs) β) (place (a :: qs) γ) = if β a = z then
        if β a = 1 then u.entry (place qs β) (place qs γ) else if place qs β = place qs γ then 1 else 0 else 0 := by
    have value : γ a = z := (kept a absent).trans (Function.update_self a z β)
    rw [place, place, value, ← rows]
    exact entry_controlled u _ _ _ _ (rows ▸ place_lt qs β) (rows ▸ place_lt qs γ)
  have each (z : ZMod 2) :
      sum qs (fun γ => (u.controlled.entry (place (a :: qs) β) (place (a :: qs) γ)).toComplex * W γ) (Function.update β a z)
        = if β a = z then if β a = 1 then acted qs u W β else W β else 0 := by
    by_cases here : β a = z
    · rw [if_pos here]
      have unchanged : Function.update β a z = β := here ▸ Function.update_eq_self a β
      by_cases set : β a = 1
      · rw [if_pos set, unchanged]
        exact sum_congr qs _ β _ fun γ kept => by rw [entry z γ (unchanged.symm ▸ kept), if_pos here, if_pos set]
      · rw [if_neg set, ← sum_pick qs W β rest β fun _ _ => rfl, unchanged]
        refine sum_congr qs _ β _ fun γ kept => ?_
        rw [entry z γ (unchanged.symm ▸ kept), if_pos here, if_neg set]
        split
        · exact one_mul (W γ)
        · exact zero_mul (W γ)
    · rw [if_neg here]
      refine (sum_congr qs (fun _ => 0) _ _ fun γ kept => ?_).trans (sum_zero qs _)
      rw [entry z γ kept, if_neg here]
      exact zero_mul (W γ)
  rw [acted, sum, each, each]
  rcases bit_cases (β a) with unset | set
  · simp [unset]
  · simp [set]

theorem acted_exchange (a b : Qudit) (different : a ≠ b) :
    acted [a, b] (Operator.exchange 4 1 2) W = fun β => W (β ∘ Equiv.swap a b) := by
  have entries (x y z w : ZMod 2) : ((Operator.exchange 4 1 2 : Operator ℝ).entry (x.val * 2 + y.val) (z.val * 2 + w.val)).toComplex
      = if z = y ∧ w = x then 1 else 0 := by
    rcases bit_cases x with rfl | rfl <;> rcases bit_cases y with rfl | rfl <;> rcases bit_cases z with rfl | rfl <;>
      rcases bit_cases w with rfl | rfl <;> rfl
  funext β
  have crossed : Function.update (Function.update β a (β b)) b (β a) = β ∘ Equiv.swap a b := by
    funext q
    by_cases second : q = b
    · rw [second, Function.update_self, Function.comp_apply, Equiv.swap_apply_right]
    · rw [Function.update_of_ne second]
      by_cases first : q = a
      · rw [first, Function.update_self, Function.comp_apply, Equiv.swap_apply_left]
      · rw [Function.update_of_ne first, Function.comp_apply, Equiv.swap_apply_of_ne_of_ne first second]
  have pair (γ : Bits) : place [a, b] γ = (γ a).val * 2 + (γ b).val := by simp [place]
  have term (z w : ZMod 2) : ((Operator.exchange 4 1 2 : Operator ℝ).entry (place [a, b] β)
      (place [a, b] (Function.update (Function.update β a z) b w))).toComplex * W (Function.update (Function.update β a z) b w)
        = if z = β b ∧ w = β a then W (β ∘ Equiv.swap a b) else 0 := by
    rw [pair, pair, Function.update_self, Function.update_of_ne different, Function.update_self, entries]
    by_cases here : z = β b ∧ w = β a
    · rw [if_pos here, if_pos here, one_mul, here.1, here.2, crossed]
    · rw [if_neg here, if_neg here, zero_mul]
  simp only [acted, sum, term]
  rcases bit_cases (β a) with first | first <;> rcases bit_cases (β b) with second | second <;> simp [first, second]

/-! Functions of the values of all qudits, of which only some are read as bits. -/

def fill (L : List Qudit) (σ : Assignment) (β : Bits) : Assignment := fun q => if q ∈ L then (β q).val else σ q

variable (L : List Qudit) (σ : Assignment)

theorem fill_update (q : Qudit) (listed : q ∈ L) (z : ZMod 2) :
    Function.update (fill L σ β) q z.val = fill L σ (Function.update β q z) := by
  funext p
  by_cases target : p = q
  · rw [target, Function.update_self, fill, if_pos listed, Function.update_self]
  · rw [Function.update_of_ne target, fill, fill, Function.update_of_ne target]

theorem index_fill (inside : qs ⊆ L) (two : ∀ q ∈ qs, q.dim = 2) :
    size (Qudit.dims qs) = 2 ^ qs.length ∧ index qs (fill L σ β) = place qs β := by
  induction qs with
  | nil => exact ⟨rfl, rfl⟩
  | cons q qs ih =>
      obtain ⟨listed, rest⟩ := List.cons_subset.mp inside
      obtain ⟨qubit, others⟩ := List.forall_mem_cons.mp two
      obtain ⟨count, later⟩ := ih rest others
      rw [Qudit.dims_cons, size_cons, index_cons, count, qubit, later, fill, if_pos listed]
      exact ⟨(Nat.pow_succ' ..).symm, rfl⟩

theorem sumOver_fill (inside : qs ⊆ L) (two : ∀ q ∈ qs, q.dim = 2) (F : Assignment → ℂ) :
    sumOver qs F (fill L σ β) = sum qs (fun γ => F (fill L σ γ)) β := by
  induction qs generalizing β with
  | nil => rfl
  | cons q qs ih =>
      obtain ⟨listed, rest⟩ := List.cons_subset.mp inside
      obtain ⟨qubit, others⟩ := List.forall_mem_cons.mp two
      have unset := fill_update β L σ q listed 0
      have set := fill_update β L σ q listed 1
      rw [show (0 : ZMod 2).val = 0 from rfl] at unset
      rw [show (1 : ZMod 2).val = 1 from rfl] at set
      rw [sumOver, qubit, Finset.sum_range_succ, Finset.sum_range_one, unset, set, ih _ rest others, ih _ rest others]
      rfl

theorem acted_fill (inside : qs ⊆ L) (two : ∀ q ∈ qs, q.dim = 2) (m : Operator ℝ) (F : Assignment → ℂ) :
    Dense.acted qs m F (fill L σ β) = acted qs m (fun γ => F (fill L σ γ)) β := by
  rw [Dense.acted, sumOver_fill qs β L σ inside two, (index_fill qs β L σ inside two).2, acted]
  refine sum_congr qs _ β _ fun γ _ => ?_
  rw [(index_fill qs γ L σ inside two).2]

end Bits

end QuantumRegister
