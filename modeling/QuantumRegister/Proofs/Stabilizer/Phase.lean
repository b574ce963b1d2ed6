import QuantumRegister.Proofs.Stabilizer.Tableau
import QuantumRegister.Stabilizer.Amplitude

/-!
The phase with which the circuit of a form carries a basis state back. The phase of a sum of bit
strings is the sum of the phases, up to the sign that exchanging the carried operators costs; this
law and the phases of single bits determine it.
-/

set_option autoImplicit false

namespace QuantumRegister.Form

open Matrix

variable {R : Type} {n : ℕ}

/-! Bits as exponents of the imaginary unit. -/

def lift (z : ZMod 2) : ZMod 4 := z.val

def twice (z : ZMod 2) : ZMod 4 := lift z + lift z

@[simp] theorem lift_zero : lift 0 = 0 := rfl

@[simp] theorem lift_one : lift 1 = 1 := rfl

@[simp] theorem twice_zero : twice 0 = 0 := rfl

@[simp] theorem twice_one : twice 1 = 2 := rfl

theorem twice_add (a b : ZMod 2) : twice (a + b) = twice a + twice b := by
  revert a b
  decide

theorem twice_double (a : ZMod 2) : twice a + twice a = 0 := by
  revert a
  decide

theorem lift_add (a b : ZMod 2) : lift (a + b) = lift a + lift b + twice (a * b) := by
  revert a b
  decide

theorem twice_cast (k : ℕ) : twice (k : ZMod 2) = 2 * (k : ZMod 4) := by
  induction k with
  | zero => rfl
  | succ k ih =>
      push_cast
      rw [twice_add, ih, mul_add]
      rfl

theorem bit_cases (z : ZMod 2) : z = 0 ∨ z = 1 := by
  revert z
  decide

/-! The operators carried for the first `k` qubits. -/

def upto (k : ℕ) (x : Fin n → ZMod 2) : Fin n → ZMod 2 := fun p => if (p : ℕ) < k then x p else 0

def ownPhase (n : ℕ) (c : Form R) (p : Fin n) : ZMod 4 :=
  exponent c.gamma p + twice (table n c.m p ⬝ᵥ table n c.f p)

def partialPhase (n : ℕ) (c : Form R) (x : Fin n → ZMod 2) : ℕ → ZMod 4
  | 0 => 0
  | k + 1 => partialPhase n c x k + if inside : k < n then
      if x ⟨k, inside⟩ = 0 then 0
      else exponent c.gamma k + twice (table n c.m ⟨k, inside⟩ ⬝ᵥ (upto (k + 1) x ᵥ* table n c.f))
    else 0

def phase (n : ℕ) (c : Form R) (x : Fin n → ZMod 2) : ZMod 4 := partialPhase n c x n

theorem upto_zero (x : Fin n → ZMod 2) : upto 0 x = 0 := by
  funext p
  simp [upto]

theorem upto_all (x : Fin n → ZMod 2) : upto n x = x := by
  funext p
  simp [upto]

theorem upto_add (k : ℕ) (x y : Fin n → ZMod 2) : upto k (x + y) = upto k x + upto k y := by
  funext p
  simp only [upto, Pi.add_apply]
  split <;> simp

theorem upto_succ (x : Fin n → ZMod 2) (k : Fin n) : upto (k + 1) x = upto k x + Pi.single k (x k) := by
  funext p
  simp only [upto, Pi.add_apply]
  by_cases same : p = k
  · subst same
    simp
  · have apart : (p : ℕ) ≠ k := fun equal => same (Fin.ext equal)
    rw [Pi.single_eq_of_ne same, add_zero]
    exact if_congr (by omega) rfl rfl

theorem partial_phase_succ (c : Form R) (x : Fin n → ZMod 2) (k : Fin n) :
    partialPhase n c x (k + 1) = partialPhase n c x k
      + if x k = 0 then 0 else ownPhase n c k + twice (table n c.m k ⬝ᵥ (upto k x ᵥ* table n c.f)) := by
  rw [partialPhase, dif_pos k.isLt]
  rcases bit_cases (x k) with unset | set
  · simp [unset]
  · rw [if_neg (by rw [set]; decide), if_neg (by rw [set]; decide), upto_succ, set, add_vecMul, single_one_vecMul,
      dotProduct_add, twice_add, ownPhase, add_assoc, add_comm (twice (_ ⬝ᵥ (upto _ _ ᵥ* _)))]
    rfl

theorem Tableau.exchange {c : Form R} (valid : Tableau n c) (p : Fin n) (z : Fin n → ZMod 2) :
    table n c.m p ⬝ᵥ (z ᵥ* table n c.f) = (z ᵥ* table n c.m) ⬝ᵥ table n c.f p := by
  have left : table n c.m p ⬝ᵥ (z ᵥ* table n c.f) = (z ᵥ* overlap n c) p := by
    rw [overlap, ← vecMul_vecMul, vecMul_transpose]
    rfl
  have right : (z ᵥ* table n c.m) ⬝ᵥ table n c.f p = (z ᵥ* (overlap n c)ᵀ) p := by
    rw [overlap, transpose_mul, transpose_transpose, ← vecMul_vecMul, vecMul_transpose, dotProduct_comm]
    rfl
  rw [left, right, valid.symmetric]

-- The phase of each carried `X_p` makes it an involution.
theorem Tableau.square {c : Form R} (valid : Tableau n c) (p : Fin n) :
    2 * ownPhase n c p + twice (table n c.m p ⬝ᵥ table n c.f p) = 0 := by
  have own : (exponent c.gamma p : ZMod 2) = table n c.m p ⬝ᵥ table n c.f p := by
    rw [valid.parity p, overlap, dotProduct_comm]
    rfl
  have doubled : twice (table n c.m p ⬝ᵥ table n c.f p) = 2 * exponent c.gamma p := by
    rw [← own, twice_cast]
  rw [ownPhase, mul_add, ← doubled]
  linear_combination 2 * twice_double (table n c.m p ⬝ᵥ table n c.f p)

theorem partial_phase_add {c : Form R} (valid : Tableau n c) (x y : Fin n → ZMod 2) (k : ℕ) (bound : k ≤ n) :
    partialPhase n c (x + y) k = partialPhase n c x k + partialPhase n c y k
      + twice ((upto k y ᵥ* table n c.m) ⬝ᵥ (upto k x ᵥ* table n c.f)) := by
  induction k with
  | zero => simp [partialPhase, upto_zero]
  | succ k ih =>
      let p : Fin n := ⟨k, bound⟩
      have before := ih (by omega)
      have crossed := congrArg twice (valid.exchange p (upto k y))
      have square := valid.square p
      have stepSum := partial_phase_succ c (x + y) p
      have stepLeft := partial_phase_succ c x p
      have stepRight := partial_phase_succ c y p
      have shiftLeft : upto (k + 1) x ᵥ* table n c.f = upto k x ᵥ* table n c.f + x p • table n c.f p := by
        rw [show k + 1 = (p : ℕ) + 1 from rfl, upto_succ, add_vecMul, single_vecMul]
        rfl
      have shiftRight : upto (k + 1) y ᵥ* table n c.m = upto k y ᵥ* table n c.m + y p • table n c.m p := by
        rw [show k + 1 = (p : ℕ) + 1 from rfl, upto_succ, add_vecMul, single_vecMul]
        rfl
      simp only [show (p : ℕ) = k from rfl, upto_add, add_vecMul, dotProduct_add, twice_add] at stepSum stepLeft stepRight
      rw [stepSum, stepLeft, stepRight, before, shiftLeft, shiftRight]
      simp only [add_dotProduct, dotProduct_add, smul_dotProduct, dotProduct_smul, twice_add, Pi.add_apply]
      -- One case for each pair of values of the new bit.
      rcases bit_cases (x p) with hx | hx
      · rcases bit_cases (y p) with hy | hy
        · simp [hx, hy]
        · simp only [hx, hy, zero_add, one_smul, zero_smul, twice_zero, if_true, one_ne_zero, if_false]
          ring
      · rcases bit_cases (y p) with hy | hy
        · simp only [hx, hy, add_zero, one_smul, zero_smul, twice_zero, if_true, one_ne_zero, if_false]
          linear_combination crossed
        · simp only [hx, hy, show (1 + 1 : ZMod 2) = 0 from rfl, one_smul, twice_add, if_true, one_ne_zero, if_false]
          linear_combination -square - twice_double (table n c.m p ⬝ᵥ (upto k x ᵥ* table n c.f))
            - twice_double (table n c.m p ⬝ᵥ (upto k y ᵥ* table n c.f)) + crossed

theorem phase_zero (c : Form R) : phase n c 0 = 0 := by
  have always : ∀ k, partialPhase n c 0 k = 0 := by
    intro k
    induction k with
    | zero => rfl
    | succ k ih => simp [partialPhase, ih]
  exact always n

theorem phase_add {c : Form R} (valid : Tableau n c) (x y : Fin n → ZMod 2) :
    phase n c (x + y) = phase n c x + phase n c y + twice ((y ᵥ* table n c.m) ⬝ᵥ (x ᵥ* table n c.f)) := by
  simpa only [phase, upto_all] using partial_phase_add valid x y n le_rfl

theorem phase_single (c : Form R) (p : Fin n) : phase n c (Pi.single p 1) = ownPhase n c p := by
  have later : ∀ k, k ≤ n → partialPhase n c (Pi.single p 1) k = if (p : ℕ) < k then ownPhase n c p else 0 := by
    intro k bound
    induction k with
    | zero => rfl
    | succ k ih =>
        have step : partialPhase n c (Pi.single p 1) (k + 1) = _ := partial_phase_succ c (Pi.single p 1) ⟨k, bound⟩
        rw [step, ih (by omega)]
        by_cases same : (⟨k, bound⟩ : Fin n) = p
        · subst same
          have nothing : upto k (Pi.single (⟨k, bound⟩ : Fin n) (1 : ZMod 2)) = 0 := by
            funext q
            simp only [upto, Pi.zero_apply]
            split
            · rename_i below
              exact Pi.single_eq_of_ne (fun equal => by simp [equal] at below) _
            · rfl
          simp [nothing]
        · have apart : (p : ℕ) ≠ k := fun equal => same (Fin.ext equal.symm)
          rw [Pi.single_eq_of_ne same, if_pos rfl, add_zero]
          exact if_congr (by omega) rfl rfl
  rw [phase, later n le_rfl, if_pos p.isLt]

theorem phase_add_single {c : Form R} (valid : Tableau n c) (x : Fin n → ZMod 2) (p : Fin n) :
    phase n c (x + Pi.single p 1)
      = phase n c x + ownPhase n c p + twice (table n c.m p ⬝ᵥ (x ᵥ* table n c.f)) := by
  rw [phase_add valid, phase_single, single_one_vecMul]
  rfl

-- A function with the law of the phase of a form is that phase.
theorem phase_unique {c : Form R} (valid : Tableau n c) (h : (Fin n → ZMod 2) → ZMod 4) (start : h 0 = 0)
    (law : ∀ x p, h (x + Pi.single p 1) = h x + ownPhase n c p + twice (table n c.m p ⬝ᵥ (x ᵥ* table n c.f)))
    (x : Fin n → ZMod 2) : phase n c x = h x := by
  have grown : ∀ s : Finset (Fin n), phase n c (∑ p ∈ s, Pi.single p (x p)) = h (∑ p ∈ s, Pi.single p (x p)) := by
    intro s
    induction s using Finset.induction_on with
    | empty => rw [Finset.sum_empty, phase_zero, start]
    | insert p s absent ih =>
        rw [Finset.sum_insert absent, add_comm]
        rcases bit_cases (x p) with unset | set
        · rw [unset, Pi.single_zero, add_zero, ih]
        · rw [set, phase_add_single valid, law, ih]
  have whole : ∑ p, Pi.single p (x p) = x := Finset.univ_sum_single x
  simpa only [whole] using grown Finset.univ

end QuantumRegister.Form
