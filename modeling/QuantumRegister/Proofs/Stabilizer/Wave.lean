import QuantumRegister.Proofs.Exact
import QuantumRegister.Proofs.Stabilizer.Phase

/-!
The amplitudes of a form as a product: the scalar, the phase of the circuit, and one factor for each
qubit of the Hadamard layer and the basis state behind it.
-/

set_option autoImplicit false

namespace QuantumRegister.Form

open Matrix

/-! Powers of the imaginary unit and signs, by exponents that count modulo four and two. -/

noncomputable def iPow (k : ZMod 4) : ℂ := Complex.I ^ k.val

noncomputable def sgn (z : ZMod 2) : ℂ := if z = 0 then 1 else -1

@[simp] theorem iPow_zero : iPow 0 = 1 := pow_zero _

@[simp] theorem sgn_zero : sgn 0 = 1 := rfl

@[simp] theorem sgn_one : sgn 1 = -1 := rfl

theorem iPow_cast (k : ℕ) : iPow k = Complex.I ^ k := by
  rw [iPow, ZMod.val_natCast]
  conv_rhs => rw [← Nat.div_add_mod k 4, pow_add, pow_mul, Complex.I_pow_four, one_pow, one_mul]

theorem iPow_add (a b : ZMod 4) : iPow (a + b) = iPow a * iPow b := by
  rw [← ZMod.natCast_zmod_val a, ← ZMod.natCast_zmod_val b, ← Nat.cast_add, iPow_cast, iPow_cast, iPow_cast, pow_add]

theorem iPow_twice (z : ZMod 2) : iPow (twice z) = sgn z := by
  rcases bit_cases z with unset | set
  · rw [unset, twice_zero, iPow_zero, sgn_zero]
  · rw [set, twice_one, sgn_one, ← Complex.I_sq]
    rfl

theorem sgn_add (a b : ZMod 2) : sgn (a + b) = sgn a * sgn b := by
  rw [← iPow_twice, twice_add, iPow_add, iPow_twice, iPow_twice]

theorem sgn_square (a : ZMod 2) : sgn a * sgn a = 1 := by
  rw [← sgn_add, CharTwo.add_self_eq_zero, sgn_zero]

theorem sgn_sum {ι : Type} (s : Finset ι) (f : ι → ZMod 2) : sgn (∑ i ∈ s, f i) = ∏ i ∈ s, sgn (f i) := by
  classical
  induction s using Finset.induction_on with
  | empty => rfl
  | insert i s absent ih => rw [Finset.sum_insert absent, Finset.prod_insert absent, sgn_add, ih]

theorem sgn_gf (b : Bool) : sgn (gf b) = if b then -1 else 1 := by
  cases b <;> rfl

/-! One qubit behind the Hadamard layer. -/

noncomputable def root : ℂ := ((Scalar.invSqrtTwo : ℝ) : ℂ)

theorem root_eq : root = ((1 / Real.sqrt 2 : ℝ) : ℂ) := rfl

theorem root_square : root * root = 1 / 2 := invSqrtTwo_square

noncomputable def cell (v : Bool) (s z : ZMod 2) : ℂ := if v then sgn (z * s) * root else if z = s then 1 else 0

@[simp] theorem cell_layer (s z : ZMod 2) : cell true s z = sgn (z * s) * root := rfl

@[simp] theorem cell_plain (s z : ZMod 2) : cell false s z = if z = s then 1 else 0 := rfl

variable {n : ℕ}

noncomputable def layer (v : Fin n → Bool) (s z : Fin n → ZMod 2) : ℂ := ∏ j, cell (v j) (s j) (z j)

noncomputable def wave (n : ℕ) (c : Form ℝ) (x : Fin n → ZMod 2) : ℂ :=
  c.omega.toComplex * (iPow (phase n c x) * layer (fun j => flag c.v j) (row n c.s) (x ᵥ* table n c.f))

/-! The amplitude is read off the carried operator. -/

section Carried

variable {R : Type}

theorem row_add (c : Form R) (k : Carried) (p : Fin n) (width : c.n = n) :
    row n (k.add c p).flips = row n k.flips + table n c.f p := by
  subst width
  funext j
  simp only [Carried.add, row_line, gf_xor, Pi.add_apply]
  rfl

theorem power_add (c : Form R) (k : Carried) (p : Fin n) (width : c.n = n) :
    ((k.add c p).power : ZMod 4)
      = k.power + exponent c.gamma p + twice (table n c.m p ⬝ᵥ (row n k.flips + table n c.f p)) := by
  have flips := row_add c k p width
  have sum : (count c.n (fun j => bit c.m p j && flag (k.add c p).flips j) : ZMod 2)
      = table n c.m p ⬝ᵥ row n (k.add c p).flips := by
    subst width
    rw [count_parity, dotProduct]
    exact Finset.sum_congr rfl fun j _ => gf_and _ _
  rw [← flips, ← sum, twice_cast]
  simp only [Carried.add]
  push_cast
  rfl

def carriedUpto (c : Form R) (bits : List Bool) (k : ℕ) : Carried :=
  ((List.range k).filter fun p => bits.getD p false).foldl (Carried.add c) ⟨0, line c.n fun _ => false⟩

theorem carried_upto_spec (c : Form R) (bits : List Bool) (width : c.n = n) (k : ℕ) (bound : k ≤ n) :
    row n (carriedUpto c bits k).flips = upto k (fun p : Fin n => gf (bits.getD p false)) ᵥ* table n c.f
      ∧ ((carriedUpto c bits k).power : ZMod 4) = partialPhase n c (fun p : Fin n => gf (bits.getD p false)) k := by
  induction k with
  | zero =>
      refine ⟨?_, rfl⟩
      subst width
      funext j
      simp [carriedUpto, upto_zero]
  | succ k ih =>
      obtain ⟨flips, power⟩ := ih (by omega)
      let p : Fin n := ⟨k, bound⟩
      have step : carriedUpto c bits (k + 1)
          = if bits.getD k false then (carriedUpto c bits k).add c k else carriedUpto c bits k := by
        rw [carriedUpto, List.range_succ, List.filter_append, List.foldl_append, List.filter_singleton]
        cases bits.getD k false <;> rfl
      have shift : upto (k + 1) (fun p : Fin n => gf (bits.getD p false))
          = upto k (fun p : Fin n => gf (bits.getD p false)) + Pi.single p (gf (bits.getD k false)) := upto_succ _ p
      have advance : partialPhase n c (fun p : Fin n => gf (bits.getD p false)) (k + 1) = _ := partial_phase_succ c _ p
      rw [step, advance, shift]
      cases set : bits.getD k false with
      | false =>
          simp only [show (p : ℕ) = k from rfl, gf_false, Pi.single_zero, add_zero, Bool.false_eq_true, if_false, if_true]
          exact ⟨flips, power⟩
      | true =>
          simp only [show (p : ℕ) = k from rfl, gf_true, if_true, one_ne_zero, if_false]
          refine ⟨?_, ?_⟩
          · rw [show k = (p : ℕ) from rfl, row_add c _ p width, add_vecMul, single_one_vecMul]
            exact congrArg (· + table n c.f p) flips
          · have powers := power_add c (carriedUpto c bits k) p width
            rw [flips, power, dotProduct_add, twice_add] at powers
            refine powers.trans ?_
            rw [ownPhase]
            simp only [show (p : ℕ) = k from rfl]
            ring

theorem carried_spec (c : Form R) (bits : List Bool) (width : c.n = n) :
    row n (c.carried bits).flips = (fun p : Fin n => gf (bits.getD p false)) ᵥ* table n c.f
      ∧ ((c.carried bits).power : ZMod 4) = phase n c fun p : Fin n => gf (bits.getD p false) := by
  have whole : c.carried bits = carriedUpto c bits n := by rw [← width]; rfl
  rw [whole, phase]
  simpa only [upto_all] using carried_upto_spec c bits width n le_rfl

end Carried

theorem layer_eq_zero (v : Fin n → Bool) (s z : Fin n → ZMod 2) (j : Fin n) (free : v j = false) (apart : z j ≠ s j) :
    layer v s z = 0 := by
  refine Finset.prod_eq_zero (Finset.mem_univ j) ?_
  rw [free, cell_plain, if_neg apart]

theorem layer_eq (v : Fin n → Bool) (s z : Fin n → ZMod 2) (agree : ∀ j, v j = false → z j = s j) :
    layer v s z = sgn (∑ j, gf (v j) * (z j * s j)) * root ^ (∑ j, if v j then 1 else 0) := by
  rw [sgn_sum, ← Finset.prod_pow_eq_pow_sum, ← Finset.prod_mul_distrib]
  refine Finset.prod_congr rfl fun j _ => ?_
  cases inLayer : v j with
  | true => simp
  | false => simp [agree j inLayer]

theorem amplitude_eq_wave (c : Form ℝ) (bits : List Bool) (width : c.n = n) :
    (c.amplitude bits).toComplex = wave n c fun p : Fin n => gf (bits.getD p false) := by
  obtain ⟨flips, power⟩ := carried_spec c bits width
  set k := c.carried bits with kDef
  rw [wave, ← flips, ← power]
  simp only [amplitude, ← kDef]
  by_cases clash : ∃ j : Fin n, flag c.v j = false ∧ flag k.flips j ≠ flag c.s j
  · obtain ⟨j, free, apart⟩ := clash
    have stopped : ((List.range c.n).any fun j => !flag c.v j && flag k.flips j != flag c.s j) = true := by
      refine List.any_eq_true.mpr ⟨j, List.mem_range.mpr (width.symm ▸ j.isLt), ?_⟩
      simp [free, apart]
    rw [if_pos stopped, layer_eq_zero _ _ _ j free (fun same => apart ((gf_inj _ _).mp same)), mul_zero, mul_zero]
    rfl
  · have agree : ∀ j : Fin n, flag c.v j = false → flag k.flips j = flag c.s j := by
      intro j free
      by_contra apart
      exact clash ⟨j, free, apart⟩
    have passed : ((List.range c.n).any fun j => !flag c.v j && flag k.flips j != flag c.s j) = false := by
      refine List.any_eq_false.mpr fun j member => ?_
      cases free : flag c.v j with
      | true => simp
      | false => simp [agree ⟨j, width ▸ List.mem_range.mp member⟩ free]
    have layered := layer_eq (fun j : Fin n => flag c.v j) (row n c.s) (row n k.flips)
      (fun j free => congrArg gf (agree j free))
    have parity : (count c.n (fun j => flag c.v j && flag k.flips j && flag c.s j) : ZMod 2)
        = ∑ j : Fin n, gf (flag c.v j) * (row n k.flips j * row n c.s j) := by
      subst width
      rw [count_parity]
      refine Finset.sum_congr rfl fun j _ => ?_
      rw [gf_and, gf_and, mul_assoc]
      rfl
    have size : count c.n (flag c.v) = ∑ j : Fin n, if flag c.v j = true then 1 else 0 := by
      subst width
      exact count_eq_sum _ _
    rw [passed, layered, ← parity, ← size, ← gf_nat, sgn_gf]
    simp only [Bool.false_eq_true, if_false, Cplx.toComplex_scale, Cplx.toComplex_mul, Cplx.toComplex_ipow, sign_real]
    rw [iPow, ZMod.val_natCast, root_eq]
    have scaled : (Scalar.invSqrtTwoPow (count c.n (flag c.v)) : ℝ) = (1 / Real.sqrt 2) ^ count c.n (flag c.v) := rfl
    rw [scaled]
    split
    all_goals
      push_cast
      ring

end QuantumRegister.Form
