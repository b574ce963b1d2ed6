import Mathlib
import QuantumRegister.Cplx

/-!
Exact arithmetic: real numbers as scalars, and the complex numbers that pairs of them stand for.
-/

set_option autoImplicit false

namespace QuantumRegister

-- A real number has no finite text; its integer part stands for it.
noncomputable instance : Scalar ℝ where
  decLT := inferInstance
  decLE := inferInstance
  sqrt := Real.sqrt
  sin := Real.sin
  cos := Real.cos
  hypot x y := Real.sqrt (x * x + y * y)
  dyadic m e := m / 2 ^ e
  invSqrtTwo := 1 / Real.sqrt 2
  invSqrtTwoPow k := (1 / Real.sqrt 2) ^ k
  eighthTurn := Real.pi / 4
  below x := x
  plain x := toString ⌊x⌋ ++ "…"
  scientific x := toString ⌊x⌋ ++ "…"

namespace Cplx

def toComplex (z : Cplx ℝ) : ℂ := ⟨z.re, z.im⟩

theorem toComplex_injective : Function.Injective toComplex := by
  rintro ⟨a, b⟩ ⟨c, d⟩ same
  simpa [toComplex, Complex.ext_iff] using same

@[simp] theorem toComplex_zero : (0 : Cplx ℝ).toComplex = 0 := rfl

@[simp] theorem toComplex_one : (1 : Cplx ℝ).toComplex = 1 := rfl

@[simp] theorem toComplex_i : (i : Cplx ℝ).toComplex = Complex.I := rfl

@[simp] theorem toComplex_add (z w : Cplx ℝ) : (z + w).toComplex = z.toComplex + w.toComplex := rfl

@[simp] theorem toComplex_sub (z w : Cplx ℝ) : (z - w).toComplex = z.toComplex - w.toComplex := rfl

@[simp] theorem toComplex_neg (z : Cplx ℝ) : (-z).toComplex = -z.toComplex := rfl

@[simp] theorem toComplex_mul (z w : Cplx ℝ) : (z * w).toComplex = z.toComplex * w.toComplex := rfl

@[simp] theorem toComplex_conj (z : Cplx ℝ) : z.conj.toComplex = (starRingEnd ℂ) z.toComplex := rfl

@[simp] theorem toComplex_ofReal (x : ℝ) : (ofReal x).toComplex = x := rfl

@[simp] theorem toComplex_scale (z : Cplx ℝ) (x : ℝ) : (z.scale x).toComplex = z.toComplex * x := by
  apply Complex.ext
  · simp [toComplex, scale]
  · simp [toComplex, scale]

@[simp] theorem toComplex_ipow (k : ℕ) : (ipow k : Cplx ℝ).toComplex = Complex.I ^ k := by
  have period : Complex.I ^ k = Complex.I ^ (k % 4) := by
    conv_lhs => rw [← Nat.div_add_mod k 4, pow_add, pow_mul, Complex.I_pow_four, one_pow, one_mul]
  have cases : k % 4 = 0 ∨ k % 4 = 1 ∨ k % 4 = 2 ∨ k % 4 = 3 := by omega
  rw [period]
  rcases cases with rest | rest | rest | rest
  · rw [ipow, rest, pow_zero]
    rfl
  · rw [ipow, rest, pow_one]
    rfl
  · rw [ipow, rest, Complex.I_sq]
    apply Complex.ext <;> simp [toComplex]
  · rw [ipow, rest, Complex.I_pow_three]
    apply Complex.ext <;> simp [toComplex]

theorem toComplex_cis (angle : ℝ) : (cis angle).toComplex = Complex.exp (angle * Complex.I) := by
  rw [Complex.exp_mul_I, ← Complex.ofReal_cos, ← Complex.ofReal_sin]
  apply Complex.ext
  · simp [toComplex, cis, Scalar.cos, Complex.cos_ofReal_re]
  · simp [toComplex, cis, Scalar.sin, Complex.sin_ofReal_re]

theorem toComplex_normSq (z : Cplx ℝ) : z.normSq = Complex.normSq z.toComplex := rfl

end Cplx

theorem invSqrtTwo_square : ((Scalar.invSqrtTwo : ℝ) : ℂ) * ((Scalar.invSqrtTwo : ℝ) : ℂ) = 1 / 2 := by
  have value : (Scalar.invSqrtTwo : ℝ) = 1 / Real.sqrt 2 := rfl
  rw [value, ← Complex.ofReal_mul, div_mul_div_comm, one_mul, Real.mul_self_sqrt zero_le_two]
  norm_num

theorem normSq_invSqrtTwo : Complex.normSq ((Scalar.invSqrtTwo : ℝ) : ℂ) = 1 / 2 := by
  have square : (Complex.normSq ((Scalar.invSqrtTwo : ℝ) : ℂ) : ℂ) = ((1 / 2 : ℝ) : ℂ) := by
    rw [← Complex.mul_conj, Complex.conj_ofReal, invSqrtTwo_square]
    norm_num
  exact_mod_cast square

@[simp] theorem sign_real (negative : Bool) : (Scalar.sign negative : ℝ) = if negative then -1 else 1 := rfl

end QuantumRegister
