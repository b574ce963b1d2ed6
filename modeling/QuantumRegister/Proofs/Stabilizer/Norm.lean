import QuantumRegister.Proofs.Stabilizer.Gates
import QuantumRegister.Proofs.Stabilizer.Reachable

/-!
The norm of a form. Circuit and Hadamard layer preserve it, so it is that of the scalar alone, and a
gate turns the scalar by an eighth root of unity.
-/

set_option autoImplicit false

namespace QuantumRegister.Form

open Matrix

variable {n : ℕ}

/-! Lengths of the factors. -/

theorem normSq_sgn (z : ZMod 2) : Complex.normSq (sgn z) = 1 := by
  rcases bit_cases z with rfl | rfl <;> simp

theorem normSq_power (k : ℕ) : Complex.normSq (Complex.I ^ k) = 1 := by
  rw [map_pow, Complex.normSq_I, one_pow]

theorem normSq_root : Complex.normSq root = 1 / 2 := normSq_invSqrtTwo

theorem normSq_cell (v : Bool) (s : ZMod 2) : ∑ z, Complex.normSq (cell v s z) = 1 := by
  cases v with
  | true =>
      simp only [cell_layer, map_mul, normSq_sgn, normSq_root, one_mul, Finset.sum_const, Finset.card_univ, ZMod.card]
      norm_num
  | false =>
      simp only [cell_plain]
      rw [Finset.sum_eq_single s]
      · simp
      · intro z _ apart
        rw [if_neg apart, map_zero]
      · intro absent
        exact absurd (Finset.mem_univ s) absent

theorem normSq_layer (v : Fin n → Bool) (s : Fin n → ZMod 2) :
    ∑ z : Fin n → ZMod 2, Complex.normSq (layer v s z) = 1 := by
  calc ∑ z : Fin n → ZMod 2, Complex.normSq (layer v s z)
      = ∑ z : Fin n → ZMod 2, ∏ j, Complex.normSq (cell (v j) (s j) (z j)) := by simp only [layer, map_prod]
    _ = ∏ j, ∑ z, Complex.normSq (cell (v j) (s j) z) :=
        (Fintype.prod_sum fun j z => Complex.normSq (cell (v j) (s j) z)).symm
    _ = 1 := Finset.prod_eq_one fun j _ => normSq_cell (v j) (s j)

def carriedTo {c : Form ℝ} (valid : Tableau n c) : Equiv.Perm (Fin n → ZMod 2) where
  toFun x := x ᵥ* table n c.f
  invFun z := z ᵥ* (table n c.g)ᵀ
  left_inv x := by simp only [vecMul_vecMul, valid.dual_transpose, vecMul_one]
  right_inv z := by simp only [vecMul_vecMul, mul_eq_one_comm.mp valid.dual_transpose, vecMul_one]

noncomputable def total (w : (Fin n → ZMod 2) → ℂ) : ℝ := ∑ x, Complex.normSq (w x)

theorem total_wave {c : Form ℝ} (valid : Tableau n c) : total (wave n c) = Complex.normSq c.omega.toComplex := by
  have factored : ∀ x, Complex.normSq (wave n c x) = Complex.normSq c.omega.toComplex
      * Complex.normSq (layer (fun j => flag c.v j) (row n c.s) (carriedTo valid x)) := by
    intro x
    rw [wave, map_mul, map_mul, iPow, normSq_power, one_mul]
    rfl
  rw [total, Finset.sum_congr rfl fun x _ => factored x, ← Finset.mul_sum,
    Equiv.sum_comp (carriedTo valid) fun z => Complex.normSq (layer (fun j => flag c.v j) (row n c.s) z), normSq_layer,
    mul_one]

/-! Eighth roots of unity. -/

theorem normSq_of_eighth (z : ℂ) (eighth : z ^ 8 = 1) : Complex.normSq z = 1 := by
  rw [Complex.normSq_eq_norm_sq, Complex.norm_eq_one_of_pow_eq_one eighth (by norm_num), one_pow]

theorem eighth_sgn (z : ZMod 2) : sgn z ^ 8 = 1 := by
  rcases bit_cases z with rfl | rfl <;> norm_num

theorem eighth_power (k : ℕ) : (Complex.I ^ k) ^ 8 = 1 := by
  rw [← pow_mul, mul_comm, pow_mul, show 8 = 4 * 2 from rfl, pow_mul, Complex.I_pow_four, one_pow, one_pow]

-- An odd power of the imaginary unit, added to one, points between the axes.
theorem eighth_odd (k : ℕ) (odd : k % 2 = 1) : (root * (1 + Complex.I ^ k)) ^ 8 = 1 := by
  have twofold : (Complex.I ^ k) ^ 2 = -1 := by
    rw [← pow_mul, mul_comm, pow_mul, Complex.I_sq, Odd.neg_one_pow (Nat.odd_iff.mpr odd)]
  have square : (root * (1 + Complex.I ^ k)) ^ 2 = Complex.I ^ k := by
    linear_combination (1 + Complex.I ^ k) ^ 2 * root_square + 1 / 2 * twofold
  calc (root * (1 + Complex.I ^ k)) ^ 8 = ((root * (1 + Complex.I ^ k)) ^ 2) ^ 4 := by ring
    _ = ((Complex.I ^ k) ^ 2) ^ 2 := by rw [square]; ring
    _ = 1 := by rw [twofold]; norm_num

theorem eighth_reduce (v y : Bool) (delta : ℕ) (lower : delta < 4) :
    (reduce v y delta : Reduced ℝ).scalar.toComplex ^ 8 = 1 := by
  have right : (root * (1 + Complex.I)) ^ 8 = 1 := by simpa using eighth_odd 1 rfl
  have left : (root * (1 - Complex.I)) ^ 8 = 1 := by simpa [Complex.I_pow_three, ← sub_eq_add_neg] using eighth_odd 3 rfl
  have unset : ∀ delta < 4, (reduce v false delta : Reduced ℝ).scalar.toComplex ^ 8 = 1 := by
    intro delta lower
    cases v with
    | false => simp [reduce]
    | true => interval_cases delta <;> simp [reduce, cis_eighth, cis_neg_eighth, left, right]
  cases y with
  | false => exact unset delta lower
  | true =>
      rw [(reduce_true v delta lower).1, mul_pow, eighth_power, one_mul]
      exact unset _ (Nat.mod_lt _ (by norm_num))

/-! Scalars that differ by an eighth root of unity. -/

def Turned (c d : Form ℝ) : Prop := ∃ z : ℂ, z ^ 8 = 1 ∧ d.omega.toComplex = c.omega.toComplex * z

theorem turned_of_same {c d : Form ℝ} (same : d.omega = c.omega) : Turned c d := ⟨1, one_pow 8, by rw [same, mul_one]⟩

theorem Turned.trans {c d e : Form ℝ} (first : Turned c d) (second : Turned d e) : Turned c e := by
  obtain ⟨z, zEighth, moved⟩ := first
  obtain ⟨w, wEighth, further⟩ := second
  exact ⟨z * w, by rw [mul_pow, zEighth, wEighth, one_mul], by rw [further, moved, mul_assoc]⟩

theorem turned_recombine {c : Form ℝ} (valid : Tableau n c) (t u : Array Bool) (delta : ℕ) (lower : delta < 4) (alpha : Bool)
    (tSize : t.size = n) (uSize : u.size = n) (different : t ≠ u) : Turned c (c.recombine t u delta alpha) := by
  obtain ⟨q, pivot, ⟨⟨_, _, scalar⟩, _, _⟩⟩ := valid.gathered t u tSize uSize different
  rw [recombine_of_ne c (c.gather t u).2 t u q delta alpha different (by rw [← pivot])]
  set r : Reduced ℝ := reduce _ _ delta with found
  have eighth : r.scalar.toComplex ^ 8 = 1 := by rw [found, eighth_reduce _ _ delta lower]
  refine ⟨r.scalar.toComplex * sgn (gf alpha), by rw [mul_pow, eighth, eighth_sgn, one_mul], ?_⟩
  rw [← scalar]
  simp only [Form.settle]
  cases r.phase <;> simp [Form.rightS, sign_cast]

/-! A Hadamard gate adds the image of a `Z` and the image of an `X`. -/

section Branches

variable {R : Type}

def signedBase (c : Form R) (q : ℕ) : Array Bool := line c.n fun j => flag c.s j ^^ (bit c.g q j && flag c.v j)

def flippedBase (c : Form R) (q : ℕ) : Array Bool :=
  line c.n fun j => flag c.s j ^^ (bit c.f q j && !flag c.v j) ^^ (bit c.m q j && flag c.v j)

-- Signs that the `Z` reads off the basis state, and those that the `X` picks up.
def ones (c : Form R) (q : ℕ) : ℕ := count c.n fun j => bit c.g q j && !flag c.v j && flag c.s j

def crossings (c : Form R) (q : ℕ) : ℕ :=
  count c.n (fun j => bit c.m q j && !flag c.v j && flag c.s j)
    + count c.n (fun j => bit c.f q j && flag c.v j && bit c.m q j)
    + count c.n (fun j => bit c.f q j && flag c.v j && flag c.s j)

def quarters (c : Form R) (q : ℕ) : ℕ := (exponent c.gamma q + 2 * (ones c q + crossings c q)) % 4

theorem applyH_eq [Scalar R] (c : Form R) (q : ℕ) :
    c.applyH q = c.recombine (c.signedBase q) (c.flippedBase q) (c.quarters q) (c.ones q % 2 == 1) := rfl

-- Where the two images agree, `f` and `m` meet in the places where `f` and `g` do, an odd number of them.
theorem quarters_odd {c : Form R} (valid : Tableau n c) (q : Fin n) (same : c.signedBase q = c.flippedBase q) :
    c.quarters q % 2 = 1 := by
  have width := valid.width
  have meets : ∀ j : Fin n, table n c.f q j * table n c.m q j = table n c.g q j * table n c.f q j := by
    subst width
    intro j
    have entry := congrArg (fun t => flag t j) same
    simp only [signedBase, flippedBase, flag_line] at entry
    simp only [table, ← gf_and]
    refine congrArg gf ?_
    revert entry
    cases flag c.s j <;> cases bit c.g q j <;> cases bit c.f q j <;> cases bit c.m q j <;> cases flag c.v j <;> decide
  have odd : (exponent c.gamma q : ZMod 2) = 1 := by
    calc (exponent c.gamma q : ZMod 2) = ∑ j, table n c.f q j * table n c.m q j := by
          rw [valid.parity q, overlap, Matrix.mul_apply]
          rfl
      _ = ∑ j, table n c.g q j * table n c.f q j := Finset.sum_congr rfl fun j _ => meets j
      _ = (table n c.g * (table n c.f)ᵀ) q q := rfl
      _ = 1 := by rw [valid.dual, Matrix.one_apply_eq]
  have counted : exponent c.gamma q % 2 = 1 := by
    rw [← Nat.cast_one, ZMod.natCast_eq_natCast_iff'] at odd
    exact odd
  rw [quarters]
  omega

end Branches

theorem omega_recombine_same (c : Form ℝ) (t u : Array Bool) (delta : ℕ) (alpha : Bool) (same : t = u) :
    (c.recombine t u delta alpha).omega.toComplex
      = c.omega.toComplex * (sgn (gf alpha) * (root * (1 + Complex.I ^ delta))) := by
  rw [recombine, if_pos same]
  simp only [Cplx.toComplex_mul, Cplx.toComplex_scale, Cplx.toComplex_add, Cplx.toComplex_one, Cplx.toComplex_ipow,
    Complex.ofReal_mul, sign_real, sign_cast]
  rw [← root]
  ring

theorem turned_applyH {c : Form ℝ} (valid : Tableau n c) (q : Fin n) : Turned c (c.applyH q) := by
  have width := valid.width
  rw [applyH_eq]
  by_cases same : c.signedBase q = c.flippedBase q
  · refine ⟨sgn (gf (c.ones q % 2 == 1)) * (root * (1 + Complex.I ^ c.quarters q)), ?_, ?_⟩
    · rw [mul_pow, eighth_sgn, one_mul, eighth_odd _ (quarters_odd valid q same)]
    · exact omega_recombine_same c _ _ _ _ same
  · exact turned_recombine valid _ _ _ (Nat.mod_lt _ (by norm_num)) _ (by simp [signedBase, width])
      (by simp [flippedBase, width]) same

theorem turned_applyX {c : Form ℝ} (valid : Tableau n c) (q : Fin n) : Turned c (c.applyX q) := by
  have signed : Turned (c.applyH q) ((c.applyH q).applyZ q) := turned_of_same rfl
  exact ((turned_applyH valid q).trans signed).trans (turned_applyH ((valid.applyH q).applyZ q) q)

theorem turned_applyY {c : Form ℝ} (valid : Tableau n c) (q : Fin n) : Turned c (c.applyY q) := by
  have signed : Turned c (c.applyZ q) := turned_of_same rfl
  have flipped : Turned ((c.applyZ q).applyX q) (c.applyY q) := ⟨Complex.I, by simp, rfl⟩
  exact (signed.trans (turned_applyX (valid.applyZ q) q)).trans flipped

theorem turned_apply {c : Form ℝ} (valid : Tableau n c) (k : Generator ℕ) (fits : c.fits k = true) : Turned c (c.apply k) := by
  have width := valid.width
  cases k with
  | h q => exact turned_applyH valid ⟨q, by simpa [Form.fits, Generator.labels, width] using fits⟩
  | s q => exact turned_of_same rfl
  | x q => exact turned_applyX valid ⟨q, by simpa [Form.fits, Generator.labels, width] using fits⟩
  | y q => exact turned_applyY valid ⟨q, by simpa [Form.fits, Generator.labels, width] using fits⟩
  | z q => exact turned_of_same rfl
  | cx a b => exact turned_of_same rfl
  | cz a b => exact turned_of_same rfl

theorem turned_basis (n index : ℕ) : Turned (zero n) (basis n index) := by
  have start : Tableau n (zero n : Form ℝ) ∧ Turned (zero n) (zero n) := ⟨tableau_zero n, turned_of_same rfl⟩
  refine (List.foldlRecOn (motive := fun c : Form ℝ => Tableau n c ∧ Turned (zero n) c) (List.range n) _ start
    fun c held k member => ?_).2
  obtain ⟨valid, turned⟩ := held
  let q : Fin n := ⟨k, List.mem_range.mp member⟩
  split
  · exact ⟨valid.applyX q, turned.trans (turned_applyX valid q)⟩
  · exact ⟨valid, turned⟩

/-! Scalars of length one, or zero. -/

def Normal (c : Form ℝ) : Prop := c.omega.toComplex = 0 ∨ Complex.normSq c.omega.toComplex = 1

theorem Normal.scaled {c d : Form ℝ} (normal : Normal c) (z : ℂ) (one : Complex.normSq z = 1)
    (scaled : d.omega.toComplex = c.omega.toComplex * z) : Normal d := by
  rcases normal with zero | length
  · left
    rw [scaled, zero, zero_mul]
  · right
    rw [scaled, map_mul, length, one, one_mul]

theorem Normal.turned {c d : Form ℝ} (normal : Normal c) (turned : Turned c d) : Normal d := by
  obtain ⟨z, eighth, scaled⟩ := turned
  exact normal.scaled z (normSq_of_eighth z eighth) scaled

end QuantumRegister.Form
