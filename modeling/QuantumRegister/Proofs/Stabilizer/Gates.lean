import QuantumRegister.Proofs.Stabilizer.Recombine

/-!
What each gate does to the wave of a form.
-/

set_option autoImplicit false

namespace QuantumRegister.Form

open Matrix

variable {n : ℕ}

/-! Gates that only change the circuit. -/

theorem wave_applyS {c : Form ℝ} (valid : Tableau n c) (q : Fin n) (x : Fin n → ZMod 2) :
    wave n (c.applyS q) x = iPow (lift (x q)) * wave n c x := by
  have kept : wave n (c.applyS q) x
      = c.omega.toComplex * (iPow (phase n (c.applyS q) x) * layer (fun j => flag c.v j) (row n c.s) (x ᵥ* table n c.f)) := rfl
  rw [kept, phase_applyS valid, iPow_add, wave]
  ring

theorem wave_applyZ {c : Form ℝ} (valid : Tableau n c) (q : Fin n) (x : Fin n → ZMod 2) :
    wave n (c.applyZ q) x = sgn (x q) * wave n c x := by
  have double : lift (x q) + lift (x q) = twice (x q) := rfl
  rw [applyZ, wave_applyS (valid.applyS q), wave_applyS valid, ← mul_assoc, ← iPow_add, double, iPow_twice]

theorem wave_applyCZ {c : Form ℝ} (valid : Tableau n c) (a b : Fin n) (different : a ≠ b) (x : Fin n → ZMod 2) :
    wave n (c.applyCZ a b) x = sgn (x a * x b) * wave n c x := by
  have kept : wave n (c.applyCZ a b) x
      = c.omega.toComplex * (iPow (phase n (c.applyCZ a b) x) * layer (fun j => flag c.v j) (row n c.s) (x ᵥ* table n c.f)) :=
    rfl
  rw [kept, phase_applyCZ valid a b different, iPow_add, iPow_twice, wave]
  ring

theorem wave_applyCX {c : Form ℝ} (valid : Tableau n c) (a b : Fin n) (different : a ≠ b) (x : Fin n → ZMod 2) :
    wave n (c.applyCX a b) x = wave n c (x + Pi.single b (x a)) := by
  rw [wave, phase_applyCX valid a b different, carry_applyCX c a b x valid.width]
  rfl

theorem wave_applySwap {c : Form ℝ} (valid : Tableau n c) (a b : Fin n) (different : a ≠ b) (x : Fin n → ZMod 2) :
    wave n (c.applySwap a b) x = wave n c (x ∘ Equiv.swap a b) := by
  have first := valid.applyCX a b different
  have second := first.applyCX b a different.symm
  rw [applySwap, wave_applyCX second a b different, wave_applyCX first b a different.symm,
    wave_applyCX valid a b different]
  refine congrArg (wave n c) ?_
  have double := CharTwo.two_eq_zero (R := ZMod 2)
  funext j
  by_cases atFirst : j = a
  · subst atFirst
    simp only [Function.comp_apply, Equiv.swap_apply_left, Pi.add_apply, Pi.single_eq_same, Pi.single_eq_of_ne different]
    linear_combination x j * double
  · by_cases atSecond : j = b
    · subst atSecond
      simp only [Function.comp_apply, Equiv.swap_apply_right, Pi.add_apply, Pi.single_eq_same,
        Pi.single_eq_of_ne atFirst, Pi.single_eq_of_ne different]
      linear_combination (x a + x j) * double
    · simp [atFirst, atSecond, Equiv.swap_apply_of_ne_of_ne atFirst atSecond]

/-! A Hadamard gate splits into the two operators it adds, each of which moves the basis state. -/

theorem layer_signed (v : Fin n → Bool) (s s' z z' a : Fin n → ZMod 2)
    (same : ∀ j, cell (v j) (s j) (z j) = sgn (a j) * cell (v j) (s' j) (z' j)) :
    layer v s z = sgn (∑ j, a j) * layer v s' z' := by
  rw [sgn_sum, layer, layer, ← Finset.prod_mul_distrib]
  exact Finset.prod_congr rfl fun j _ => same j

theorem cell_sign (v : Bool) (g s z : ZMod 2) :
    cell v s z = sgn (g * z + g * gf (!v) * s) * cell v (s + g * gf v) z := by
  cases v with
  | true =>
      simp only [Bool.not_true, gf_false, gf_true, mul_one, mul_zero, zero_mul, add_zero, cell_layer, mul_add, sgn_add]
      rw [mul_comm g z]
      linear_combination -(sgn (z * s) * root) * sgn_square (z * g)
  | false =>
      simp only [Bool.not_false, gf_false, gf_true, mul_one, mul_zero, add_zero, cell_plain]
      by_cases same : z = s
      · rw [same, add_self_two, sgn_zero, one_mul]
      · rw [if_neg same, mul_zero]

theorem cell_flip (v : Bool) (f m s z : ZMod 2) :
    cell v s (z + f)
      = sgn (m * f + m * z + m * gf (!v) * s + f * gf v * m + f * gf v * s) * cell v (s + f * gf (!v) + m * gf v) z := by
  cases v with
  | true =>
      simp only [Bool.not_true, gf_false, gf_true, mul_one, mul_zero, zero_mul, add_zero, cell_layer, mul_add, add_mul,
        sgn_add]
      rw [mul_comm m z, mul_comm m f]
      linear_combination -(sgn (z * s) * sgn (f * s) * root)
        * (sgn (z * m) * sgn (z * m) * sgn_square (f * m) + sgn_square (z * m))
  | false =>
      simp only [Bool.not_false, gf_false, gf_true, mul_one, mul_zero, zero_mul, add_zero, cell_plain]
      by_cases same : z = s + f
      · have back : z + f = s := by rw [same, add_assoc, add_self_two, add_zero]
        have even : m * f + m * z + m * s = 0 := by
          rw [← back]
          linear_combination m * (f + z) * CharTwo.two_eq_zero (R := ZMod 2)
        rw [if_pos same, if_pos back, even, sgn_zero, one_mul]
      · have apart : z + f ≠ s := fun equal => same (by rw [← equal, add_assoc, add_self_two, add_zero])
        rw [if_neg same, if_neg apart, mul_zero]

-- A product of `Z` over the places of `g` moves the basis state inside the layer.
theorem layer_kept (v : Fin n → Bool) (g s z : Fin n → ZMod 2) :
    sgn (g ⬝ᵥ z) * layer v s z
      = sgn (∑ j, g j * gf (!v j) * s j) * layer v (fun j => s j + g j * gf (v j)) z := by
  have signed := layer_signed v s (fun j => s j + g j * gf (v j)) z z (fun j => g j * z j + g j * gf (!v j) * s j)
    fun j => cell_sign (v j) (g j) (s j) (z j)
  have back := sgn_square (g ⬝ᵥ z)
  rw [signed, Finset.sum_add_distrib, sgn_add, ← dotProduct]
  linear_combination (sgn (∑ j, g j * gf (!v j) * s j) * layer v (fun j => s j + g j * gf (v j)) z) * back

-- A product of `X` over the places of `f` and `Z` over those of `m` moves it outside as well.
theorem layer_moved (v : Fin n → Bool) (f m s z : Fin n → ZMod 2) :
    sgn (m ⬝ᵥ f) * sgn (m ⬝ᵥ z) * layer v s (z + f)
      = sgn ((∑ j, m j * gf (!v j) * s j) + (∑ j, f j * gf (v j) * m j) + ∑ j, f j * gf (v j) * s j)
        * layer v (fun j => s j + f j * gf (!v j) + m j * gf (v j)) z := by
  have signed := layer_signed v s (fun j => s j + f j * gf (!v j) + m j * gf (v j)) (z + f) z
    (fun j => m j * f j + m j * z j + m j * gf (!v j) * s j + f j * gf (v j) * m j + f j * gf (v j) * s j)
    fun j => cell_flip (v j) (f j) (m j) (s j) (z j)
  have firstBack := sgn_square (m ⬝ᵥ f)
  have secondBack := sgn_square (m ⬝ᵥ z)
  rw [signed]
  simp only [Finset.sum_add_distrib, sgn_add]
  rw [← dotProduct, ← dotProduct]
  set rest := layer v (fun j => s j + f j * gf (!v j) + m j * gf (v j)) z
  set first := sgn (∑ j, m j * gf (!v j) * s j)
  set second := sgn (∑ j, f j * gf (v j) * m j)
  set third := sgn (∑ j, f j * gf (v j) * s j)
  linear_combination first * second * third * rest
    * (sgn (m ⬝ᵥ z) * sgn (m ⬝ᵥ z) * firstBack + secondBack)

theorem power_mod (g a : ℕ) : Complex.I ^ ((g + 2 * a) % 4) = iPow g * sgn (a : ZMod 2) := by
  rw [← iPow_twice, twice_cast, ← iPow_add, ← iPow_cast, ZMod.natCast_mod]
  push_cast
  rfl

theorem wave_applyH {c : Form ℝ} (valid : Tableau n c) (q : Fin n) (x : Fin n → ZMod 2) :
    wave n (c.applyH q) x = root * (wave n c (x + Pi.single q 1) + sgn (x q) * wave n c x) := by
  have width := valid.width
  have kept := layer_kept (fun j => flag c.v j) (table n c.g q) (row n c.s) (x ᵥ* table n c.f)
  have moved := layer_moved (fun j => flag c.v j) (table n c.f q) (table n c.m q) (row n c.s) (x ᵥ* table n c.f)
  rw [valid.read] at kept
  have alpha : (count c.n (fun j => bit c.g q j && !flag c.v j && flag c.s j) : ZMod 2)
      = ∑ j, table n c.g q j * gf (!flag c.v j) * row n c.s j := by
    subst width
    simp only [count_parity, gf_and]
    rfl
  have beta : ((count c.n (fun j => bit c.m q j && !flag c.v j && flag c.s j)
        + count c.n (fun j => bit c.f q j && flag c.v j && bit c.m q j)
        + count c.n (fun j => bit c.f q j && flag c.v j && flag c.s j) : ℕ) : ZMod 2)
      = (∑ j, table n c.m q j * gf (!flag c.v j) * row n c.s j) + (∑ j, table n c.f q j * gf (flag c.v j) * table n c.m q j)
        + ∑ j, table n c.f q j * gf (flag c.v j) * row n c.s j := by
    subst width
    push_cast
    simp only [count_parity, gf_and]
    rfl
  have keptRow : row n (line c.n fun j => flag c.s j ^^ (bit c.g q j && flag c.v j))
      = fun j => row n c.s j + table n c.g q j * gf (flag c.v j) := by
    subst width
    funext j
    rw [row_line, gf_xor, gf_and]
    rfl
  have movedRow : row n (line c.n fun j => flag c.s j ^^ (bit c.f q j && !flag c.v j) ^^ (bit c.m q j && flag c.v j))
      = fun j => row n c.s j + table n c.f q j * gf (!flag c.v j) + table n c.m q j * gf (flag c.v j) := by
    subst width
    funext j
    rw [row_line, gf_xor, gf_xor, gf_and, gf_and]
    rfl
  simp only [applyH]
  rw [wave_recombine valid _ _ _ (Nat.mod_lt _ (by norm_num)) _ (by simp [width]) (by simp [width]), power_mod, gf_nat,
    image, image, keptRow, movedRow]
  push_cast [alpha] at alpha beta ⊢
  rw [alpha, beta, sgn_add]
  simp only [wave]
  rw [phase_add_single valid, add_vecMul, carry_single, ownPhase, iPow_add, iPow_add, iPow_add, iPow_twice, iPow_twice]
  have square := sgn_square (∑ j, table n c.g q j * gf (!flag c.v j) * row n c.s j)
  set own := iPow (exponent c.gamma q)
  linear_combination root * c.omega.toComplex * iPow (phase n c x)
    * (own * (sgn ((∑ j, table n c.m q j * gf (!flag c.v j) * row n c.s j)
          + (∑ j, table n c.f q j * gf (flag c.v j) * table n c.m q j)
          + ∑ j, table n c.f q j * gf (flag c.v j) * row n c.s j)
        * layer (fun j => flag c.v j)
          (fun j => row n c.s j + table n c.f q j * gf (!flag c.v j) + table n c.m q j * gf (flag c.v j))
          (x ᵥ* table n c.f)) * square - kept - own * moved)

theorem single_twice {ι : Type} [DecidableEq ι] (x : ι → ZMod 2) (q : ι) (z : ZMod 2) :
    x + Pi.single q z + Pi.single q z = x := by
  rw [add_assoc, ← Pi.single_add, CharTwo.add_self_eq_zero, Pi.single_zero, add_zero]

theorem wave_applyX {c : Form ℝ} (valid : Tableau n c) (q : Fin n) (x : Fin n → ZMod 2) :
    wave n (c.applyX q) x = wave n c (x + Pi.single q 1) := by
  have phased := (valid.applyH q).applyZ q
  have back := single_twice x q 1
  have flipped : sgn ((x + Pi.single q 1 : Fin n → ZMod 2) q) = -sgn (x q) := by
    rw [add_single_apply, if_pos rfl, sgn_add, sgn_one, mul_neg_one]
  have square := sgn_square (x q)
  rw [applyX, wave_applyH phased, wave_applyZ (valid.applyH q), wave_applyZ (valid.applyH q), wave_applyH valid,
    wave_applyH valid, back, flipped]
  linear_combination (2 * wave n c (x + Pi.single q 1)) * root_square
    + root * root * (2 * wave n c (x + Pi.single q 1) + sgn (x q) * wave n c x) * square

theorem wave_scaled (c : Form ℝ) (z : Cplx ℝ) (x : Fin n → ZMod 2) :
    wave n { c with omega := z } x = z.toComplex * image n c c.s x := by
  rw [wave, image, phase_congr { c with omega := z } c rfl rfl rfl x]

theorem wave_applyY {c : Form ℝ} (valid : Tableau n c) (q : Fin n) (x : Fin n → ZMod 2) :
    wave n (c.applyY q) x = -(Complex.I * sgn (x q)) * wave n c (x + Pi.single q 1) := by
  have scaled : wave n (c.applyY q) x = Complex.I * wave n ((c.applyZ q).applyX q) x := by
    simp only [applyY]
    rw [wave_scaled, wave_eq_image, Cplx.toComplex_mul, Cplx.toComplex_i]
    ring
  rw [scaled, wave_applyX (valid.applyZ q), wave_applyZ valid, add_single_apply, if_pos rfl, sgn_add, sgn_one]
  ring

/-! Basis states. -/

theorem wave_zero (x : Fin n → ZMod 2) : wave n (zero n) x = if x = 0 then 1 else 0 := by
  have identity : table n (zero n : Form ℝ).f = 1 := by
    ext i j
    simp only [zero, table_square, gf_beq, Matrix.one_apply]
  have based : row n (zero n : Form ℝ).s = 0 := by
    funext j
    simp [zero]
  have unlayered : ∀ j : Fin n, flag (zero n : Form ℝ).v j = false := fun j => flag_line n _ j
  rw [wave, identity, vecMul_one, based, layer]
  simp only [unlayered, cell_plain, Pi.zero_apply]
  by_cases none : x = 0
  · subst none
    simp [phase_zero, zero]
  · obtain ⟨j, set⟩ := Function.ne_iff.mp none
    rw [if_neg none, Finset.prod_eq_zero (Finset.mem_univ j) (if_neg set), mul_zero, mul_zero]

theorem wave_basis (index : ℕ) (x : Fin n → ZMod 2) :
    wave n (basis n index) x = if x = (fun k : Fin n => gf (index.testBit (n - 1 - k))) then 1 else 0 := by
  -- After `k` qubits the state holds the first `k` bits of the position.
  have partway : ∀ k, k ≤ n → ∀ x,
      Tableau n ((List.range k).foldl (fun c k => if index.testBit (n - 1 - k) then c.applyX k else c) (zero n : Form ℝ))
        ∧ wave n ((List.range k).foldl (fun c k => if index.testBit (n - 1 - k) then c.applyX k else c) (zero n : Form ℝ)) x
          = if x = upto k (fun k : Fin n => gf (index.testBit (n - 1 - k))) then 1 else 0 := by
    intro k
    induction k with
    | zero =>
        intro _ x
        refine ⟨tableau_zero n, ?_⟩
        rw [upto_zero]
        exact wave_zero x
    | succ k ih =>
        intro bound x
        let p : Fin n := ⟨k, bound⟩
        obtain ⟨valid, before⟩ := ih (by omega) x
        have gained : upto (k + 1) (fun k : Fin n => gf (index.testBit (n - 1 - k)))
            = upto k (fun k : Fin n => gf (index.testBit (n - 1 - k))) + Pi.single p (gf (index.testBit (n - 1 - k))) :=
          upto_succ _ p
        rw [List.range_succ, List.foldl_append, List.foldl_cons, List.foldl_nil, gained]
        cases set : index.testBit (n - 1 - k) with
        | false =>
            rw [if_neg Bool.false_ne_true, gf_false, Pi.single_zero, add_zero]
            exact ⟨valid, before⟩
        | true =>
            rw [if_pos rfl, gf_true]
            refine ⟨valid.applyX p, ?_⟩
            rw [show k = (p : ℕ) from rfl, wave_applyX valid p, (ih (by omega) _).2]
            refine if_congr ⟨fun same => ?_, fun same => ?_⟩ rfl rfl
            · rw [← same, single_twice]
            · rw [same, single_twice]
  have whole := (partway n le_rfl x).2
  rwa [upto_all] at whole

end QuantumRegister.Form
