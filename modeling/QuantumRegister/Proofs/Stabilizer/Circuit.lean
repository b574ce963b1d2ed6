import QuantumRegister.Proofs.Stabilizer.Phase

/-!
What gates on either side of the circuit do to the phase and the place to which it carries a basis
state.
-/

set_option autoImplicit false

namespace QuantumRegister.Form

open Matrix

variable {R : Type} {n : ℕ}

theorem four_eq_zero : (4 : ZMod 4) = 0 := rfl

theorem Tableau.dual_apply {c : Form R} (valid : Tableau n c) (p q : Fin n) :
    table n c.g p ⬝ᵥ table n c.f q = if p = q then 1 else 0 := by
  have entry := congrFun (congrFun valid.dual p) q
  rwa [Matrix.one_apply] at entry

-- The rows of `Z` read the bits of a string back from where the circuit carries it.
theorem Tableau.read {c : Form R} (valid : Tableau n c) (x : Fin n → ZMod 2) (q : Fin n) :
    table n c.g q ⬝ᵥ (x ᵥ* table n c.f) = x q := by
  have carried : x ᵥ* table n c.f ᵥ* (table n c.g)ᵀ = x := by rw [vecMul_vecMul, valid.dual_transpose, vecMul_one]
  have entry := congrFun carried q
  rwa [vecMul_transpose] at entry

theorem add_single_apply (x : Fin n → ZMod 2) (p q : Fin n) :
    (x + Pi.single p 1 : Fin n → ZMod 2) q = x q + if q = p then 1 else 0 := by
  rw [Pi.add_apply, Pi.single_apply]

theorem carry_single (y : Matrix (Fin n) (Fin n) (ZMod 2)) (p : Fin n) : Pi.single p 1 ᵥ* y = y p :=
  single_one_vecMul p y

theorem vecMul_unit (x : Fin n → ZMod 2) (a b : Fin n) : x ᵥ* unit a b = Pi.single b (x a) := by
  funext j
  rw [Pi.single_apply, vecMul, dotProduct]
  simp only [unit_apply, mul_ite, mul_one, mul_zero]
  split
  · rename_i same
    simp [same]
  · rename_i apart
    simp [apart]

theorem cast_phase (k : ℕ) : ((k % 4 : ℕ) : ZMod 4) = k := ZMod.natCast_mod k 4

/-! After the circuit. -/

theorem dot_applyS (c : Form R) (q p : Fin n) (z : Fin n → ZMod 2) (width : c.n = n) :
    table n (c.applyS q).m p ⬝ᵥ z = table n c.m p ⬝ᵥ z + if p = q then table n c.g q ⬝ᵥ z else 0 := by
  have rows : table n (c.applyS q).m p = table n c.m p + if p = q then table n c.g q else 0 := by
    funext j
    rw [table_applyS c q width, Matrix.add_apply, unit_mul_apply, Pi.add_apply]
    split <;> rfl
  rw [rows, add_dotProduct]
  split
  · rfl
  · rw [zero_dotProduct]

theorem phase_applyS {c : Form R} (valid : Tableau n c) (q : Fin n) (x : Fin n → ZMod 2) :
    phase n (c.applyS q) x = phase n c x + lift (x q) := by
  refine phase_unique (valid.applyS q) (fun x => phase n c x + lift (x q)) (by rw [phase_zero]; rfl) ?_ x
  intro x p
  have width := valid.width
  have flips : table n (c.applyS q).f = table n c.f := rfl
  simp only [ownPhase, phase_add_single valid, dot_applyS c q p _ width, flips, add_single_apply, valid.read,
    valid.dual_apply]
  by_cases same : p = q
  · subst same
    have own : (exponent (c.applyS p).gamma p : ZMod 4) = exponent c.gamma p + 3 := by
      subst width
      simp only [Form.applyS, exponent_line, if_true]
      rw [cast_phase]
      push_cast
      rfl
    simp only [own, if_true, lift_add, twice_add, mul_one, twice_one, lift_one]
    linear_combination -four_eq_zero
  · have own : exponent (c.applyS q).gamma p = exponent c.gamma p := by
      have apart : (p : ℕ) ≠ q := fun equal => same (Fin.ext equal)
      subst width
      simp only [Form.applyS, exponent_line, if_neg apart]
    simp only [own, if_neg same, if_neg (Ne.symm same), add_zero]
    ring

theorem dot_applyCZ (c : Form R) (a b p : Fin n) (z : Fin n → ZMod 2) (width : c.n = n) :
    table n (c.applyCZ a b).m p ⬝ᵥ z
      = table n c.m p ⬝ᵥ z + (if p = a then table n c.g b ⬝ᵥ z else 0) + if p = b then table n c.g a ⬝ᵥ z else 0 := by
  have rows : table n (c.applyCZ a b).m p
      = table n c.m p + (if p = a then table n c.g b else 0) + if p = b then table n c.g a else 0 := by
    funext j
    rw [table_applyCZ c a b width, Matrix.add_apply, Matrix.add_mul, Matrix.add_apply, unit_mul_apply, unit_mul_apply,
      Pi.add_apply, Pi.add_apply, ← add_assoc]
    split <;> split <;> rfl
  rw [rows, add_dotProduct, add_dotProduct]
  split <;> split <;> simp only [zero_dotProduct]

theorem phase_applyCZ {c : Form R} (valid : Tableau n c) (a b : Fin n) (different : a ≠ b) (x : Fin n → ZMod 2) :
    phase n (c.applyCZ a b) x = phase n c x + twice (x a * x b) := by
  refine phase_unique (valid.applyCZ a b different) (fun x => phase n c x + twice (x a * x b))
    (by rw [phase_zero, Pi.zero_apply, zero_mul]; rfl) ?_ x
  intro x p
  have flips : table n (c.applyCZ a b).f = table n c.f := rfl
  have own : exponent (c.applyCZ a b).gamma p = exponent c.gamma p := rfl
  simp only [ownPhase, phase_add_single valid, dot_applyCZ c a b p _ valid.width, flips, own, add_single_apply,
    valid.read, valid.dual_apply]
  by_cases atFirst : p = a
  · subst atFirst
    simp only [if_true, if_neg different, if_neg (Ne.symm different), add_zero, add_mul, one_mul, twice_add]
    ring
  · by_cases atSecond : p = b
    · subst atSecond
      simp only [if_true, if_neg different, if_neg (Ne.symm different), add_zero, mul_add, mul_one, twice_add]
      ring
    · simp only [if_neg atFirst, if_neg atSecond, if_neg (Ne.symm atFirst), if_neg (Ne.symm atSecond), add_zero]
      ring

theorem vecMul_involution (x : Fin n → ZMod 2) (a b : Fin n) :
    x ᵥ* (1 + unit a b) = x + Pi.single b (x a) := by
  rw [vecMul_add, vecMul_one, vecMul_unit]

theorem carry_applyCX (c : Form R) (a b : Fin n) (x : Fin n → ZMod 2) (width : c.n = n) :
    x ᵥ* table n (c.applyCX a b).f = (x + Pi.single b (x a)) ᵥ* table n c.f := by
  rw [(table_applyCX c a b width).2.1, ← vecMul_vecMul, vecMul_involution]

theorem row_applyCX (x : Matrix (Fin n) (Fin n) (ZMod 2)) (a b p : Fin n) :
    ((1 + unit a b) * x) p = x p + if p = a then x b else 0 := by
  funext j
  rw [Matrix.add_mul, Matrix.one_mul, Matrix.add_apply, unit_mul_apply, Pi.add_apply]
  split <;> rfl

theorem phase_applyCX {c : Form R} (valid : Tableau n c) (a b : Fin n) (different : a ≠ b) (x : Fin n → ZMod 2) :
    phase n (c.applyCX a b) x = phase n c (x + Pi.single b (x a)) := by
  refine phase_unique (valid.applyCX a b different) (fun x => phase n c (x + Pi.single b (x a)))
    (by rw [Pi.zero_apply, Pi.single_zero, add_zero, phase_zero]) ?_ x
  intro x p
  have width := valid.width
  obtain ⟨-, flips, signs⟩ := table_applyCX c a b width
  rw [carry_applyCX c a b x width]
  simp only [ownPhase, signs, flips, row_applyCX]
  by_cases same : p = a
  · subst same
    have own : (exponent (c.applyCX p b).gamma p : ZMod 4)
        = exponent c.gamma p + exponent c.gamma b + twice (table n c.m p ⬝ᵥ table n c.f b) := by
      subst width
      simp only [Form.applyCX, exponent_line, if_true]
      rw [cast_phase, show table c.n c.m p ⬝ᵥ table c.n c.f b
        = (count c.n (fun j => bit c.m p j && bit c.f b j) : ZMod 2) by rw [count_parity]; simp [dotProduct, table]]
      rw [← ZMod.natCast_mod (count _ _) 2, twice_cast]
      push_cast
      rfl
    have shift : x + Pi.single p 1 + Pi.single b ((x + Pi.single p 1 : Fin n → ZMod 2) p)
        = x + Pi.single b (x p) + Pi.single p 1 + Pi.single b 1 := by
      rw [add_single_apply, if_pos rfl, Pi.single_add]
      abel
    rw [shift, phase_add_single valid, phase_add_single valid, own]
    simp only [if_true, ownPhase, add_dotProduct, dotProduct_add, add_vecMul, carry_single, twice_add]
    have cancel := twice_double (table n c.m p ⬝ᵥ table n c.f b)
    linear_combination -cancel
  · have own : exponent (c.applyCX a b).gamma p = exponent c.gamma p := by
      have apart : (p : ℕ) ≠ a := fun equal => same (Fin.ext equal)
      subst width
      simp only [Form.applyCX, exponent_line, if_neg apart]
    have shift : x + Pi.single p 1 + Pi.single b ((x + Pi.single p 1 : Fin n → ZMod 2) a)
        = x + Pi.single b (x a) + Pi.single p 1 := by
      rw [add_single_apply, if_neg (Ne.symm same), add_zero]
      abel
    rw [shift, phase_add_single valid, own]
    simp only [if_neg same, ownPhase, add_zero]

/-! Before the circuit. -/

theorem dot_rightS (c : Form R) (q p : Fin n) (z : Fin n → ZMod 2) (width : c.n = n) :
    table n (c.rightS q).m p ⬝ᵥ z = table n c.m p ⬝ᵥ z + table n c.f p q * z q := by
  have rows : table n (c.rightS q).m p = table n c.m p + Pi.single q (table n c.f p q) := by
    rw [table_rightS c q width]
    exact congrArg (table n c.m p + ·) (vecMul_unit (table n c.f p) q q)
  rw [rows, add_dotProduct, single_dotProduct]

theorem phase_rightS {c : Form R} (valid : Tableau n c) (q : Fin n) (x : Fin n → ZMod 2) :
    phase n (c.rightS q) x = phase n c x + lift ((x ᵥ* table n c.f) q) := by
  refine phase_unique (valid.rightS q) (fun x => phase n c x + lift ((x ᵥ* table n c.f) q))
    (by rw [phase_zero, zero_vecMul]; rfl) ?_ x
  intro x p
  have width := valid.width
  have flips : table n (c.rightS q).f = table n c.f := rfl
  have own : (exponent (c.rightS q).gamma p : ZMod 4) = exponent c.gamma p + 3 * lift (table n c.f p q) := by
    subst width
    simp only [Form.rightS, exponent_line, table]
    cases bit c.f p q with
    | false => simp
    | true =>
        simp only [if_true, gf_true, lift_one]
        rw [cast_phase]
        push_cast
        ring
  simp only [ownPhase, phase_add_single valid, dot_rightS c q p _ width, flips, own, add_vecMul, carry_single,
    Pi.add_apply, lift_add, twice_add]
  have square : table n c.f p q * table n c.f p q = table n c.f p q := by
    rcases bit_cases (table n c.f p q) with unset | set
    · rw [unset, mul_zero]
    · rw [set, mul_one]
  have back : twice (table n c.f p q) = 2 * lift (table n c.f p q) := (two_mul _).symm
  rw [square, back, mul_comm ((x ᵥ* table n c.f) q)]
  linear_combination -lift (table n c.f p q) * four_eq_zero

theorem dot_rightCZ (c : Form R) (q r p : Fin n) (z : Fin n → ZMod 2) (width : c.n = n) :
    table n (c.rightCZ q r).m p ⬝ᵥ z
      = table n c.m p ⬝ᵥ z + (table n c.f p r * z q + table n c.f p q * z r) := by
  have rows : table n (c.rightCZ q r).m p
      = table n c.m p + (Pi.single q (table n c.f p r) + Pi.single r (table n c.f p q)) := by
    rw [table_rightCZ c q r width, Matrix.mul_add, ← vecMul_unit (table n c.f p) r q, ← vecMul_unit (table n c.f p) q r]
    rfl
  rw [rows, add_dotProduct, add_dotProduct, single_dotProduct, single_dotProduct]

theorem phase_rightCZ {c : Form R} (valid : Tableau n c) (q r : Fin n) (x : Fin n → ZMod 2) :
    phase n (c.rightCZ q r) x = phase n c x + twice ((x ᵥ* table n c.f) q * (x ᵥ* table n c.f) r) := by
  refine phase_unique (valid.rightCZ q r)
    (fun x => phase n c x + twice ((x ᵥ* table n c.f) q * (x ᵥ* table n c.f) r))
    (by rw [phase_zero, zero_vecMul, Pi.zero_apply, zero_mul]; rfl) ?_ x
  intro x p
  have width := valid.width
  have flips : table n (c.rightCZ q r).f = table n c.f := rfl
  have own : (exponent (c.rightCZ q r).gamma p : ZMod 4)
      = exponent c.gamma p + twice (table n c.f p q * table n c.f p r) := by
    subst width
    simp only [Form.rightCZ, exponent_line, table, ← gf_and]
    cases bit c.f p q && bit c.f p r with
    | false => simp
    | true =>
        simp only [if_true, gf_true, twice_one]
        rw [cast_phase]
        push_cast
        rfl
  simp only [ownPhase, phase_add_single valid, dot_rightCZ c q r p _ width, flips, own, add_vecMul, carry_single,
    Pi.add_apply, add_mul, mul_add, twice_add]
  rw [mul_comm (table n c.f p r) (table n c.f p q), mul_comm ((x ᵥ* table n c.f) q) (table n c.f p r)]
  linear_combination -twice_double (table n c.f p q * table n c.f p r)

theorem carry_rightCX (c : Form R) (q r : Fin n) (x : Fin n → ZMod 2) (width : c.n = n) :
    x ᵥ* table n (c.rightCX q r).f = x ᵥ* table n c.f + Pi.single r ((x ᵥ* table n c.f) q) := by
  rw [(table_rightCX c q r width).2.1, ← vecMul_vecMul, vecMul_involution]

theorem phase_rightCX {c : Form R} (valid : Tableau n c) (q r : Fin n) (different : q ≠ r) (x : Fin n → ZMod 2) :
    phase n (c.rightCX q r) x = phase n c x := by
  have width := valid.width
  obtain ⟨-, flips, signs⟩ := table_rightCX c q r width
  -- Both sides of a reading change, and the changes cancel.
  have kept : ∀ (p : Fin n) (z : Fin n → ZMod 2),
      table n (c.rightCX q r).m p ⬝ᵥ (z ᵥ* (1 + unit q r)) = table n c.m p ⬝ᵥ z := by
    intro p z
    have split : table n (c.rightCX q r).m p = table n c.m p ᵥ* (1 + unit r q) := by rw [signs]; rfl
    have turned : (1 + unit q r : Matrix (Fin n) (Fin n) (ZMod 2))ᵀ = 1 + unit r q := by
      rw [transpose_add, transpose_one, unit_transpose]
    rw [← mulVec_transpose, turned, split, dotProduct_mulVec, vecMul_vecMul, involution r q different.symm, vecMul_one]
  refine phase_unique (valid.rightCX q r different) (fun x => phase n c x) (phase_zero c) ?_ x
  intro x p
  have own : exponent (c.rightCX q r).gamma p = exponent c.gamma p := rfl
  have ownFlips : table n (c.rightCX q r).f p = table n c.f p ᵥ* (1 + unit q r) := by rw [flips]; rfl
  rw [ownPhase, ownFlips, kept, flips, ← vecMul_vecMul, kept, own, phase_add_single valid]
  rfl

end QuantumRegister.Form
