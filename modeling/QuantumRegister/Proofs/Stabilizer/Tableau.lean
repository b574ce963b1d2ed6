import QuantumRegister.Proofs.Stabilizer.Bits

/-!
The tableau of a form. Over the field with two elements the table of the flips of `Z` is dual to that
of `X`, the images of the `X_p` commute with each other, and the phase of each is the one that makes
it an involution.
-/

set_option autoImplicit false

namespace QuantumRegister.Form

open Matrix

variable {R : Type} {n : ℕ}

-- The entry `(p, q)` says whether the flips of `X_p` anticommute with the signs of `X_q`.
def overlap (n : ℕ) (c : Form R) : Matrix (Fin n) (Fin n) (ZMod 2) := table n c.f * (table n c.m)ᵀ

structure Tableau (n : ℕ) (c : Form R) : Prop where
  width : c.n = n
  gammaSize : c.gamma.size = n
  layerSize : c.v.size = n
  baseSize : c.s.size = n
  dual : table n c.g * (table n c.f)ᵀ = 1
  symmetric : (overlap n c)ᵀ = overlap n c
  reduced : ∀ p : Fin n, exponent c.gamma p < 4
  parity : ∀ p : Fin n, (exponent c.gamma p : ZMod 2) = overlap n c p p

def unit (a b : Fin n) : Matrix (Fin n) (Fin n) (ZMod 2) := single a b 1

@[simp] theorem unit_transpose (a b : Fin n) : (unit a b)ᵀ = unit b a := transpose_single a b 1

theorem unit_apply (a b i j : Fin n) : unit a b i j = if i = a ∧ j = b then 1 else 0 := by
  simp only [unit, single_apply, eq_comm]

theorem unit_mul_apply (a b : Fin n) (x : Matrix (Fin n) (Fin n) (ZMod 2)) (i j : Fin n) :
    (unit a b * x) i j = if i = a then x b j else 0 := by
  by_cases same : i = a
  · subst same
    rw [unit, single_mul_apply_same, one_mul, if_pos rfl]
  · rw [unit, single_mul_apply_of_ne _ _ _ _ _ same, if_neg same]

theorem mul_unit_apply (a b : Fin n) (x : Matrix (Fin n) (Fin n) (ZMod 2)) (i j : Fin n) :
    (x * unit a b) i j = if j = b then x i a else 0 := by
  by_cases same : j = b
  · subst same
    rw [unit, mul_single_apply_same, mul_one, if_pos rfl]
  · rw [unit, mul_single_apply_of_ne _ _ _ _ _ same, if_neg same]

theorem unit_mul_unit (a b : Fin n) (different : a ≠ b) : unit a b * unit a b = 0 := by
  ext i j
  rw [unit_mul_apply, unit_apply]
  simp [Ne.symm different]

theorem add_self (x : Matrix (Fin n) (Fin n) (ZMod 2)) : x + x = 0 := by
  ext i j
  exact CharTwo.add_self_eq_zero _

theorem involution (a b : Fin n) (different : a ≠ b) : (1 + unit a b) * (1 + unit a b) = 1 := by
  calc (1 + unit a b) * (1 + unit a b) = 1 + (unit a b + unit a b) + unit a b * unit a b := by noncomm_ring
    _ = 1 := by rw [add_self, unit_mul_unit a b different, add_zero, add_zero]

theorem cast_mod_four (k : ℕ) : ((k % 4 : ℕ) : ZMod 2) = k := by
  rw [ZMod.natCast_eq_natCast_iff']
  omega

theorem gf_beq (i q : Fin n) : gf ((i : ℕ) == q) = if i = q then 1 else 0 := by
  by_cases same : i = q
  · simp [same]
  · have apart : ((i : ℕ) == q) = false := beq_false_of_ne fun equal => same (Fin.ext equal)
    rw [apart, if_neg same, gf_false]

theorem Tableau.dual_transpose {c : Form R} (valid : Tableau n c) : table n c.f * (table n c.g)ᵀ = 1 := by
  simpa using congrArg transpose valid.dual

/-! Gates after the circuit change rows. -/

theorem table_applyS (c : Form R) (q : Fin n) (width : c.n = n) :
    table n (c.applyS q).m = table n c.m + unit q q * table n c.g := by
  subst width
  ext i j
  simp only [applyS, table_square, gf_xor, gf_and, gf_beq, Matrix.add_apply, unit_mul_apply]
  by_cases same : i = q
  · simp [same, table]
  · simp [same, table]

theorem overlap_applyS (c : Form R) (q : Fin n) (valid : Tableau n c) :
    overlap n (c.applyS q) = overlap n c + unit q q := by
  calc overlap n (c.applyS q) = table n c.f * (table n c.m + unit q q * table n c.g)ᵀ := by
        rw [overlap, table_applyS c q valid.width]; rfl
    _ = overlap n c + table n c.f * (table n c.g)ᵀ * unit q q := by
        rw [transpose_add, transpose_mul, unit_transpose, Matrix.mul_add, Matrix.mul_assoc, overlap]
    _ = overlap n c + unit q q := by rw [valid.dual_transpose, Matrix.one_mul]

theorem Tableau.applyS {c : Form R} (valid : Tableau n c) (q : Fin n) : Tableau n (c.applyS q) := by
  have width := valid.width
  have changed := overlap_applyS c q valid
  refine ⟨width, ?_, valid.layerSize, valid.baseSize, valid.dual, ?_, ?_, ?_⟩
  · simpa [Form.applyS] using width
  · rw [changed, transpose_add, valid.symmetric, unit_transpose]
  · intro p
    subst width
    simp only [Form.applyS, exponent_line]
    split
    · omega
    · exact valid.reduced p
  · intro p
    rw [changed, Matrix.add_apply, ← valid.parity p, unit_apply]
    subst width
    simp only [Form.applyS, exponent_line]
    by_cases same : p = q
    · subst same
      simp only [and_self, if_true]
      rw [cast_mod_four]
      push_cast
      rfl
    · have apart : (p : ℕ) ≠ q := fun equal => same (Fin.ext equal)
      simp [apart, same]

theorem table_applyCZ (c : Form R) (a b : Fin n) (width : c.n = n) :
    table n (c.applyCZ a b).m = table n c.m + (unit a b + unit b a) * table n c.g := by
  subst width
  ext i j
  simp only [Form.applyCZ, table_square, gf_xor, gf_and, gf_beq, Matrix.add_apply, Matrix.add_mul, unit_mul_apply]
  by_cases atFirst : i = a
  · simp [atFirst, table, add_assoc]
  · by_cases atSecond : i = b <;> simp [atFirst, atSecond, table, add_assoc]

theorem overlap_applyCZ (c : Form R) (a b : Fin n) (valid : Tableau n c) :
    overlap n (c.applyCZ a b) = overlap n c + (unit b a + unit a b) := by
  calc overlap n (c.applyCZ a b) = table n c.f * (table n c.m + (unit a b + unit b a) * table n c.g)ᵀ := by
        rw [overlap, table_applyCZ c a b valid.width]; rfl
    _ = overlap n c + table n c.f * (table n c.g)ᵀ * (unit b a + unit a b) := by
        rw [transpose_add, transpose_mul, transpose_add, unit_transpose, unit_transpose, Matrix.mul_add,
          Matrix.mul_assoc, overlap]
    _ = overlap n c + (unit b a + unit a b) := by rw [valid.dual_transpose, Matrix.one_mul]

theorem Tableau.applyCZ {c : Form R} (valid : Tableau n c) (a b : Fin n) (different : a ≠ b) :
    Tableau n (c.applyCZ a b) := by
  have changed := overlap_applyCZ c a b valid
  refine ⟨valid.width, valid.gammaSize, valid.layerSize, valid.baseSize, valid.dual, ?_, valid.reduced, ?_⟩
  · rw [changed, transpose_add, transpose_add, valid.symmetric, unit_transpose, unit_transpose, add_comm (unit a b)]
  · intro p
    have apart : ∀ i j : Fin n, i ≠ j → unit i j p p = 0 := by
      intro i j ne
      rw [unit_apply, if_neg]
      rintro ⟨left, right⟩
      exact ne (left.symm.trans right)
    rw [changed, Matrix.add_apply, Matrix.add_apply, apart b a different.symm, apart a b different, add_zero, add_zero]
    exact valid.parity p

theorem table_applyCX (c : Form R) (a b : Fin n) (width : c.n = n) :
    table n (c.applyCX a b).g = (1 + unit b a) * table n c.g
      ∧ table n (c.applyCX a b).f = (1 + unit a b) * table n c.f
      ∧ table n (c.applyCX a b).m = (1 + unit a b) * table n c.m := by
  subst width
  refine ⟨?_, ?_, ?_⟩
  all_goals
    ext i j
    simp only [Form.applyCX, table_square, gf_xor, gf_and, gf_beq, Matrix.add_mul, Matrix.one_mul, Matrix.add_apply,
      unit_mul_apply]
    split <;> simp [table]

theorem conjugate_diagonal (a b : Fin n) (x : Matrix (Fin n) (Fin n) (ZMod 2)) (symmetric : xᵀ = x) (p : Fin n) :
    ((1 + unit a b) * x * (1 + unit b a)) p p = x p p + if p = a then x b b else 0 := by
  have swapped : ∀ i j, x i j = x j i := fun i j => congrFun (congrFun symmetric j) i
  simp only [Matrix.mul_add, Matrix.mul_one, Matrix.add_mul, Matrix.one_mul, Matrix.add_apply, mul_unit_apply,
    unit_mul_apply]
  by_cases same : p = a
  · subst same
    simp only [if_true]
    rw [swapped b p]
    linear_combination (x p b) * (CharTwo.two_eq_zero (R := ZMod 2))
  · simp [same]

theorem overlap_applyCX (c : Form R) (a b : Fin n) (width : c.n = n) :
    overlap n (c.applyCX a b) = (1 + unit a b) * overlap n c * (1 + unit b a) := by
  obtain ⟨-, flips, signs⟩ := table_applyCX c a b width
  rw [overlap, flips, signs, transpose_mul, transpose_add, transpose_one, unit_transpose, overlap, Matrix.mul_assoc,
    Matrix.mul_assoc, Matrix.mul_assoc]

theorem Tableau.applyCX {c : Form R} (valid : Tableau n c) (a b : Fin n) (different : a ≠ b) :
    Tableau n (c.applyCX a b) := by
  have width := valid.width
  have changed := overlap_applyCX c a b width
  obtain ⟨duals, flips, -⟩ := table_applyCX c a b width
  refine ⟨width, ?_, valid.layerSize, valid.baseSize, ?_, ?_, ?_, ?_⟩
  · simpa [Form.applyCX] using width
  · calc table n (c.applyCX a b).g * (table n (c.applyCX a b).f)ᵀ
        = (1 + unit b a) * (table n c.g * (table n c.f)ᵀ) * (1 + unit b a) := by
          rw [duals, flips, transpose_mul, transpose_add, transpose_one, unit_transpose, Matrix.mul_assoc,
            Matrix.mul_assoc, Matrix.mul_assoc]
      _ = 1 := by rw [valid.dual, Matrix.mul_one, involution b a different.symm]
  · rw [changed, transpose_mul, transpose_mul, valid.symmetric, transpose_add, transpose_add, unit_transpose,
      unit_transpose, transpose_one, Matrix.mul_assoc]
  · intro p
    subst width
    simp only [Form.applyCX, exponent_line]
    split
    · omega
    · exact valid.reduced p
  · intro p
    rw [changed, conjugate_diagonal a b _ valid.symmetric, ← valid.parity p, ← valid.parity b]
    subst width
    simp only [Form.applyCX, exponent_line]
    by_cases same : p = a
    · subst same
      simp only [if_true]
      rw [cast_mod_four]
      push_cast
      rw [show (2 : ZMod 2) = 0 from rfl, zero_mul, add_zero]
    · have apart : (p : ℕ) ≠ a := fun equal => same (Fin.ext equal)
      simp [apart, same]

/-! Gates before the circuit change columns. -/

theorem table_rightS (c : Form R) (q : Fin n) (width : c.n = n) :
    table n (c.rightS q).m = table n c.m + table n c.f * unit q q := by
  subst width
  ext i j
  simp only [rightS, table_square, gf_xor, gf_and, gf_beq, Matrix.add_apply, mul_unit_apply]
  split <;> simp [table]

theorem table_rightCZ (c : Form R) (q r : Fin n) (width : c.n = n) :
    table n (c.rightCZ q r).m = table n c.m + table n c.f * (unit r q + unit q r) := by
  subst width
  ext i j
  simp only [rightCZ, table_square, gf_xor, gf_and, gf_beq, Matrix.add_apply, Matrix.mul_add, mul_unit_apply]
  by_cases atFirst : j = q
  · simp [atFirst, table, add_assoc]
  · by_cases atSecond : j = r <;> simp [atFirst, atSecond, table, add_assoc]

theorem table_rightCX (c : Form R) (q r : Fin n) (width : c.n = n) :
    table n (c.rightCX q r).g = table n c.g * (1 + unit r q)
      ∧ table n (c.rightCX q r).f = table n c.f * (1 + unit q r)
      ∧ table n (c.rightCX q r).m = table n c.m * (1 + unit r q) := by
  subst width
  refine ⟨?_, ?_, ?_⟩
  all_goals
    ext i j
    simp only [rightCX, table_square, gf_xor, gf_and, gf_beq, Matrix.mul_add, Matrix.mul_one, Matrix.add_apply,
      mul_unit_apply]
    split <;> simp [table]

theorem sandwich_apply (x : Matrix (Fin n) (Fin n) (ZMod 2)) (q r p s : Fin n) :
    (x * unit q r * xᵀ) p s = x p q * x s r := by
  rw [Matrix.mul_apply, Finset.sum_eq_single r]
  · rw [mul_unit_apply, if_pos rfl, transpose_apply]
  · intro j _ apart
    rw [mul_unit_apply, if_neg apart, zero_mul]
  · intro absent
    exact absurd (Finset.mem_univ r) absent

theorem overlap_rightS (c : Form R) (q : Fin n) (width : c.n = n) :
    overlap n (c.rightS q) = overlap n c + table n c.f * unit q q * (table n c.f)ᵀ := by
  rw [overlap, table_rightS c q width, show (c.rightS q).f = c.f from rfl, transpose_add, transpose_mul, unit_transpose,
    Matrix.mul_add, Matrix.mul_assoc, overlap]

theorem overlap_rightCZ (c : Form R) (q r : Fin n) (width : c.n = n) :
    overlap n (c.rightCZ q r)
      = overlap n c + (table n c.f * unit q r * (table n c.f)ᵀ + table n c.f * unit r q * (table n c.f)ᵀ) := by
  rw [overlap, table_rightCZ c q r width, show (c.rightCZ q r).f = c.f from rfl, transpose_add, transpose_mul,
    transpose_add, unit_transpose, unit_transpose, Matrix.mul_add, overlap, ← Matrix.mul_assoc, Matrix.mul_add,
    Matrix.add_mul]

theorem overlap_rightCX (c : Form R) (q r : Fin n) (width : c.n = n) (different : q ≠ r) :
    overlap n (c.rightCX q r) = overlap n c := by
  obtain ⟨-, flips, signs⟩ := table_rightCX c q r width
  calc overlap n (c.rightCX q r) = table n c.f * ((1 + unit q r) * (1 + unit q r)) * (table n c.m)ᵀ := by
        rw [overlap, flips, signs, transpose_mul, transpose_add, transpose_one, unit_transpose, Matrix.mul_assoc,
          Matrix.mul_assoc, Matrix.mul_assoc]
    _ = overlap n c := by rw [involution q r different, Matrix.mul_one, overlap]

theorem Tableau.rightS {c : Form R} (valid : Tableau n c) (q : Fin n) : Tableau n (c.rightS q) := by
  have width := valid.width
  have changed := overlap_rightS c q width
  refine ⟨width, ?_, valid.layerSize, valid.baseSize, valid.dual, ?_, ?_, ?_⟩
  · simpa [Form.rightS] using width
  · rw [changed, transpose_add, valid.symmetric, transpose_mul, transpose_mul, transpose_transpose, unit_transpose,
      Matrix.mul_assoc]
  · intro p
    subst width
    simp only [Form.rightS, exponent_line]
    split
    · omega
    · exact valid.reduced p
  · intro p
    rw [changed, Matrix.add_apply, sandwich_apply, ← valid.parity p]
    subst width
    simp only [Form.rightS, exponent_line, table]
    cases bit c.f p q
    · simp
    · simp only [if_true, gf_true, mul_one]
      rw [cast_mod_four]
      push_cast
      rfl

theorem Tableau.rightCZ {c : Form R} (valid : Tableau n c) (q r : Fin n) : Tableau n (c.rightCZ q r) := by
  have width := valid.width
  have changed := overlap_rightCZ c q r width
  refine ⟨width, ?_, valid.layerSize, valid.baseSize, valid.dual, ?_, ?_, ?_⟩
  · simpa [Form.rightCZ] using width
  · rw [changed, transpose_add, transpose_add, valid.symmetric, transpose_mul, transpose_mul, transpose_mul,
      transpose_mul, transpose_transpose, unit_transpose, unit_transpose, ← Matrix.mul_assoc, ← Matrix.mul_assoc,
      add_comm (table n c.f * unit r q * _)]
  · intro p
    subst width
    simp only [Form.rightCZ, exponent_line]
    split
    · omega
    · exact valid.reduced p
  · intro p
    rw [changed, Matrix.add_apply, Matrix.add_apply, sandwich_apply, sandwich_apply, mul_comm (table n c.f p r),
      CharTwo.add_self_eq_zero, add_zero, ← valid.parity p]
    subst width
    simp only [Form.rightCZ, exponent_line]
    split
    · rw [cast_mod_four]
      push_cast
      rw [show (2 : ZMod 2) = 0 from rfl, add_zero]
    · rfl

theorem Tableau.rightCX {c : Form R} (valid : Tableau n c) (q r : Fin n) (different : q ≠ r) :
    Tableau n (c.rightCX q r) := by
  have width := valid.width
  have kept := overlap_rightCX c q r width different
  obtain ⟨duals, flips, -⟩ := table_rightCX c q r width
  refine ⟨width, valid.gammaSize, valid.layerSize, valid.baseSize, ?_, ?_, valid.reduced, ?_⟩
  · calc table n (c.rightCX q r).g * (table n (c.rightCX q r).f)ᵀ
        = table n c.g * ((1 + unit r q) * (1 + unit r q)) * (table n c.f)ᵀ := by
          rw [duals, flips, transpose_mul, transpose_add, transpose_one, unit_transpose, Matrix.mul_assoc,
            Matrix.mul_assoc, Matrix.mul_assoc]
      _ = 1 := by rw [involution r q different.symm, Matrix.mul_one, valid.dual]
  · rw [kept, valid.symmetric]
  · intro p
    rw [kept]
    exact valid.parity p

theorem Tableau.applyZ {c : Form R} (valid : Tableau n c) (q : Fin n) : Tableau n (c.applyZ q) :=
  (valid.applyS q).applyS q

theorem Tableau.applySwap {c : Form R} (valid : Tableau n c) (a b : Fin n) (different : a ≠ b) :
    Tableau n (c.applySwap a b) :=
  ((valid.applyCX a b different).applyCX b a different.symm).applyCX a b different

/-! Only the circuit has a tableau; the layer, the basis state and the scalar are free. -/

theorem Tableau.withBase {c : Form R} (valid : Tableau n c) (s v : Array Bool) (omega : Cplx R)
    (baseSize : s.size = n) (layerSize : v.size = n) : Tableau n { c with s := s, v := v, omega := omega } :=
  ⟨valid.width, valid.gammaSize, layerSize, baseSize, valid.dual, valid.symmetric, valid.reduced, valid.parity⟩

def differing (c : Form R) (t u : Array Bool) : List ℕ := (List.range c.n).filter fun i => flag t i != flag u i

theorem differing_inside (c : Form R) (t u : Array Bool) (i : ℕ) (member : i ∈ differing c t u) : i < c.n := by
  simpa using (List.mem_filter.mp member).1

theorem differing_nodup (c : Form R) (t u : Array Bool) : (differing c t u).Nodup :=
  List.nodup_range.filter _

theorem differing_ne_nil (c : Form R) (t u : Array Bool) (tSize : t.size = c.n) (uSize : u.size = c.n)
    (different : t ≠ u) : differing c t u ≠ [] := by
  intro none
  apply different
  apply Array.ext (tSize.trans uSize.symm)
  intro i left right
  have member : i ∈ List.range c.n := List.mem_range.mpr (tSize ▸ left)
  have same := List.filter_eq_nil_iff.mp none i member
  simpa [flag, Array.getD, left, right] using same

def outside (c : Form R) (t u : Array Bool) : List ℕ := (differing c t u).filter fun i => !flag c.v i

def inside (c : Form R) (t u : Array Bool) : List ℕ := (differing c t u).filter fun i => flag c.v i

theorem gather_outside (c : Form R) (t u : Array Bool) (q : ℕ) (rest : List ℕ) (found : outside c t u = q :: rest) :
    c.gather t u = (q, (inside c t u).foldl (fun c i => c.rightCZ q i) (rest.foldl (fun c i => c.rightCX q i) c)) := by
  simp only [outside, differing] at found
  simp only [gather, found, inside, differing]

theorem gather_inside (c : Form R) (t u : Array Bool) (q : ℕ) (rest : List ℕ) (none : outside c t u = [])
    (found : inside c t u = q :: rest) :
    c.gather t u = (q, rest.foldl (fun c i => c.rightCX i q) c) := by
  simp only [outside, differing] at none
  simp only [inside, differing] at found
  simp only [gather, none, found, List.headD_cons, List.tail_cons]

theorem inside_of_outside_nil (c : Form R) (t u : Array Bool) (none : outside c t u = []) :
    inside c t u = differing c t u := by
  refine List.filter_eq_self.mpr fun i member => ?_
  simpa using List.filter_eq_nil_iff.mp none i member

theorem Tableau.gather {c : Form R} (valid : Tableau n c) (t u : Array Bool) (found : differing c t u ≠ []) :
    (c.gather t u).1 < n ∧ Tableau n (c.gather t u).2 := by
  have within : ∀ i ∈ differing c t u, i < n := fun i member => valid.width ▸ differing_inside c t u i member
  have distinct := differing_nodup c t u
  cases out : outside c t u with
  | cons q rest =>
      have qInside : q < n := within q (List.mem_of_mem_filter (out ▸ List.mem_cons_self : q ∈ outside c t u))
      have once : (q :: rest).Nodup := out ▸ distinct.filter _
      rw [gather_outside c t u q rest out]
      refine ⟨qInside, ?_⟩
      have spread : Tableau n (rest.foldl (fun c i => c.rightCX q i) c) := by
        refine List.foldlRecOn rest _ valid fun d held i member => ?_
        have iInside : i < n := within i (List.mem_of_mem_filter (out ▸ List.mem_cons_of_mem q member : i ∈ outside c t u))
        have apart : q ≠ i := fun same => (List.nodup_cons.mp once).1 (same ▸ member)
        exact held.rightCX ⟨q, qInside⟩ ⟨i, iInside⟩ fun same => apart (congrArg Fin.val same)
      refine List.foldlRecOn (inside c t u) _ spread fun d held i member => ?_
      exact held.rightCZ ⟨q, qInside⟩ ⟨i, within i (List.mem_of_mem_filter member)⟩
  | nil =>
      have all := inside_of_outside_nil c t u out
      cases ins : inside c t u with
      | nil => exact absurd (all ▸ ins) found
      | cons q rest =>
          have listed : differing c t u = q :: rest := all ▸ ins
          have qInside : q < n := within q (listed ▸ List.mem_cons_self)
          rw [gather_inside c t u q rest out ins]
          refine ⟨qInside, List.foldlRecOn rest _ valid fun d held i member => ?_⟩
          have iInside : i < n := within i (listed ▸ List.mem_cons_of_mem q member)
          have apart : i ≠ q := fun same => (List.nodup_cons.mp (listed ▸ distinct)).1 (same ▸ member)
          exact held.rightCX ⟨i, iInside⟩ ⟨q, qInside⟩ fun same => apart (congrArg Fin.val same)

variable [Scalar R]

-- The basis state that the two of a sum share away from the pivot; at the pivot it is that of the first.
def shared (n q : ℕ) (t u : Array Bool) : Array Bool :=
  if flag t q then line n fun i => if i = q then !flag u i else flag u i else t

def settle (c : Form R) (q : ℕ) (y : Array Bool) (r : Reduced R) (alpha : Bool) : Form R :=
  let c := { c with
    s := line c.n fun i => if i = q then r.value else flag y i
    omega := c.omega * r.scalar.scale (Scalar.sign alpha) }
  let c := if r.phase then c.rightS q else c
  { c with v := line c.n fun i => if i = q then r.hadamard else flag c.v i }

theorem recombine_of_ne (c d : Form R) (t u : Array Bool) (q delta : ℕ) (alpha : Bool) (different : t ≠ u)
    (gathered : c.gather t u = (q, d)) :
    c.recombine t u delta alpha
      = settle d q (shared d.n q t u) (reduce (flag d.v q) (flag (shared d.n q t u) q) delta) alpha := by
  rw [recombine, if_neg different, gathered]
  rfl

theorem Tableau.settle {c : Form R} (valid : Tableau n c) (q : Fin n) (y : Array Bool) (r : Reduced R) (alpha : Bool) :
    Tableau n (c.settle q y r alpha) := by
  have width := valid.width
  have based := valid.withBase (line c.n fun i => if i = q then r.value else flag y i) c.v
    (c.omega * r.scalar.scale (Scalar.sign alpha)) (by simp [width]) valid.layerSize
  simp only [Form.settle]
  cases r.phase with
  | true => exact (based.rightS q).withBase _ _ _ (based.rightS q).baseSize (by simp [Form.rightS, width])
  | false => exact based.withBase _ _ _ based.baseSize (by simp [width])

theorem Tableau.recombine {c : Form R} (valid : Tableau n c) (t u : Array Bool) (delta : ℕ) (alpha : Bool)
    (tSize : t.size = n) (uSize : u.size = n) : Tableau n (c.recombine t u delta alpha) := by
  by_cases same : t = u
  · rw [Form.recombine, if_pos same]
    exact valid.withBase t c.v _ tSize valid.layerSize
  · have width := valid.width
    have found := differing_ne_nil c t u (tSize.trans width.symm) (uSize.trans width.symm) same
    obtain ⟨qInside, held⟩ := valid.gather t u found
    rw [recombine_of_ne c (c.gather t u).2 t u (c.gather t u).1 delta alpha same rfl]
    exact held.settle ⟨_, qInside⟩ _ _ alpha

theorem Tableau.applyH {c : Form R} (valid : Tableau n c) (q : ℕ) : Tableau n (c.applyH q) :=
  valid.recombine _ _ _ _ (by simp [valid.width]) (by simp [valid.width])

theorem Tableau.applyX {c : Form R} (valid : Tableau n c) (q : Fin n) : Tableau n (c.applyX q) :=
  ((valid.applyH q).applyZ q).applyH q

theorem Tableau.applyY {c : Form R} (valid : Tableau n c) (q : Fin n) : Tableau n (c.applyY q) := by
  have flipped := (valid.applyZ q).applyX q
  exact flipped.withBase _ _ _ flipped.baseSize flipped.layerSize

theorem Tableau.project {c : Form R} (valid : Tableau n c) (q : ℕ) (outcome : Bool) : Tableau n (c.project q outcome) := by
  simp only [Form.project]
  split
  · refine Tableau.recombine (valid.withBase c.s c.v _ valid.baseSize valid.layerSize) _ _ _ _ ?_ ?_
    all_goals simp [valid.width]
  · exact valid.recombine _ _ _ _ (by simp [valid.width]) (by simp [valid.width])

theorem tableau_zero (n : ℕ) : Tableau n (zero n : Form R) := by
  have identity : table n (square n fun i j => i == j) = 1 := by
    ext i j
    rw [table_square, gf_beq, Matrix.one_apply]
  have nothing : table n (square n fun _ _ => false) = 0 := by
    ext i j
    rw [table_square, gf_false, Matrix.zero_apply]
  have alone : overlap n (zero n : Form R) = 0 := by
    rw [overlap, show (zero n : Form R).m = square n fun _ _ => false from rfl, nothing, transpose_zero, Matrix.mul_zero]
  refine ⟨rfl, size_line n _, size_line n _, size_line n _, ?_, ?_, ?_, ?_⟩
  · simp only [zero, identity, transpose_one, Matrix.mul_one]
  · rw [alone, transpose_zero]
  · intro p
    simp [zero]
  · intro p
    rw [alone]
    simp [zero]

theorem tableau_basis (n index : ℕ) : Tableau n (basis n index : Form R) := by
  refine List.foldlRecOn (List.range n) _ (tableau_zero n) fun c held k member => ?_
  split
  · exact held.applyX ⟨k, List.mem_range.mp member⟩
  · exact held

end QuantumRegister.Form
