import QuantumRegister.Proofs.Stabilizer.Circuit
import QuantumRegister.Proofs.Stabilizer.Wave
import QuantumRegister.Stabilizer.Readout

/-!
A sum of two basis states behind the Hadamard layer, taken as a state. The gates that gather the
difference of the two onto the pivot carry every other qubit to a value that both share, so what is
left to reduce is a sum over the pivot alone.
-/

set_option autoImplicit false

namespace QuantumRegister.Form

open Matrix

variable {n : ℕ}

noncomputable def image (n : ℕ) (c : Form ℝ) (b : Array Bool) (x : Fin n → ZMod 2) : ℂ :=
  iPow (phase n c x) * layer (fun j => flag c.v j) (row n b) (x ᵥ* table n c.f)

theorem wave_eq_image (c : Form ℝ) (x : Fin n → ZMod 2) : wave n c x = c.omega.toComplex * image n c c.s x := rfl

/-! The pivot, reduced. -/

theorem cis_eighth : (Cplx.cis (Scalar.eighthTurn : ℝ)).toComplex = root * (1 + Complex.I) := by
  have half : Real.sqrt 2 / 2 = 1 / Real.sqrt 2 := by
    rw [div_eq_div_iff (by norm_num) (by positivity), Real.mul_self_sqrt (by norm_num)]
    ring
  have cosine : Scalar.cos (Scalar.eighthTurn : ℝ) = 1 / Real.sqrt 2 := Real.cos_pi_div_four.trans half
  have sine : Scalar.sin (Scalar.eighthTurn : ℝ) = 1 / Real.sqrt 2 := Real.sin_pi_div_four.trans half
  rw [Cplx.cis, cosine, sine, root_eq]
  generalize 1 / Real.sqrt 2 = r
  apply Complex.ext <;> simp [Cplx.toComplex]

theorem cis_neg_eighth : (Cplx.cis (-Scalar.eighthTurn : ℝ)).toComplex = root * (1 - Complex.I) := by
  have turned : (Cplx.cis (-Scalar.eighthTurn : ℝ)) = (Cplx.cis (Scalar.eighthTurn : ℝ)).conj := by
    have cosine : Scalar.cos (-Scalar.eighthTurn : ℝ) = Scalar.cos (Scalar.eighthTurn : ℝ) := Real.cos_neg _
    have sine : Scalar.sin (-Scalar.eighthTurn : ℝ) = -Scalar.sin (Scalar.eighthTurn : ℝ) := Real.sin_neg _
    simp only [Cplx.cis, Cplx.conj, cosine, sine]
  rw [turned, Cplx.toComplex_conj, cis_eighth, map_mul, map_add, map_one, Complex.conj_I, root_eq, Complex.conj_ofReal,
    sub_eq_add_neg]

theorem reduce_false (v : Bool) (delta : ℕ) (lower : delta < 4) (z : ZMod 2) :
    root * (cell v 0 z + Complex.I ^ delta * cell v 1 z)
      = (reduce v false delta : Reduced ℝ).scalar.toComplex
        * ((if (reduce v false delta : Reduced ℝ).phase then iPow (lift z) else 1)
          * cell (reduce v false delta : Reduced ℝ).hadamard (gf (reduce v false delta : Reduced ℝ).value) z) := by
  have one : iPow 1 = Complex.I := pow_one _
  have square := Complex.I_sq
  have cube := Complex.I_pow_three
  cases v with
  | false =>
      interval_cases delta <;> rcases bit_cases z with rfl | rfl
      all_goals simp [reduce, one, square, cube]
      all_goals ring
  | true =>
      have whole : root * (root + root) = 1 := by linear_combination 2 * root_square
      interval_cases delta <;> rcases bit_cases z with rfl | rfl
      all_goals simp [reduce, one, square, cube, cis_eighth, cis_neg_eighth, whole]
      · ring
      · linear_combination root ^ 2 * square
      · ring
      · linear_combination root ^ 2 * square

-- With the pivot set, the second basis state is the one taken out of the sum.
theorem reduce_true (v : Bool) (delta : ℕ) (lower : delta < 4) :
    (reduce v true delta : Reduced ℝ).scalar.toComplex
        = Complex.I ^ delta * (reduce v false ((4 - delta) % 4) : Reduced ℝ).scalar.toComplex
      ∧ (reduce v true delta : Reduced ℝ).phase = (reduce v false ((4 - delta) % 4) : Reduced ℝ).phase
      ∧ (reduce v true delta : Reduced ℝ).hadamard = (reduce v false ((4 - delta) % 4) : Reduced ℝ).hadamard
      ∧ (reduce v true delta : Reduced ℝ).value = (reduce v false ((4 - delta) % 4) : Reduced ℝ).value := by
  cases v <;> interval_cases delta
  all_goals simp [reduce]

theorem reduce_spec (v y : Bool) (delta : ℕ) (lower : delta < 4) (z : ZMod 2) :
    root * (cell v (gf y) z + Complex.I ^ delta * cell v (gf y + 1) z)
      = (reduce v y delta : Reduced ℝ).scalar.toComplex
        * ((if (reduce v y delta : Reduced ℝ).phase then iPow (lift z) else 1)
          * cell (reduce v y delta : Reduced ℝ).hadamard (gf (reduce v y delta : Reduced ℝ).value) z) := by
  cases y with
  | false => simpa using reduce_false v delta lower z
  | true =>
      have turn : Complex.I ^ delta * Complex.I ^ ((4 - delta) % 4) = 1 := by
        interval_cases delta <;> simp [Complex.I_pow_three]
      have back := reduce_false v ((4 - delta) % 4) (Nat.mod_lt _ (by norm_num)) z
      obtain ⟨scalar, phase, hadamard, value⟩ := reduce_true v delta lower
      rw [scalar, phase, hadamard, value, gf_true, show (1 + 1 : ZMod 2) = 0 from rfl, mul_assoc, ← back]
      linear_combination -root * cell v 1 z * turn

/-! The gates that gather a difference, one fold at a time. -/

def marks (n : ℕ) (l : List ℕ) : Fin n → ZMod 2 := fun j => if (j : ℕ) ∈ l then 1 else 0

theorem marks_nil : marks n [] = 0 := by
  funext j
  simp [marks]

theorem marks_cons (i : Fin n) (l : List ℕ) (fresh : (i : ℕ) ∉ l) : marks n (i :: l) = Pi.single i 1 + marks n l := by
  funext j
  rw [Pi.add_apply, Pi.single_apply, marks, marks]
  by_cases same : j = i
  · subst same
    simp [fresh]
  · have apart : (j : ℕ) ≠ i := fun equal => same (Fin.ext equal)
    simp [same, apart]

-- What a fold of gates before the circuit leaves alone.
structure Before (n : ℕ) (c d : Form ℝ) : Prop where
  valid : Tableau n d
  layer : d.v = c.v
  scalar : d.omega = c.omega

theorem fan_out {c : Form ℝ} (valid : Tableau n c) (q : Fin n) (l : List ℕ) (within : ∀ i ∈ l, i < n)
    (apart : (q : ℕ) ∉ l) (once : l.Nodup) :
    Before n c (l.foldl (fun c i => c.rightCX q i) c)
      ∧ ∀ x, phase n (l.foldl (fun c i => c.rightCX q i) c) x = phase n c x
          ∧ x ᵥ* table n (l.foldl (fun c i => c.rightCX q i) c).f
              = x ᵥ* table n c.f + (x ᵥ* table n c.f) q • marks n l := by
  induction l generalizing c with
  | nil => exact ⟨⟨valid, rfl, rfl⟩, fun x => ⟨rfl, by rw [marks_nil, smul_zero, add_zero]; rfl⟩⟩
  | cons i l ih =>
      obtain ⟨fresh, once⟩ := List.nodup_cons.mp once
      let r : Fin n := ⟨i, within i List.mem_cons_self⟩
      have different : q ≠ r := fun same => apart (same ▸ List.mem_cons_self)
      obtain ⟨⟨held, layer, scalar⟩, moved⟩ := ih (valid.rightCX q r different)
        (fun j member => within j (List.mem_cons_of_mem i member)) (fun member => apart (List.mem_cons_of_mem i member)) once
      refine ⟨⟨held, layer, scalar⟩, fun x => ?_⟩
      obtain ⟨phases, place⟩ := moved x
      refine ⟨phases.trans (phase_rightCX valid q r different x), place.trans ?_⟩
      rw [carry_rightCX c q r x valid.width, show i = (r : ℕ) from rfl, marks_cons r l fresh, Pi.add_apply,
        Pi.single_eq_of_ne different, add_zero, smul_add, ← Pi.single_smul, smul_eq_mul, mul_one, add_assoc]

theorem fan_in {c : Form ℝ} (valid : Tableau n c) (q : Fin n) (l : List ℕ) (within : ∀ i ∈ l, i < n)
    (apart : (q : ℕ) ∉ l) (once : l.Nodup) :
    Before n c (l.foldl (fun c i => c.rightCX i q) c)
      ∧ ∀ x, phase n (l.foldl (fun c i => c.rightCX i q) c) x = phase n c x
          ∧ x ᵥ* table n (l.foldl (fun c i => c.rightCX i q) c).f
              = x ᵥ* table n c.f + Pi.single q (marks n l ⬝ᵥ (x ᵥ* table n c.f)) := by
  induction l generalizing c with
  | nil => exact ⟨⟨valid, rfl, rfl⟩, fun x => ⟨rfl, by rw [marks_nil, zero_dotProduct, Pi.single_zero, add_zero]; rfl⟩⟩
  | cons i l ih =>
      obtain ⟨fresh, once⟩ := List.nodup_cons.mp once
      let r : Fin n := ⟨i, within i List.mem_cons_self⟩
      have different : r ≠ q := fun same => apart (same ▸ List.mem_cons_self)
      have missing : (q : ℕ) ∉ l := fun member => apart (List.mem_cons_of_mem i member)
      obtain ⟨⟨held, layer, scalar⟩, moved⟩ := ih (valid.rightCX r q different)
        (fun j member => within j (List.mem_cons_of_mem i member)) missing once
      refine ⟨⟨held, layer, scalar⟩, fun x => ?_⟩
      obtain ⟨phases, place⟩ := moved x
      refine ⟨phases.trans (phase_rightCX valid r q different x), place.trans ?_⟩
      have unmarked : marks n l q = 0 := if_neg missing
      rw [carry_rightCX c r q x valid.width, show i = (r : ℕ) from rfl, marks_cons r l fresh, add_dotProduct,
        dotProduct_add, single_one_dotProduct, dotProduct_single, unmarked, zero_mul, add_zero, Pi.single_add, add_assoc]

theorem fan_phase {c : Form ℝ} (valid : Tableau n c) (q : Fin n) (l : List ℕ) (within : ∀ i ∈ l, i < n) (once : l.Nodup) :
    Before n c (l.foldl (fun c i => c.rightCZ q i) c)
      ∧ ∀ x, phase n (l.foldl (fun c i => c.rightCZ q i) c) x
            = phase n c x + twice ((x ᵥ* table n c.f) q * (marks n l ⬝ᵥ (x ᵥ* table n c.f)))
          ∧ x ᵥ* table n (l.foldl (fun c i => c.rightCZ q i) c).f = x ᵥ* table n c.f := by
  induction l generalizing c with
  | nil => exact ⟨⟨valid, rfl, rfl⟩, fun x => ⟨by rw [marks_nil, zero_dotProduct, mul_zero, twice_zero, add_zero]; rfl, rfl⟩⟩
  | cons i l ih =>
      obtain ⟨fresh, once⟩ := List.nodup_cons.mp once
      let r : Fin n := ⟨i, within i List.mem_cons_self⟩
      obtain ⟨⟨held, layer, scalar⟩, moved⟩ := ih (valid.rightCZ q r)
        (fun j member => within j (List.mem_cons_of_mem i member)) once
      refine ⟨⟨held, layer, scalar⟩, fun x => ?_⟩
      obtain ⟨phases, place⟩ := moved x
      have flips : table n (c.rightCZ q r).f = table n c.f := rfl
      rw [flips] at phases
      refine ⟨phases.trans ?_, place⟩
      rw [phase_rightCZ valid q r x, show i = (r : ℕ) from rfl, marks_cons r l fresh, add_dotProduct,
        single_one_dotProduct, mul_add, twice_add, add_assoc]

/-! The two basis states, gathered. -/

theorem marks_differing (c : Form ℝ) (t u : Array Bool) (j : Fin n) (width : c.n = n) :
    marks n (differing c t u) j = row n t j + row n u j := by
  have listed : (j : ℕ) ∈ differing c t u ↔ flag t j ≠ flag u j := by
    simp [differing, width]
  rw [marks, row, row, ← gf_ne]
  by_cases same : flag t j = flag u j
  · rw [if_neg (fun member => listed.mp member same), same]
    simp
  · rw [if_pos (listed.mpr same), bne_iff_ne.mpr same, gf_true]

theorem marks_outside (c : Form ℝ) (t u : Array Bool) (j : Fin n) :
    marks n (outside c t u) j = if flag c.v j then 0 else marks n (differing c t u) j := by
  cases inLayer : flag c.v j <;> simp [marks, outside, inLayer]

theorem marks_inside (c : Form ℝ) (t u : Array Bool) (j : Fin n) :
    marks n (inside c t u) j = if flag c.v j then marks n (differing c t u) j else 0 := by
  cases inLayer : flag c.v j <;> simp [marks, inside, inLayer]

theorem row_shared (c : Form ℝ) (t u b : Array Bool) (q j : Fin n) (width : c.n = n) (different : j ≠ q)
    (apart : flag t q ≠ flag u q) (either : b = t ∨ b = u) :
    row n b j = row n (shared n q t u) j + marks n (differing c t u) j * row n b q := by
  have elsewhere : (j : ℕ) ≠ q := fun equal => different (Fin.ext equal)
  rw [marks_differing c t u j width]
  have double := CharTwo.two_eq_zero (R := ZMod 2)
  cases first : flag t q with
  | false =>
      have second : flag u q = true := by
        cases value : flag u q with
        | false => exact absurd (first.trans value.symm) apart
        | true => rfl
      rcases either with rfl | rfl
      · simp [shared, first, row]
      · simp only [shared, first, second, row, Bool.false_eq_true, if_false, gf_true, mul_one]
        linear_combination -gf (flag t j) * double
  | true =>
      have second : flag u q = false := by
        cases value : flag u q with
        | false => rfl
        | true => exact absurd (first.trans value.symm) apart
      have kept : row n (shared n q t u) j = row n u j := by
        rw [shared, if_pos first, row_line, if_neg elsewhere]
        rfl
      rw [kept]
      rcases either with rfl | rfl
      · simp only [row, first, gf_true, mul_one]
        linear_combination -gf (flag u j) * double
      · simp [row, second]

noncomputable def others (v : Fin n → Bool) (y z : Fin n → ZMod 2) (q : Fin n) : ℂ :=
  ∏ j ∈ Finset.univ.erase q, cell (v j) (y j) (z j)

theorem layer_split (v : Fin n → Bool) (y z : Fin n → ZMod 2) (q : Fin n) :
    layer v y z = cell (v q) (y q) (z q) * others v y z q :=
  (Finset.mul_prod_erase Finset.univ _ (Finset.mem_univ q)).symm

theorem others_signed (v : Fin n → Bool) (y y' z z' s : Fin n → ZMod 2) (q : Fin n) (alone : s q = 0)
    (same : ∀ j, j ≠ q → cell (v j) (y j) (z j) = sgn (s j) * cell (v j) (y' j) (z' j)) :
    others v y z q = sgn (∑ j, s j) * others v y' z' q := by
  rw [← Finset.add_sum_erase Finset.univ s (Finset.mem_univ q), alone, zero_add, sgn_sum, others, others,
    ← Finset.prod_mul_distrib]
  exact Finset.prod_congr rfl fun j member => same j (Finset.ne_of_mem_erase member)

theorem cell_add (a d s z : ZMod 2) : cell true (a + d * s) z = sgn (z * d * s) * cell true a z := by
  rw [cell_layer, cell_layer, mul_add, sgn_add, mul_assoc z d s]
  ring

theorem cell_shift (a d z : ZMod 2) : cell false (a + d) z = cell false a (z + d) := by
  rw [cell_plain, cell_plain]
  refine if_congr ⟨fun same => ?_, fun same => ?_⟩ rfl rfl
  · rw [same, add_assoc, add_self_two, add_zero]
  · rw [← same, add_assoc, add_self_two, add_zero]

structure Gathered (n : ℕ) (c d : Form ℝ) (q : Fin n) (t u : Array Bool) : Prop extends Before n c d where
  apart : flag t q ≠ flag u q
  image : ∀ (x : Fin n → ZMod 2) (b : Array Bool), b = t ∨ b = u → image n c b x
    = iPow (phase n d x) * (cell (flag c.v q) (row n b q) ((x ᵥ* table n d.f) q)
      * others (fun j => flag c.v j) (row n (shared n q t u)) (x ᵥ* table n d.f) q)

theorem layer_outside (c : Form ℝ) (t u b : Array Bool) (q : Fin n) (rest : List ℕ) (width : c.n = n)
    (found : outside c t u = (q : ℕ) :: rest) (fresh : (q : ℕ) ∉ rest) (plain : flag c.v q = false)
    (apart : flag t q ≠ flag u q) (either : b = t ∨ b = u) (z z' : Fin n → ZMod 2) (place : z' = z + z q • marks n rest) :
    layer (fun j => flag c.v j) (row n b) z
      = sgn (z' q * (marks n (inside c t u) ⬝ᵥ z')) * (cell (flag c.v q) (row n b q) (z' q)
        * others (fun j => flag c.v j) (row n (shared n q t u)) z' q) := by
  have alone : marks n (inside c t u) q = 0 := by rw [marks_inside, plain, if_neg Bool.false_ne_true]
  have remaining : ∀ j, j ≠ q → marks n rest j = if flag c.v j then 0 else marks n (differing c t u) j := by
    intro j different
    rw [← marks_outside, found, marks_cons q rest fresh, Pi.add_apply, Pi.single_eq_of_ne different, zero_add]
  have kept : z' q = z q := by
    rw [place, Pi.add_apply, Pi.smul_apply, show marks n rest q = 0 from if_neg fresh, smul_zero, add_zero]
  rw [layer_split _ _ _ q, kept]
  simp only [plain, cell_plain]
  by_cases read : z q = row n b q
  · rw [if_pos read, one_mul, one_mul, dotProduct, Finset.mul_sum]
    refine others_signed _ _ _ _ _ (fun j => z q * (marks n (inside c t u) j * z' j)) q ?_ fun j different => ?_
    · rw [alone, zero_mul, mul_zero]
    · rw [row_shared c t u b q j width different apart either, ← read, marks_inside]
      have moved : z' j = z j + z q * marks n rest j := by rw [place]; rfl
      rw [moved, remaining j different]
      cases inLayer : flag c.v j with
      | false =>
          simp only [Bool.false_eq_true, if_false, zero_mul, mul_zero, sgn_zero, one_mul]
          rw [cell_shift, mul_comm]
      | true =>
          simp only [if_true, mul_zero, add_zero]
          rw [cell_add]
          exact congrArg (fun k => sgn k * cell true _ _) (by ring)
  · rw [if_neg read, zero_mul, zero_mul, mul_zero]

theorem layer_inside (c : Form ℝ) (t u b : Array Bool) (q : Fin n) (rest : List ℕ) (width : c.n = n)
    (none : outside c t u = []) (found : inside c t u = (q : ℕ) :: rest) (fresh : (q : ℕ) ∉ rest)
    (apart : flag t q ≠ flag u q) (either : b = t ∨ b = u) (z z' : Fin n → ZMod 2)
    (place : z' = z + Pi.single q (marks n rest ⬝ᵥ z)) :
    layer (fun j => flag c.v j) (row n b) z
      = cell (flag c.v q) (row n b q) (z' q) * others (fun j => flag c.v j) (row n (shared n q t u)) z' q := by
  have inLayer : flag c.v q = true := by
    have member : (q : ℕ) ∈ inside c t u := found ▸ List.mem_cons_self
    exact (List.mem_filter.mp member).2
  have remaining : ∀ j, j ≠ q → marks n rest j = marks n (differing c t u) j := by
    intro j different
    rw [← inside_of_outside_nil c t u none, found, marks_cons q rest fresh, Pi.add_apply, Pi.single_eq_of_ne different,
      zero_add]
  have kept : ∀ j, j ≠ q → z' j = z j := by
    intro j different
    rw [place, Pi.add_apply, Pi.single_eq_of_ne different, add_zero]
  have gained : z' q = z q + marks n rest ⬝ᵥ z := by rw [place, Pi.add_apply, Pi.single_eq_same]
  have signed := others_signed (fun j => flag c.v j) (row n b) (row n (shared n q t u)) z z'
    (fun j => marks n rest j * z j * row n b q) q (by rw [show marks n rest q = 0 from if_neg fresh, zero_mul, zero_mul])
    (by
      intro j different
      rw [row_shared c t u b q j width different apart either, ← remaining j different, kept j different]
      cases layered : flag c.v j with
      | true => rw [cell_add, mul_comm (z j)]
      | false =>
          have plain : marks n rest j = 0 := by
            rw [remaining j different, ← inside_of_outside_nil c t u none, marks_inside, layered, if_neg Bool.false_ne_true]
          rw [plain, zero_mul, zero_mul, zero_mul, sgn_zero, one_mul, add_zero])
  rw [layer_split _ _ _ q, signed, ← Finset.sum_mul, gained, inLayer, cell_layer, cell_layer, add_mul, sgn_add, dotProduct]
  ring

theorem gathered_outside {c : Form ℝ} (valid : Tableau n c) (t u : Array Bool) (q : ℕ) (rest : List ℕ)
    (found : outside c t u = q :: rest) : ∃ r : Fin n, (c.gather t u).1 = r ∧ Gathered n c (c.gather t u).2 r t u := by
  have width := valid.width
  have within : ∀ i ∈ differing c t u, i < n := fun i member => width ▸ differing_inside c t u i member
  have member : q ∈ outside c t u := found ▸ List.mem_cons_self
  obtain ⟨fresh, once⟩ := List.nodup_cons.mp (found ▸ (differing_nodup c t u).filter _ : (q :: rest).Nodup)
  let r : Fin n := ⟨q, within q (List.mem_of_mem_filter member)⟩
  have plain : flag c.v r = false := by simpa using (List.mem_filter.mp member).2
  have apart : flag t r ≠ flag u r := by simpa using (List.mem_filter.mp (List.mem_of_mem_filter member)).2
  have tail : ∀ i ∈ rest, i < n := fun i listed =>
    within i (List.mem_of_mem_filter (found ▸ List.mem_cons_of_mem q listed : i ∈ outside c t u))
  obtain ⟨⟨spread, spreadLayer, spreadScalar⟩, spreadMoves⟩ := fan_out valid r rest tail fresh once
  obtain ⟨⟨held, layer, scalar⟩, moves⟩ := fan_phase spread r (inside c t u)
    (fun i listed => within i (List.mem_of_mem_filter listed)) ((differing_nodup c t u).filter _)
  refine ⟨r, by rw [gather_outside c t u q rest found], ?_⟩
  rw [gather_outside c t u q rest found]
  refine ⟨⟨held, layer.trans spreadLayer, scalar.trans spreadScalar⟩, apart, fun x b either => ?_⟩
  obtain ⟨phases, place⟩ := moves x
  obtain ⟨spreadPhases, spreadPlace⟩ := spreadMoves x
  rw [phases, spreadPhases, iPow_add, iPow_twice, mul_assoc, place]
  exact congrArg (iPow (phase n c x) * ·)
    (layer_outside c t u b r rest width found fresh plain apart either _ _ spreadPlace)

theorem gathered_inside {c : Form ℝ} (valid : Tableau n c) (t u : Array Bool) (q : ℕ) (rest : List ℕ)
    (none : outside c t u = []) (found : inside c t u = q :: rest) :
    ∃ r : Fin n, (c.gather t u).1 = r ∧ Gathered n c (c.gather t u).2 r t u := by
  have width := valid.width
  have within : ∀ i ∈ inside c t u, i < n := fun i member =>
    width ▸ differing_inside c t u i (List.mem_of_mem_filter member)
  have member : q ∈ inside c t u := found ▸ List.mem_cons_self
  obtain ⟨fresh, once⟩ := List.nodup_cons.mp (found ▸ (differing_nodup c t u).filter _ : (q :: rest).Nodup)
  let r : Fin n := ⟨q, within q member⟩
  have apart : flag t r ≠ flag u r := by simpa using (List.mem_filter.mp (List.mem_of_mem_filter member)).2
  obtain ⟨before, moves⟩ := fan_in valid r rest (fun i listed => within i (found ▸ List.mem_cons_of_mem q listed)) fresh once
  refine ⟨r, by rw [gather_inside c t u q rest none found], ?_⟩
  rw [gather_inside c t u q rest none found]
  refine ⟨before, apart, fun x b either => ?_⟩
  obtain ⟨phases, place⟩ := moves x
  rw [phases]
  exact congrArg (iPow (phase n c x) * ·) (layer_inside c t u b r rest width none found fresh apart either _ _ place)

theorem Tableau.gathered {c : Form ℝ} (valid : Tableau n c) (t u : Array Bool) (tSize : t.size = n) (uSize : u.size = n)
    (different : t ≠ u) : ∃ q : Fin n, (c.gather t u).1 = q ∧ Gathered n c (c.gather t u).2 q t u := by
  have width := valid.width
  cases out : outside c t u with
  | cons q rest => exact gathered_outside valid t u q rest out
  | nil =>
      cases ins : inside c t u with
      | cons q rest => exact gathered_inside valid t u q rest out ins
      | nil =>
          have none : differing c t u = [] := inside_of_outside_nil c t u out ▸ ins
          exact absurd none (differing_ne_nil c t u (tSize.trans width.symm) (uSize.trans width.symm) different)

/-! The state that takes the place of the sum. -/

theorem row_opposite (t u : Array Bool) (q : Fin n) (apart : flag t q ≠ flag u q) : row n u q = row n t q + 1 := by
  rw [row, row]
  cases first : flag t q <;> cases second : flag u q
  · exact absurd (first.trans second.symm) apart
  · rfl
  · rfl
  · exact absurd (first.trans second.symm) apart

theorem flag_shared (t u : Array Bool) (q : Fin n) (apart : flag t q ≠ flag u q) : flag (shared n q t u) q = flag t q := by
  rw [shared]
  cases first : flag t q with
  | false => rw [if_neg Bool.false_ne_true, first]
  | true =>
      have second : flag u q = false := by
        cases value : flag u q with
        | false => rfl
        | true => exact absurd (first.trans value.symm) apart
      rw [if_pos rfl, flag_line, if_pos rfl, second]
      rfl

theorem phase_congr (c d : Form ℝ) (flips : c.f = d.f) (signs : c.m = d.m) (phases : c.gamma = d.gamma)
    (x : Fin n → ZMod 2) : phase n c x = phase n d x := by
  have always : ∀ k, partialPhase n c x k = partialPhase n d x k := by
    intro k
    induction k with
    | zero => rfl
    | succ k ih => simp only [partialPhase, ih, flips, signs, phases]
  exact always n

theorem sign_cast (negative : Bool) : ((if negative then -1 else 1 : ℝ) : ℂ) = sgn (gf negative) := by
  cases negative <;> simp

theorem wave_settle {c : Form ℝ} (valid : Tableau n c) (q : Fin n) (y : Array Bool) (r : Reduced ℝ) (alpha : Bool)
    (x : Fin n → ZMod 2) :
    wave n (c.settle q y r alpha) x
      = c.omega.toComplex * sgn (gf alpha) * (iPow (phase n c x) * (r.scalar.toComplex
        * ((if r.phase then iPow (lift ((x ᵥ* table n c.f) q)) else 1) * cell r.hadamard (gf r.value) ((x ᵥ* table n c.f) q))
        * others (fun j => flag c.v j) (row n y) (x ᵥ* table n c.f) q)) := by
  have width := valid.width
  have flips : table n (c.settle q y r alpha).f = table n c.f := by
    rw [Form.settle]
    cases r.phase <;> rfl
  have phases : phase n (c.settle q y r alpha) x
      = phase n c x + if r.phase then lift ((x ᵥ* table n c.f) q) else 0 := by
    cases phased : r.phase with
    | true =>
        rw [if_pos rfl, ← phase_rightS valid q x]
        refine phase_congr _ _ ?_ ?_ ?_ x
        all_goals simp only [Form.settle, phased, if_true]; rfl
    | false =>
        rw [if_neg Bool.false_ne_true, add_zero]
        refine phase_congr _ _ ?_ ?_ ?_ x
        all_goals simp only [Form.settle, phased, Bool.false_eq_true, if_false]
  have layerAt : ∀ j : Fin n, flag (c.settle q y r alpha).v j = if j = q then r.hadamard else flag c.v j := by
    intro j
    subst width
    simp only [Form.settle]
    cases r.phase <;> simp [Form.rightS, Fin.ext_iff]
  have baseAt : ∀ j : Fin n, row n (c.settle q y r alpha).s j = if j = q then gf r.value else row n y j := by
    intro j
    subst width
    simp only [Form.settle]
    cases r.phase <;> by_cases same : (j : ℕ) = q <;> simp [Form.rightS, same, Fin.ext_iff, row]
  have scalar : (c.settle q y r alpha).omega.toComplex = c.omega.toComplex * (r.scalar.toComplex * sgn (gf alpha)) := by
    simp only [Form.settle]
    cases r.phase <;> simp [Form.rightS, sign_cast]
  have factors : layer (fun j : Fin n => flag (c.settle q y r alpha).v j) (row n (c.settle q y r alpha).s) (x ᵥ* table n c.f)
      = cell r.hadamard (gf r.value) ((x ᵥ* table n c.f) q)
        * others (fun j => flag c.v j) (row n y) (x ᵥ* table n c.f) q := by
    rw [layer_split _ _ _ q, layerAt, baseAt, if_pos rfl, if_pos rfl]
    refine congrArg (_ * ·) (Finset.prod_congr rfl fun j member => ?_)
    have different := Finset.ne_of_mem_erase member
    simp only [layerAt, baseAt, if_neg different]
  rw [wave, flips, phases, factors, scalar, iPow_add]
  cases r.phase
  all_goals
    simp only [Bool.false_eq_true, if_true, if_false, iPow_zero]
    ring

theorem wave_recombine {c : Form ℝ} (valid : Tableau n c) (t u : Array Bool) (delta : ℕ) (lower : delta < 4) (alpha : Bool)
    (tSize : t.size = n) (uSize : u.size = n) (x : Fin n → ZMod 2) :
    wave n (c.recombine t u delta alpha) x
      = c.omega.toComplex * sgn (gf alpha) * root * (image n c t x + Complex.I ^ delta * image n c u x) := by
  by_cases same : t = u
  · have based := phase_congr (c.recombine t u delta alpha) c (by rw [recombine, if_pos same])
      (by rw [recombine, if_pos same]) (by rw [recombine, if_pos same]) x
    rw [wave, based, recombine, if_pos same, ← same, image]
    simp only [Cplx.toComplex_mul, Cplx.toComplex_scale, Cplx.toComplex_add, Cplx.toComplex_one, Cplx.toComplex_ipow,
      Complex.ofReal_mul, sign_real, sign_cast]
    rw [← root]
    ring
  · obtain ⟨q, pivot, ⟨⟨held, layer, scalar⟩, apart, images⟩⟩ := valid.gathered t u tSize uSize same
    have first := images x t (Or.inl rfl)
    have second := images x u (Or.inr rfl)
    rw [recombine_of_ne c (c.gather t u).2 t u q delta alpha same (by rw [← pivot]), held.width, layer,
      wave_settle held q, scalar, layer, flag_shared t u q apart, ← reduce_spec _ _ delta lower, first, second,
      row_opposite t u q apart]
    simp only [row]
    ring

/-! The sum, read at the amplitudes. -/

def based {R : Type} (c : Form R) (b : Array Bool) : Form R := { c with s := b }

theorem Tableau.amplitude_based {n : ℕ} {c : Form ℝ} (valid : Tableau n c) (b : Array Bool) (bits : List Bool)
    (length : bits.length = n) : ∃ a, (c.based b).amplitude? bits = some a
      ∧ a.toComplex = c.omega.toComplex * image n c b fun p : Fin n => gf (bits.getD p false) := by
  have width : (c.based b).n = n := valid.width
  have kept := phase_congr (c.based b) c rfl rfl rfl fun p : Fin n => gf (bits.getD p false)
  refine ⟨(c.based b).amplitude bits, if_pos (length.trans width.symm), ?_⟩
  rw [amplitude_eq_wave _ bits width, wave, kept]
  rfl

theorem recombination_exact (c : Form ℝ) (valid : Tableau c.n c) (t u : Array Bool) (tSize : t.size = c.n) (uSize : u.size = c.n)
    (delta : ℕ) (lower : delta < 4) (alpha : Bool) :
    Tableau c.n (c.recombine t u delta alpha) ∧ ∀ bits : List Bool, bits.length = c.n → ∃ a b z : Cplx ℝ,
      (c.based t).amplitude? bits = some a ∧ (c.based u).amplitude? bits = some b
        ∧ (c.recombine t u delta alpha).amplitude? bits = some z
        ∧ z.toComplex = (-1) ^ alpha.toNat / (√2 : ℝ) * (a.toComplex + Complex.I ^ delta * b.toComplex) := by
  have held := valid.recombine t u delta alpha tSize uSize
  refine ⟨held, fun bits length => ?_⟩
  obtain ⟨a, first, left⟩ := valid.amplitude_based t bits length
  obtain ⟨b, second, right⟩ := valid.amplitude_based u bits length
  refine ⟨a, b, (c.recombine t u delta alpha).amplitude bits, first, second, if_pos (length.trans held.width.symm), ?_⟩
  have sign : sgn (gf alpha) = (-1) ^ alpha.toNat := by cases alpha <;> simp
  rw [amplitude_eq_wave _ bits held.width, wave_recombine valid t u delta lower alpha tSize uSize, left, right, sign, root_eq]
  push_cast
  ring

theorem recombination_exact_pair : ∃ z : Cplx ℝ,
    ((zero 2 : Form ℝ).recombine #[false, true] #[true, false] 1 true).amplitude? [true, false] = some z
      ∧ z.toComplex = -Complex.I / (√2 : ℝ) := by
  obtain ⟨-, each⟩ := recombination_exact (zero 2) (tableau_zero 2) #[false, true] #[true, false] rfl rfl 1 (by decide) true
  obtain ⟨a, b, z, first, second, found, sum⟩ := each [true, false] rfl
  have absent : ((zero 2 : Form ℝ).based #[false, true]).amplitude [true, false] = 0 := by
    rw [amplitude]
    exact if_pos (by decide +kernel)
  have present : ((zero 2 : Form ℝ).based #[true, false]).amplitude [true, false] = 1 := by
    have power : (((zero 2 : Form ℝ).based #[true, false]).carried [true, false]).power % 4 = 0 := by decide +kernel
    have size : count ((zero 2 : Form ℝ).based #[true, false]).n (flag ((zero 2 : Form ℝ).based #[true, false]).v) = 0 := by
      decide +kernel
    have even : (count ((zero 2 : Form ℝ).based #[true, false]).n fun j => flag ((zero 2 : Form ℝ).based #[true, false]).v j
      && flag (((zero 2 : Form ℝ).based #[true, false]).carried [true, false]).flips j
      && flag ((zero 2 : Form ℝ).based #[true, false]).s j) = 0 := by decide +kernel
    simp only [amplitude]
    rw [if_neg (by decide +kernel), power, size, even]
    apply Cplx.toComplex_injective
    simp [based, zero, Scalar.invSqrtTwoPow]
  cases (congrArg some absent).symm.trans first
  cases (congrArg some present).symm.trans second
  refine ⟨z, found, sum.trans ?_⟩
  simp only [Bool.toNat_true, pow_one, Cplx.toComplex_zero, Cplx.toComplex_one, zero_add, mul_one]
  ring

end QuantumRegister.Form
