import QuantumRegister.Proofs.Stabilizer.Norm
import QuantumRegister.Proofs.Stabilizer.Simulation

/-!
Projection onto a value of one qubit. The `Z` of the qubit moves the basis state inside the Hadamard
layer; the form becomes the sum or the difference of the two, which is the part of the state with
that value, at its norm.
-/

set_option autoImplicit false

namespace QuantumRegister.Form

open Matrix

section Rows

variable {R : Type} {n : ℕ}

-- Where `Z_q` moves the basis state.
def beside (c : Form R) (q : ℕ) : Array Bool := line c.n fun j => (bit c.g q j && flag c.v j) ^^ flag c.s j

def Meets (c : Form R) (q : ℕ) : Prop := ∃ j < c.n, bit c.g q j = true ∧ flag c.v j = true

instance (c : Form R) (q : ℕ) : Decidable (Meets c q) := inferInstanceAs (Decidable (∃ j < c.n, _ ∧ _))

theorem base_line {c : Form R} (valid : Tableau n c) : line c.n (flag c.s) = c.s := by
  apply Array.ext (by rw [size_line, valid.width, valid.baseSize])
  intro i left right
  simp [line, flag, right]

theorem beside_eq (c : Form R) (q : ℕ) : line c.n (flag c.s) = c.beside q ↔ ¬c.Meets q := by
  constructor
  · rintro same ⟨j, inside, selected, layered⟩
    have entry := congrArg (flag · j) same
    have moved : flag (c.beside q) j = !flag c.s j := by
      rw [beside, flag, getD_line _ _ _ _ inside, selected, layered]
      simp
    rw [moved, flag, getD_line _ _ _ _ inside] at entry
    simp at entry
  · intro apart
    refine congrArg Array.ofFn (funext fun j => ?_)
    have none : (bit c.g q j && flag c.v j) = false := by
      by_contra both
      rw [Bool.not_eq_false, Bool.and_eq_true] at both
      exact apart ⟨j, j.isLt, both⟩
    simp only [none, Bool.false_xor]

end Rows

variable {n : ℕ}

theorem project_eq (c : Form ℝ) (q : ℕ) (b : Bool) :
    c.project q b = (if c.Meets q then c else { c with omega := c.omega.scale Scalar.invSqrtTwo }).recombine
      (line c.n (flag c.s)) (c.beside q) ((2 * c.ones q + 2 * b.toNat) % 4) false := by
  by_cases meets : c.Meets q
  · rw [if_pos meets, project]
    exact congrArg (fun d : Form ℝ => d.recombine _ _ _ false) (if_neg fun same => (beside_eq c q).mp same meets)
  · rw [if_neg meets, project]
    exact congrArg (fun d : Form ℝ => d.recombine _ _ _ false) (if_pos ((beside_eq c q).mpr meets))

-- What the projection multiplies the part of the state with the value by.
noncomputable def gain (c : Form ℝ) (q : ℕ) : ℂ := if c.Meets q then root + root else 1

theorem even_power (a b : ℕ) : Complex.I ^ ((2 * a + 2 * b) % 4) = sgn (a : ZMod 2) * sgn (b : ZMod 2) := by
  have split := power_mod 0 (a + b)
  rw [zero_add, mul_add, Nat.cast_zero, iPow_zero, one_mul] at split
  rw [split, ← sgn_add, Nat.cast_add]

theorem gf_toNat (b : Bool) : ((b.toNat : ℕ) : ZMod 2) = gf b := by cases b <;> rfl

-- Both terms of the sum are the state, up to the sign that the qubit reads.
theorem images_project {c : Form ℝ} (valid : Tableau n c) (q : Fin n) (b : Bool) (x : Fin n → ZMod 2) :
    image n c c.s x + Complex.I ^ ((2 * c.ones q + 2 * b.toNat) % 4) * image n c (c.beside q) x
      = if x q = gf b then 2 * image n c c.s x else 0 := by
  have width := valid.width
  have kept := layer_kept (fun j => flag c.v j) (table n c.g q) (row n c.s) (x ᵥ* table n c.f)
  have ones : (c.ones q : ZMod 2) = ∑ j, table n c.g q j * gf (!flag c.v j) * row n c.s j := by
    subst width
    simp only [ones, count_parity, gf_and]
    rfl
  have moved : row n (c.beside q) = fun j => row n c.s j + table n c.g q j * gf (flag c.v j) := by
    subst width
    funext j
    rw [beside, row_line, gf_xor, gf_and, add_comm]
    rfl
  have signed : image n c c.s x + sgn (x q + gf b) * image n c c.s x = if x q = gf b then 2 * image n c c.s x else 0 := by
    by_cases read : x q = gf b
    · rw [if_pos read, read, add_self_two, sgn_zero]
      ring
    · have apart : x q + gf b = 1 := (bit_cases _).resolve_left fun zero => read (by
        rw [← add_zero (x q), ← add_self_two (gf b), ← add_assoc, zero, zero_add])
      rw [if_neg read, apart, sgn_one]
      ring
  rw [← signed, even_power, ones, gf_toNat, image, image, moved, sgn_add]
  rw [valid.read] at kept
  linear_combination -iPow (phase n c x) * sgn (gf b) * kept

theorem wave_project {c : Form ℝ} (valid : Tableau n c) (q : Fin n) (b : Bool) (x : Fin n → ZMod 2) :
    wave n (c.project q b) x = gain c q * if x q = gf b then wave n c x else 0 := by
  have width := valid.width
  have sizes : (line c.n (flag c.s)).size = n ∧ (c.beside q).size = n := by simp [beside, width]
  have lower : ∀ k : ℕ, k % 4 < 4 := fun k => Nat.mod_lt k (by norm_num)
  have both := images_project valid q b x
  rw [project_eq, gain]
  by_cases meets : c.Meets q
  · rw [if_pos meets, if_pos meets, wave_recombine valid _ _ _ (lower _) _ sizes.1 sizes.2, base_line valid, both,
      wave_eq_image, gf_false, sgn_zero]
    split
    all_goals ring
  · have scaled := valid.withBase c.s c.v (c.omega.scale Scalar.invSqrtTwo) valid.baseSize valid.layerSize
    have same : ∀ b, image n { c with omega := c.omega.scale Scalar.invSqrtTwo } b x = image n c b x := fun b => by
      rw [image, phase_congr { c with omega := c.omega.scale Scalar.invSqrtTwo } c rfl rfl rfl x]
      rfl
    rw [if_neg meets, if_neg meets, wave_recombine scaled _ _ _ (lower _) _ sizes.1 sizes.2, same, same, base_line valid,
      both, wave_eq_image, gf_false, sgn_zero, Cplx.toComplex_scale, ← root]
    split
    · linear_combination (2 * c.omega.toComplex * image n c c.s x) * root_square
    · ring

/-! The scalar turns, or becomes zero where the value is excluded. -/

theorem turned_project {c : Form ℝ} (valid : Tableau n c) (q : ℕ) (b : Bool) (meets : c.Meets q) :
    Turned c (c.project q b) := by
  have width := valid.width
  rw [project_eq, if_pos meets]
  exact turned_recombine valid _ _ _ (Nat.mod_lt _ (by norm_num)) false (by simp [width]) (by simp [beside, width])
    fun same => (beside_eq c q).mp same meets

theorem omega_project (c : Form ℝ) (q : ℕ) (b : Bool) (apart : ¬c.Meets q) :
    (c.project q b).omega.toComplex = c.omega.toComplex * if (c.ones q : ZMod 2) = gf b then 1 else 0 := by
  have halved : (c.project q b).omega.toComplex = c.omega.toComplex * (1 / 2 * (1 + sgn ((c.ones q : ZMod 2) + gf b))) := by
    rw [project_eq, if_neg apart, omega_recombine_same _ _ _ _ _ ((beside_eq c q).mpr apart), Cplx.toComplex_scale,
      even_power, gf_toNat, gf_false, sgn_zero, sgn_add, ← root]
    linear_combination c.omega.toComplex * (1 + sgn (c.ones q : ZMod 2) * sgn (gf b)) * root_square
  rw [halved]
  by_cases read : (c.ones q : ZMod 2) = gf b
  · rw [if_pos read, read, add_self_two, sgn_zero]
    norm_num
  · have other : (c.ones q : ZMod 2) + gf b = 1 := by
      revert read
      generalize (c.ones q : ZMod 2) = y
      generalize gf b = z
      revert y z
      decide
    rw [if_neg read, other, sgn_one]
    norm_num

theorem normal_project {c : Form ℝ} (valid : Tableau n c) (normal : Normal c) (q : ℕ) (b : Bool) :
    Normal (c.project q b) := by
  by_cases meets : c.Meets q
  · exact normal.turned (turned_project valid q b meets)
  · have scaled := omega_project c q b meets
    by_cases read : (c.ones q : ZMod 2) = gf b
    · rw [if_pos read] at scaled
      exact normal.scaled 1 (map_one _) scaled
    · rw [if_neg read, mul_zero] at scaled
      exact Or.inl scaled

theorem Reachable.normal {c : Form ℝ} (reached : Reachable c) : Normal c := by
  have start : ∀ n, Normal (Form.zero n) := fun n => Or.inr (by simp [Form.zero])
  induction reached with
  | zero n => exact start n
  | basis n index => exact (start n).turned (turned_basis n index)
  | gate c k before fits _ held => exact held.turned (turned_apply before.tableau k fits)
  | swap c a b _ _ _ _ held => exact held
  | project c q outcome before _ held => exact normal_project before.tableau held q outcome
  | measure c q source before _ held => exact normal_project before.tableau held q _
  | kron a b left right heldLeft heldRight =>
      rcases heldLeft with zero | length
      · exact Or.inl (by simp [Form.kron, zero])
      · exact heldRight.scaled _ length (by simp [Form.kron, mul_comm])
  | reindex c axes _ _ held => exact held

/-! Amplitude by amplitude. -/

noncomputable def projected (c : Form ℝ) (q : Fin c.n) (b : Bool) : Vector c.n := fun x =>
  if x q = b then (c.amplitude (List.ofFn x)).toComplex else 0

noncomputable def strings (n : ℕ) : (Fin n → Bool) ≃ (Fin n → ZMod 2) :=
  Equiv.ofBijective field ⟨fun x y same => funext fun k => (gf_inj _ _).mp (congrFun same k), fun z =>
    ⟨fun k => decide (z k = 1), funext fun k => by rcases bit_cases (z k) with set | set <;> simp [field, set]⟩⟩

theorem total_vector {c : Form ℝ} (valid : Tableau n c) :
    ∑ x, Complex.normSq (vector n c x) = Complex.normSq c.omega.toComplex := by
  rw [← total_wave valid, total, ← Equiv.sum_comp (strings n)]
  rfl

theorem positive_gain (p : Prop) [Decidable p] : ∃ r : ℝ, 0 < r ∧ (if p then root + root else 1) = (r : ℂ) := by
  split
  · exact ⟨2 * (1 / Real.sqrt 2), by positivity, by rw [root_eq]; push_cast; ring⟩
  · exact ⟨1, zero_lt_one, by norm_num⟩

theorem projected_eq (c : Form ℝ) (q : Fin c.n) (b : Bool) (x : Fin c.n → Bool) :
    projected c q b x = if x q = b then vector c.n c x else 0 := by
  rw [projected, amplitude_string rfl (List.ofFn x) x fun k => by simp]

theorem vector_part {c : Form ℝ} (valid : Tableau n c) (q : Fin n) (b : Bool) (x : Fin n → Bool) :
    vector n (c.project q b) x = gain c q * if x q = b then vector n c x else 0 := by
  rw [vector, wave_project valid]
  exact congrArg (gain c q * ·) (if_congr (gf_inj (x q) b) rfl rfl)

theorem vector_project (c : Form ℝ) (valid : Tableau c.n c) (q : Fin c.n) (b : Bool) :
    vector c.n (c.project q b) = gain c q • projected c q b := by
  funext x
  rw [vector_part valid, Pi.smul_apply, projected_eq]
  rfl

theorem weighed (c : Form ℝ) (valid : Tableau c.n c) (q : Fin c.n) (b : Bool) :
    Complex.normSq (gain c q) * ∑ x, Complex.normSq (projected c q b x)
      = Complex.normSq (c.project q b).omega.toComplex := by
  rw [← total_vector (valid.project q b), vector_project c valid, Finset.mul_sum]
  exact Finset.sum_congr rfl fun x _ => (map_mul _ _ _).symm

-- The factor makes up for the length of the part that is kept.
theorem gain_norm (c : Form ℝ) (reached : Reachable c) (q : Fin c.n) (b : Bool) (present : projected c q b ≠ 0) :
    gain c q * Real.sqrt (∑ y, Complex.normSq (projected c q b y)) = 1 := by
  have valid := reached.tableau
  obtain ⟨r, positive, real⟩ : ∃ r : ℝ, 0 < r ∧ gain c q = r := positive_gain (c.Meets q)
  have weighed := weighed c valid q b
  rw [real, Complex.normSq_ofReal] at weighed
  set norm := ∑ y, Complex.normSq (projected c q b y)
  have length : 0 < norm := by
    obtain ⟨y, visible⟩ := Function.ne_iff.mp present
    exact Finset.sum_pos' (fun y _ => Complex.normSq_nonneg _) ⟨y, Finset.mem_univ y, Complex.normSq_pos.mpr visible⟩
  have one : r * r * norm = 1 := by
    rcases normal_project valid reached.normal q b with zero | length
    · rw [zero, map_zero] at weighed
      exact absurd weighed (by positivity)
    · rw [weighed, length]
  have root : r * Real.sqrt norm = 1 := by
    rw [← Real.sqrt_mul_self positive.le, ← Real.sqrt_mul (by positivity), one, Real.sqrt_one]
  rw [real, ← Complex.ofReal_mul, root, Complex.ofReal_one]

theorem projection_exact (c : Form ℝ) (reached : Reachable c) (q : Fin c.n) (b : Bool) :
    ∃ d, c.project? q b = some d
      ∧ (projected c q b ≠ 0 → ∀ x : Fin c.n → Bool, (d.amplitude? (List.ofFn x)).map Cplx.toComplex
          = some (projected c q b x / Real.sqrt (∑ y, Complex.normSq (projected c q b y))))
      ∧ (projected c q b = 0 → ∀ x : Fin c.n → Bool, (d.amplitude? (List.ofFn x)).map Cplx.toComplex = some 0) := by
  have valid := reached.tableau
  have width := (valid.project q b).width
  have read : ∀ x : Fin c.n → Bool, ((c.project q b).amplitude? (List.ofFn x)).map Cplx.toComplex
      = some (gain c q * projected c q b x) := by
    intro x
    rw [amplitude?, if_pos (by rw [List.length_ofFn, width]), Option.map_some,
      amplitude_string width (List.ofFn x) x fun k => by simp, vector_project c valid]
    rfl
  refine ⟨c.project q b, if_pos (by simp [readable]), fun present x => ?_, fun absent x => ?_⟩
  · have unit := gain_norm c reached q b present
    rw [read, eq_div_of_mul_eq (right_ne_zero_of_mul_eq_one unit) unit, one_div, div_eq_inv_mul]
  · rw [read, absent, Pi.zero_apply, mul_zero]

noncomputable def entangledPair : Form ℝ := ((zero 2).apply (.h 0)).apply (.cx 0 1)

theorem wave_entangledPair : wave 2 entangledPair 1 = root := by
  have start := tableau_zero (R := ℝ) 2
  have moved : (1 + Pi.single 1 1 : Fin 2 → ZMod 2) + Pi.single 0 1 = 0 := by decide
  have apart : (1 + Pi.single 1 1 : Fin 2 → ZMod 2) ≠ 0 := by decide
  have entangled : wave 2 entangledPair 1 = wave 2 ((zero 2 : Form ℝ).applyH 0) (1 + Pi.single 1 1) :=
    wave_applyCX (start.applyH 0) 0 1 (by decide) 1
  have turned : wave 2 ((zero 2 : Form ℝ).applyH 0) (1 + Pi.single 1 1) = _ := wave_applyH start 0 _
  rw [entangled, turned, moved, wave_zero, wave_zero, if_pos rfl, if_neg apart, mul_zero, add_zero, mul_one]

theorem projection_exact_pair : Reachable entangledPair ∧ ∃ d, entangledPair.project? 0 true = some d
    ∧ (d.amplitude? [true, true]).map Cplx.toComplex = some 1 := by
  have reached : Reachable entangledPair := .gate _ _ (.gate _ _ (.zero 2) rfl (by decide)) rfl (by decide)
  let first : Fin entangledPair.n := (0 : Fin 2)
  have part : projected entangledPair first true (fun _ => true) = root := by
    rw [projected, if_pos rfl, amplitude_string rfl _ (fun _ => true) fun k => by simp]
    exact wave_entangledPair
  have present : projected entangledPair first true ≠ 0 := by
    intro absent
    have square := root_square
    rw [← part, absent, Pi.zero_apply, mul_zero] at square
    norm_num at square
  have unit := gain_norm entangledPair reached first true present
  have doubled : gain entangledPair first = root + root := if_pos (by decide +kernel)
  obtain ⟨d, ran, kept, -⟩ := projection_exact entangledPair reached first true
  refine ⟨reached, d, ran, (kept present fun _ => true).trans (congrArg some ?_)⟩
  rw [part, div_eq_iff (right_ne_zero_of_mul_eq_one unit), one_mul]
  rw [doubled] at unit
  linear_combination 2 * Real.sqrt (∑ y, Complex.normSq (projected entangledPair first true y)) * root_square - root * unit

end QuantumRegister.Form
