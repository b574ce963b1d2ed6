import QuantumRegister.Proofs.Stabilizer.Born

/-!
States prepared by gates and measurements. Their scalar is an eighth root of unity, so their norm is
one, and each amplitude that does not vanish has the length that the Hadamard layer gives it.
-/

set_option autoImplicit false

namespace QuantumRegister.Form

open Matrix

-- What can be reached without projecting onto a value that was not measured.
inductive Prepared : Form ℝ → Prop where
  | zero (n : ℕ) : Prepared (zero n)
  | basis (n index : ℕ) : Prepared (basis n index)
  | gate (c : Form ℝ) (k : Generator ℕ) (before : Prepared c) (fits : c.fits k = true) (distinct : k.labels.Nodup) :
      Prepared (c.apply k)
  | swap (c : Form ℝ) (a b : ℕ) (before : Prepared c) (aInside : a < c.n) (bInside : b < c.n) (different : a ≠ b) :
      Prepared (c.applySwap a b)
  | measure (c : Form ℝ) (q : ℕ) (source : Random.Source) (before : Prepared c) (readable : c.readable q = true) :
      Prepared (c.measure q source).1.2
  | kron (a b : Form ℝ) (left : Prepared a) (right : Prepared b) : Prepared (a.kron b)
  | reindex (c : Form ℝ) (axes : List ℕ) (before : Prepared c) (perm : axes.Perm (List.range c.n)) :
      Prepared (c.reindex axes)

variable {c : Form ℝ}

theorem Prepared.reachable (prepared : Prepared c) : Reachable c := by
  induction prepared with
  | zero n => exact .zero n
  | basis n index => exact .basis n index
  | gate c k _ fits distinct held => exact .gate c k held fits distinct
  | swap c a b _ aInside bInside different held => exact .swap c a b held aInside bInside different
  | measure c q source _ readable held => exact .measure c q source held readable
  | kron a b _ _ left right => exact .kron a b left right
  | reindex c axes _ perm held => exact .reindex c axes held perm

theorem Turned.eighth {d : Form ℝ} (turned : Turned c d) (eighth : c.omega.toComplex ^ 8 = 1) : d.omega.toComplex ^ 8 = 1 := by
  obtain ⟨z, root, scaled⟩ := turned
  rw [scaled, mul_pow, eighth, root, one_mul]

theorem Prepared.eighth (prepared : Prepared c) : c.omega.toComplex ^ 8 = 1 := by
  have start : ∀ n, (Form.zero n : Form ℝ).omega.toComplex ^ 8 = 1 := fun n => one_pow 8
  induction prepared with
  | zero n => exact start n
  | basis n index => exact (turned_basis n index).eighth (start n)
  | gate c k before fits _ held => exact (turned_apply before.reachable.tableau k fits).eighth held
  | swap c a b _ _ _ _ held => exact held
  | measure c q source before _ held => exact (turned_measure before.reachable.tableau q source).eighth held
  | kron a b _ _ left right =>
      have product : (a.kron b).omega.toComplex = a.omega.toComplex * b.omega.toComplex := Cplx.toComplex_mul _ _
      rw [product, mul_pow, left, right, one_mul]
  | reindex c axes _ _ held => exact held

/-! Lengths of amplitudes. -/

theorem norm_root : ‖root‖ = 1 / Real.sqrt 2 := by
  rw [root_eq, Complex.norm_real, Real.norm_of_nonneg (by positivity)]

theorem norm_wave {n : ℕ} (width : c.n = n) (eighth : c.omega.toComplex ^ 8 = 1) (x : Fin n → ZMod 2) :
    wave n c x = 0 ∨ ‖wave n c x‖ = ‖root‖ ^ c.layerSize := by
  have size : c.layerSize = ∑ j : Fin n, if flag c.v j = true then 1 else 0 := by
    subst width
    exact count_eq_sum _ _
  have scalar : ‖c.omega.toComplex‖ = 1 := Complex.norm_eq_one_of_pow_eq_one eighth (by norm_num)
  have phased : ‖iPow (phase n c x)‖ = 1 := Complex.norm_eq_one_of_pow_eq_one (eighth_power _) (by norm_num)
  have signed : ∀ z, ‖sgn z‖ = 1 := fun z => Complex.norm_eq_one_of_pow_eq_one (eighth_sgn z) (by norm_num)
  by_cases agree : ∀ j : Fin n, flag c.v j = false → (x ᵥ* table n c.f) j = row n c.s j
  · right
    rw [wave, layer_eq (fun j : Fin n => flag c.v j) (row n c.s) _ agree, norm_mul, norm_mul, norm_mul, norm_pow, scalar,
      phased, signed, ← size, one_mul, one_mul, one_mul]
  · left
    push Not at agree
    obtain ⟨j, free, apart⟩ := agree
    rw [wave, layer_eq_zero (fun j : Fin n => flag c.v j) _ _ j free apart, mul_zero, mul_zero]

theorem half_power (k : ℕ) : (1 / Real.sqrt 2) ^ k = (2 : ℝ) ^ (-(k : ℝ) / 2) := by
  have base : 1 / Real.sqrt 2 = (2 : ℝ) ^ (-(1 / 2) : ℝ) := by
    rw [Real.rpow_neg (by norm_num), ← Real.sqrt_eq_rpow, one_div]
  rw [base, ← Real.rpow_natCast, ← Real.rpow_mul (by norm_num)]
  exact congrArg _ (by ring)

theorem scalar_stays_on_circle (c : Form ℝ) (prepared : Prepared c) :
    c.omega.toComplex ^ 8 = 1
      ∧ ∑ x : Fin c.n → Bool, Complex.normSq (c.amplitude (List.ofFn x)).toComplex = 1
      ∧ (∀ bits, bits.length = c.n → ∃ a, c.amplitude? bits = some a
          ∧ (a.toComplex = 0 ∨ ‖a.toComplex‖ = (2 : ℝ) ^ (-(c.layerSize : ℝ) / 2)))
      ∧ ∀ q < c.n, c.applyH q = c.recombine (c.signedBase q) (c.flippedBase q) (c.quarters q) (c.ones q % 2 == 1)
          ∧ (c.signedBase q = c.flippedBase q → c.quarters q % 2 = 1
              ∧ ‖(1 + Complex.I ^ c.quarters q) / Real.sqrt 2‖ = 1
              ∧ (c.applyH q).omega.toComplex = c.omega.toComplex
                  * ((if c.ones q % 2 == 1 then -1 else 1) * ((1 + Complex.I ^ c.quarters q) / Real.sqrt 2))) := by
  have valid := prepared.reachable.tableau
  have eighth := prepared.eighth
  refine ⟨eighth, ?_, fun bits length => ?_, fun q inside => ⟨rfl, fun same => ?_⟩⟩
  · rw [total_amplitudes valid, normSq_of_eighth _ eighth]
  · refine ⟨c.amplitude bits, if_pos length, ?_⟩
    have lengths := norm_wave rfl eighth fun p : Fin c.n => gf (bits.getD p false)
    rwa [← amplitude_eq_wave c bits rfl, norm_root, half_power] at lengths
  · have odd := quarters_odd valid ⟨q, inside⟩ same
    have factor : (1 + Complex.I ^ c.quarters q) / Real.sqrt 2 = root * (1 + Complex.I ^ c.quarters q) := by
      rw [root_eq, Complex.ofReal_div, Complex.ofReal_one]
      ring
    refine ⟨odd, ?_, ?_⟩
    · rw [factor]
      exact Complex.norm_eq_one_of_pow_eq_one (eighth_odd _ odd) (by norm_num)
    · rw [applyH_eq, omega_recombine_same c _ _ _ _ same, sgn_gf, factor]

noncomputable def measuredBeside : Form ℝ :=
  (entangledPair.measure 0 (.tape fun _ : Fin 1 => true)).1.2.kron (((zero 1).apply (.h 0)).apply (.s 0))

theorem scalar_stays_on_circle_pair : Prepared measuredBeside
    ∧ measuredBeside.signedBase 2 = measuredBeside.flippedBase 2
    ∧ measuredBeside.omega.toComplex ^ 8 = 1
    ∧ ‖(1 + Complex.I ^ measuredBeside.quarters 2) / Real.sqrt 2‖ = 1 := by
  have pair : Prepared entangledPair := .gate _ _ (.gate _ _ (.zero 2) rfl (by decide)) rfl (by decide)
  have measured := Prepared.measure entangledPair 0 (.tape fun _ : Fin 1 => true) pair rfl
  have lone : Prepared (((zero 1).apply (.h 0)).apply (.s 0)) := .gate _ _ (.gate _ _ (.zero 1) rfl (by decide)) rfl (by decide)
  have prepared : Prepared measuredBeside := .kron _ _ measured lone
  have same : measuredBeside.signedBase 2 = measuredBeside.flippedBase 2 := by decide +kernel
  obtain ⟨eighth, -, -, turns⟩ := scalar_stays_on_circle measuredBeside prepared
  exact ⟨prepared, same, eighth, ((turns 2 (by decide +kernel)).2 same).2.1⟩

end QuantumRegister.Form
