import QuantumRegister.Gate.Basic
import QuantumRegister.Proofs.Stabilizer.Gates
import QuantumRegister.Stabilizer.Readout

/-!
Circuits of Clifford gates, run on a form and applied as matrices to the whole space of states.
-/

set_option autoImplicit false

namespace QuantumRegister.Form

open Matrix

variable {n : ℕ}

inductive Step (n : ℕ) where
  | h (q : Fin n)
  | s (q : Fin n)
  | x (q : Fin n)
  | y (q : Fin n)
  | z (q : Fin n)
  | cx (a b : Fin n) (different : a ≠ b)
  | cz (a b : Fin n) (different : a ≠ b)
  | swap (a b : Fin n) (different : a ≠ b)

def Step.run? {R : Type} [Scalar R] (c : Form R) : Step n → Option (Form R)
  | .h q => c.applyGate? (.h q)
  | .s q => c.applyGate? (.s q)
  | .x q => c.applyGate? (.x q)
  | .y q => c.applyGate? (.y q)
  | .z q => c.applyGate? (.z q)
  | .cx a b _ => c.applyGate? (.cx a b)
  | .cz a b _ => c.applyGate? (.cz a b)
  | .swap a b _ => c.applySwap? a b

/-! The basis states of `n` qubits are their bit strings. -/

abbrev Vector (n : ℕ) := (Fin n → Bool) → ℂ

def place (targets : List (Fin n)) (x : Fin n → Bool) : ℕ :=
  targets.foldl (fun acc k => 2 * acc + (x k).toNat) 0

noncomputable def embed (targets : List (Fin n)) (m : Operator ℝ) : Matrix (Fin n → Bool) (Fin n → Bool) ℂ :=
  fun x y => if ∀ k, k ∉ targets → x k = y k then (m.entry (place targets x) (place targets y)).toComplex else 0

theorem embed_of_agree (targets : List (Fin n)) (m : Operator ℝ) (x y : Fin n → Bool)
    (agree : ∀ k, k ∉ targets → x k = y k) :
    embed targets m x y = (m.entry (place targets x) (place targets y)).toComplex := if_pos agree

theorem embed_of_not_agree (targets : List (Fin n)) (m : Operator ℝ) (x y : Fin n → Bool)
    (apart : ¬∀ k, k ∉ targets → x k = y k) : embed targets m x y = 0 := if_neg apart

noncomputable def Step.matrix : Step n → Matrix (Fin n → Bool) (Fin n → Bool) ℂ
  | .h q => embed [q] Gate.hadamard
  | .s q => embed [q] (Gate.phase Cplx.i)
  | .x q => embed [q] Gate.pauliX
  | .y q => embed [q] Gate.pauliY
  | .z q => embed [q] Gate.pauliZ
  | .cx a b _ => embed [a, b] Gate.pauliX.controlled
  | .cz a b _ => embed [a, b] Gate.pauliZ.controlled
  | .swap a b _ => embed [a, b] (Operator.exchange 4 1 2)

def bitString (n index : ℕ) : Fin n → Bool := fun k => index.testBit (n - 1 - k)

noncomputable def evolve (index : ℕ) (steps : List (Step n)) : Vector n :=
  steps.foldl (fun w k => k.matrix *ᵥ w) (Pi.single (bitString n index) 1)

/-! Matrices on one and two qubits, applied. -/

theorem embed_one (q : Fin n) (m : Operator ℝ) (w : Vector n) (x : Fin n → Bool) :
    (embed [q] m *ᵥ w) x
      = ∑ p : Bool, (m.entry (x q).toNat p.toNat).toComplex * w (Function.update x q p) := by
  refine (Fintype.sum_of_injective (fun p : Bool => Function.update x q p) (Function.update_injective x q) _ _ ?_ ?_).symm
  · intro y missing
    refine mul_eq_zero_of_left (embed_of_not_agree _ _ _ _ fun agree => ?_) _
    refine missing ⟨y q, ?_⟩
    funext k
    by_cases same : k = q
    · subst same
      exact Function.update_self _ _ _
    · exact (Function.update_of_ne same _ _).trans (agree k (by simpa using same))
  · intro p
    have entry := embed_of_agree [q] m x (Function.update x q p) fun k other =>
      (Function.update_of_ne (by simpa using other) _ _).symm
    simp only [entry, place, List.foldl_cons, List.foldl_nil, Function.update_self, mul_zero, zero_add]

theorem embed_two (a b : Fin n) (different : a ≠ b) (m : Operator ℝ) (w : Vector n) (x : Fin n → Bool) :
    (embed [a, b] m *ᵥ w) x
      = ∑ p : Bool × Bool, (m.entry (2 * (x a).toNat + (x b).toNat) (2 * p.1.toNat + p.2.toNat)).toComplex
        * w (Function.update (Function.update x a p.1) b p.2) := by
  have atFirst : ∀ p : Bool × Bool, Function.update (Function.update x a p.1) b p.2 a = p.1 := fun p => by
    rw [Function.update_of_ne different, Function.update_self]
  have atSecond : ∀ p : Bool × Bool, Function.update (Function.update x a p.1) b p.2 b = p.2 := fun p =>
    Function.update_self _ _ _
  have elsewhere : ∀ (p : Bool × Bool) (k : Fin n), k ≠ a → k ≠ b →
      Function.update (Function.update x a p.1) b p.2 k = x k := fun p k notFirst notSecond => by
    rw [Function.update_of_ne notSecond, Function.update_of_ne notFirst]
  have injective : Function.Injective fun p : Bool × Bool => Function.update (Function.update x a p.1) b p.2 := by
    intro p r same
    refine Prod.ext ?_ ?_
    · rw [← atFirst p, ← atFirst r]
      exact congrFun same a
    · rw [← atSecond p, ← atSecond r]
      exact congrFun same b
  refine (Fintype.sum_of_injective _ injective _ _ ?_ ?_).symm
  · intro y missing
    refine mul_eq_zero_of_left (embed_of_not_agree _ _ _ _ fun agree => ?_) _
    refine missing ⟨(y a, y b), ?_⟩
    funext k
    by_cases first : k = a
    · subst first
      exact atFirst _
    · by_cases second : k = b
      · subst second
        exact atSecond _
      · exact (elsewhere _ k first second).trans (agree k (by simp [first, second]))
  · intro p
    have entry := embed_of_agree [a, b] m x (Function.update (Function.update x a p.1) b p.2) fun k other => by
      have outside : k ≠ a ∧ k ≠ b := by simpa using other
      exact (elsewhere p k outside.1 outside.2).symm
    simp only [entry, place, List.foldl_cons, List.foldl_nil, atFirst, atSecond, mul_zero, zero_add]

def toggle (x : Fin n → Bool) (q : Fin n) : Fin n → Bool := Function.update x q (!x q)

theorem embed_bit (q : Fin n) (m : Operator ℝ) (w : Vector n) (x : Fin n → Bool) :
    (embed [q] m *ᵥ w) x = (m.entry (x q).toNat (x q).toNat).toComplex * w x
      + (m.entry (x q).toNat (!x q).toNat).toComplex * w (toggle x q) := by
  have kept : Function.update x q (x q) = x := Function.update_eq_self q x
  rw [embed_one, Fintype.sum_bool, toggle]
  cases value : x q with
  | false => rw [value] at kept; rw [kept, add_comm]; rfl
  | true => rw [value] at kept; rw [kept]; rfl

theorem embed_hadamard (q : Fin n) (w : Vector n) (x : Fin n → Bool) :
    (embed [q] Gate.hadamard *ᵥ w) x = root * (w (toggle x q) + sgn (gf (x q)) * w x) := by
  have diagonal : ((Gate.hadamard : Operator ℝ).entry (x q).toNat (x q).toNat).toComplex = sgn (gf (x q)) * root := by
    cases x q with
    | false => exact (one_mul root).symm
    | true => exact (neg_one_mul root).symm
  have across : ((Gate.hadamard : Operator ℝ).entry (x q).toNat (!x q).toNat).toComplex = root := by
    cases x q <;> rfl
  rw [embed_bit, diagonal, across]
  ring

theorem embed_phase (q : Fin n) (z : Cplx ℝ) (w : Vector n) (x : Fin n → Bool) :
    (embed [q] (Gate.phase z) *ᵥ w) x = (if x q then z.toComplex else 1) * w x := by
  have diagonal : ((Gate.phase z).entry (x q).toNat (x q).toNat).toComplex = if x q then z.toComplex else 1 := by
    cases x q <;> rfl
  have across : ((Gate.phase z).entry (x q).toNat (!x q).toNat).toComplex = 0 := by
    cases x q <;> rfl
  rw [embed_bit, diagonal, across, zero_mul, add_zero]

theorem embed_pauliX (q : Fin n) (w : Vector n) (x : Fin n → Bool) :
    (embed [q] Gate.pauliX *ᵥ w) x = w (toggle x q) := by
  have diagonal : ((Gate.pauliX : Operator ℝ).entry (x q).toNat (x q).toNat).toComplex = 0 := by
    cases x q <;> rfl
  have across : ((Gate.pauliX : Operator ℝ).entry (x q).toNat (!x q).toNat).toComplex = 1 := by
    cases x q <;> rfl
  rw [embed_bit, diagonal, across, zero_mul, zero_add, one_mul]

theorem embed_pauliY (q : Fin n) (w : Vector n) (x : Fin n → Bool) :
    (embed [q] Gate.pauliY *ᵥ w) x = -(Complex.I * sgn (gf (x q))) * w (toggle x q) := by
  have diagonal : ((Gate.pauliY : Operator ℝ).entry (x q).toNat (x q).toNat).toComplex = 0 := by
    cases x q <;> rfl
  have across : ((Gate.pauliY : Operator ℝ).entry (x q).toNat (!x q).toNat).toComplex = -(Complex.I * sgn (gf (x q))) := by
    cases x q with
    | false => exact (congrArg Neg.neg (mul_one Complex.I)).symm
    | true =>
        have entry : (Gate.pauliY : Operator ℝ).entry 1 0 = Cplx.i := rfl
        simp [entry]
  rw [embed_bit, diagonal, across, zero_mul, zero_add]

theorem entry_controlled_bits (u : Operator ℝ) (rows : u.rows = 2) (xa xb ya yb : Bool) :
    u.controlled.entry (2 * xa.toNat + xb.toNat) (2 * ya.toNat + yb.toNat)
      = if xa && ya then u.entry xb.toNat yb.toNat else if xa = ya ∧ xb = yb then 1 else 0 := by
  rw [Operator.entry_controlled, rows]
  · cases xa <;> cases xb <;> cases ya <;> cases yb <;> rfl
  · rw [rows]
    cases xa <;> cases xb <;> decide
  · rw [rows]
    cases ya <;> cases yb <;> decide

theorem embed_controlled (a b : Fin n) (different : a ≠ b) (u : Operator ℝ) (rows : u.rows = 2) (w : Vector n)
    (x : Fin n → Bool) : (embed [a, b] u.controlled *ᵥ w) x = if x a then (embed [b] u *ᵥ w) x else w x := by
  have keptFirst : Function.update x a (x a) = x := Function.update_eq_self a x
  have keptSecond : Function.update x b (x b) = x := Function.update_eq_self b x
  rw [embed_two a b different, Fintype.sum_prod_type, Fintype.sum_bool]
  simp only [entry_controlled_bits u rows]
  cases set : x a with
  | false =>
      rw [set] at keptFirst
      simp only [keptFirst, Bool.false_and, Bool.false_eq_true, if_false, false_and, true_and, Cplx.toComplex_zero,
        zero_mul, Finset.sum_const_zero, zero_add, Fintype.sum_bool]
      cases value : x b with
      | false => rw [value] at keptSecond; simp [keptSecond]
      | true => rw [value] at keptSecond; simp [keptSecond]
  | true =>
      rw [set] at keptFirst
      simp only [keptFirst, Bool.true_and, if_true, Bool.false_eq_true, if_false, Bool.true_eq_false, false_and,
        Cplx.toComplex_zero, zero_mul, Finset.sum_const_zero, add_zero, embed_one]

theorem embed_exchange (a b : Fin n) (different : a ≠ b) (w : Vector n) (x : Fin n → Bool) :
    (embed [a, b] (Operator.exchange 4 1 2) *ᵥ w) x = w (x ∘ Equiv.swap a b) := by
  have entry : ∀ p : Bool × Bool, ((Operator.exchange 4 1 2 : Operator ℝ).entry (2 * (x a).toNat + (x b).toNat)
      (2 * p.1.toNat + p.2.toNat)).toComplex = if p = (x b, x a) then 1 else 0 := by
    rintro ⟨first, second⟩
    cases x a <;> cases x b <;> cases first <;> cases second <;> rfl
  have crossed : Function.update (Function.update x a (x b)) b (x a) = x ∘ Equiv.swap a b := by
    funext k
    by_cases second : k = b
    · subst second
      simp
    · rw [Function.update_of_ne second]
      by_cases first : k = a
      · subst first
        simp
      · rw [Function.update_of_ne first, Function.comp_apply, Equiv.swap_apply_of_ne_of_ne first second]
  rw [embed_two a b different]
  simp only [entry, ite_mul, one_mul, zero_mul, Finset.sum_ite_eq', Finset.mem_univ, if_true, crossed]

/-! One step, and a whole run. -/

def field (x : Fin n → Bool) : Fin n → ZMod 2 := fun k => gf (x k)

noncomputable def vector (n : ℕ) (c : Form ℝ) : Vector n := fun x => wave n c (field x)

theorem field_toggle (x : Fin n → Bool) (q : Fin n) : field (toggle x q) = field x + Pi.single q 1 := by
  funext k
  rw [add_single_apply, field, field, toggle]
  by_cases same : k = q
  · subst same
    rw [Function.update_self, if_pos rfl, gf_not, add_comm]
  · rw [Function.update_of_ne same, if_neg same, add_zero]

theorem sign_phase (b : Bool) : sgn (gf b) = if b then (-1 : Cplx ℝ).toComplex else 1 := by
  rw [Cplx.toComplex_neg, Cplx.toComplex_one, sgn_gf]

theorem Step.exact {c : Form ℝ} (valid : Tableau n c) (k : Step n) :
    ∃ d, k.run? c = some d ∧ Tableau n d ∧ vector n d = k.matrix *ᵥ vector n c := by
  have width := valid.width
  have one : ∀ q : Fin n, ([(q : ℕ)].all fun i => decide (i < c.n)) = true := fun q => by simp [width]
  have two : ∀ a b : Fin n, ([(a : ℕ), (b : ℕ)].all fun i => decide (i < c.n)) = true := fun a b => by simp [width]
  cases k with
  | h q =>
      refine ⟨c.applyH q, if_pos (one q), valid.applyH q, funext fun x => ?_⟩
      rw [vector, wave_applyH valid, matrix, embed_hadamard, vector, vector, field_toggle]
      rfl
  | s q =>
      refine ⟨c.applyS q, if_pos (one q), valid.applyS q, funext fun x => ?_⟩
      rw [vector, wave_applyS valid, matrix, embed_phase, vector]
      have power : iPow (lift (gf (x q))) = if x q then (Cplx.i : Cplx ℝ).toComplex else 1 := by
        cases x q with
        | false => rfl
        | true => exact pow_one Complex.I
      rw [← power]
      rfl
  | x q =>
      refine ⟨c.applyX q, if_pos (one q), valid.applyX q, funext fun x => ?_⟩
      rw [vector, wave_applyX valid, matrix, embed_pauliX, vector, field_toggle]
  | y q =>
      refine ⟨c.applyY q, if_pos (one q), valid.applyY q, funext fun x => ?_⟩
      rw [vector, wave_applyY valid, matrix, embed_pauliY, vector, field_toggle]
      rfl
  | z q =>
      refine ⟨c.applyZ q, if_pos (one q), valid.applyZ q, funext fun x => ?_⟩
      rw [vector, wave_applyZ valid, matrix, Gate.pauliZ, embed_phase, vector, ← sign_phase]
      rfl
  | cx a b different =>
      refine ⟨c.applyCX a b, if_pos (two a b), valid.applyCX a b different, funext fun x => ?_⟩
      rw [vector, wave_applyCX valid a b different, matrix, embed_controlled a b different _ rfl, embed_pauliX, vector,
        field_toggle, show field x a = gf (x a) from rfl]
      cases x a with
      | false => rw [gf_false, Pi.single_zero, add_zero, if_neg Bool.false_ne_true]; rfl
      | true => rfl
  | cz a b different =>
      refine ⟨c.applyCZ a b, if_pos (by simp [fits, width]), valid.applyCZ a b different, funext fun x => ?_⟩
      rw [vector, wave_applyCZ valid a b different, matrix, embed_controlled a b different _ rfl, Gate.pauliZ, embed_phase,
        vector, ← sign_phase, show field x a = gf (x a) from rfl]
      cases x a with
      | false => rw [gf_false, zero_mul, sgn_zero, one_mul, if_neg Bool.false_ne_true]
      | true => rw [gf_true, one_mul, if_pos rfl]; rfl
  | swap a b different =>
      refine ⟨c.applySwap a b, if_pos (by simp [width]), valid.applySwap a b different, funext fun x => ?_⟩
      rw [vector, wave_applySwap valid a b different, matrix, embed_exchange a b different]
      rfl

theorem run_exact {c : Form ℝ} (valid : Tableau n c) (steps : List (Step n)) :
    ∃ d : Form ℝ, steps.foldlM Step.run? c = some d ∧ Tableau n d
      ∧ vector n d = steps.foldl (fun w k => k.matrix *ᵥ w) (vector n c) := by
  induction steps generalizing c with
  | nil => exact ⟨c, rfl, valid, rfl⟩
  | cons k steps ih =>
      obtain ⟨d, step, held, moved⟩ := k.exact valid
      obtain ⟨e, rest, settled, evolved⟩ := ih held
      refine ⟨e, ?_, settled, ?_⟩
      · rw [List.foldlM_cons, step]
        exact rest
      · rw [evolved, moved, List.foldl_cons]

theorem vector_basis (index : ℕ) : vector n (basis n index) = Pi.single (bitString n index) 1 := by
  funext x
  have injective : field x = (fun k : Fin n => gf (index.testBit (n - 1 - k))) ↔ x = bitString n index :=
    ⟨fun same => funext fun k => (gf_inj _ _).mp (congrFun same k), fun same => same ▸ rfl⟩
  rw [vector, wave_basis, Pi.single_apply]
  exact if_congr injective rfl rfl

theorem amplitude_string {c : Form ℝ} (width : c.n = n) (bits : List Bool) (x : Fin n → Bool)
    (read : ∀ k : Fin n, bits.getD k false = x k) : (c.amplitude bits).toComplex = vector n c x := by
  rw [amplitude_eq_wave c bits width, vector]
  exact congrArg (wave n c) (funext fun k => congrArg gf (read k))

theorem circuit_exact (index : ℕ) (steps : List (Step n)) :
    ∃ c : Form ℝ, steps.foldlM Step.run? (basis n index) = some c
      ∧ (∀ x : Fin n → Bool, (c.amplitude? (List.ofFn x)).map Cplx.toComplex = some (evolve index steps x))
      ∧ c.stateVector.map Cplx.toComplex = (List.range (2 ^ n)).map fun i => evolve index steps (bitString n i) := by
  obtain ⟨c, ran, valid, evolved⟩ := run_exact (tableau_basis n index) steps
  have width := valid.width
  rw [vector_basis, ← evolve] at evolved
  refine ⟨c, ran, fun x => ?_, ?_⟩
  · rw [amplitude?, if_pos (by rw [List.length_ofFn, width]), Option.map_some, ← evolved]
    refine congrArg some (amplitude_string width _ x fun k => ?_)
    simp
  · rw [stateVector, List.map_map, width, ← evolved]
    refine List.map_congr_left fun i _ => amplitude_string width _ _ fun k => ?_
    simp [bitsOf, bitString]

end QuantumRegister.Form
