import QuantumRegister.Proofs.Dense.Algebra
import QuantumRegister.Proofs.Gate.Wave
import QuantumRegister.Proofs.Stabilizer.Recombine

/-!
A gate is described by a matrix, and some gates also by generators or by parts. All descriptions of a
gate are one operator, global phase included.
-/

set_option autoImplicit false

namespace QuantumRegister

open QuantumRegister.Form (root sgn iPow lift bit_cases root_square cis_eighth cis_neg_eighth sgn_add sgn_square
  single_twice)

def Generator.gate {R : Type} : Generator Qudit → Gate R
  | .h q => .h q
  | .s q => .s q
  | .x q => .x q
  | .y q => .y q
  | .z q => .z q
  | .cx a b => .cx a b
  | .cz a b => .cz a b

theorem Generator.targets_gate {R : Type} (k : Generator Qudit) : (k.gate : Gate R).targets = k.labels := by
  cases k <;> rfl

namespace Bits

noncomputable def run (gs : List (Gate ℝ)) (W : Bits → ℂ) : Bits → ℂ := gs.foldl (fun W g => acted g.targets g.matrix W) W

variable (W : Bits → ℂ)

/-! Generators. -/

theorem turn_sgn (x : ZMod 2) : turn (-1) x = sgn x := by
  rcases bit_cases x with rfl | rfl
  · rfl
  · rfl

theorem turn_iPow (x : ZMod 2) : turn Complex.I x = iPow (lift x) := by
  rcases bit_cases x with rfl | rfl
  · rfl
  · exact (pow_one Complex.I).symm

theorem acted_pauliZ (q : Qudit) : acted [q] Gate.pauliZ W = fun β => sgn (β q) * W β := by
  rw [Gate.pauliZ, acted_phase, Cplx.toComplex_neg, Cplx.toComplex_one]
  exact funext fun β => by rw [turn_sgn]

theorem acted_cx (a b : Qudit) (once : [a, b].Nodup) :
    acted [a, b] Gate.pauliX.controlled W = fun β => W (β + Pi.single b (β a)) := by
  rw [acted_controlled [b] W a once _ rfl, acted_pauliX]
  funext β
  rcases bit_cases (β a) with unset | set
  · rw [if_neg (by simp [unset]), unset, Pi.single_zero, add_zero]
  · rw [if_pos set, set]

theorem acted_generator (k : Generator Qudit) (once : k.labels.Nodup) :
    acted k.labels (k.gate : Gate ℝ).matrix W = Event.act W (.gate k) := by
  cases k with
  | h q => exact acted_hadamard W q
  | s q =>
      refine (acted_phase W q Cplx.i).trans (funext fun β => ?_)
      rw [Cplx.toComplex_i, turn_iPow]
      rfl
  | x q => exact acted_pauliX W q
  | y q => exact acted_pauliY W q
  | z q => exact acted_pauliZ W q
  | cx a b => exact acted_cx W a b once
  | cz a b =>
      refine (acted_controlled [b] W a once _ rfl).trans (funext fun β => ?_)
      rw [acted_pauliZ, Event.act]
      rcases bit_cases (β a) with unset | set
      · rw [if_neg (by simp [unset]), unset, zero_mul, Form.sgn_zero, one_mul]
      · rw [if_pos set, set, one_mul]

theorem run_generators (ks : List (Generator Qudit)) (once : ∀ k ∈ ks, k.labels.Nodup) :
    run (ks.map Generator.gate) W = Event.acts W (ks.map .gate) := by
  induction ks generalizing W with
  | nil => rfl
  | cons k ks ih =>
      obtain ⟨first, later⟩ := List.forall_mem_cons.mp once
      rw [run, List.map_cons, List.foldl_cons, Generator.targets_gate, acted_generator W k first]
      exact ih _ later

theorem run_sInv (q : Qudit) : run [.z q, .s q] W = acted [q] (Gate.sInv q : Gate ℝ).matrix W := by
  refine (run_generators W [.z q, .s q] (by simp [Generator.labels])).trans ?_
  refine Eq.trans ?_ (acted_phase W q (-Cplx.i)).symm
  funext β
  simp only [Event.acts, List.map_cons, List.map_nil, List.foldl_cons, List.foldl_nil, Event.act, ← turn_iPow]
  rcases bit_cases (β q) with unset | set
  · simp [unset, turn]
  · simp [set, turn]

theorem run_cy (a b : Qudit) (once : [a, b].Nodup) :
    run [.z b, .s b, .cx a b, .s b] W = acted [a, b] (Gate.cy a b : Gate ℝ).matrix W := by
  refine (run_generators W [.z b, .s b, .cx a b, .s b] (by simpa [Generator.labels] using once)).trans ?_
  refine Eq.trans ?_ (acted_controlled [b] W a once Gate.pauliY rfl).symm
  rw [acted_pauliY]
  funext β
  simp only [Event.acts, List.map_cons, List.map_nil, List.foldl_cons, List.foldl_nil, Event.act, ← turn_iPow, Pi.add_apply,
    Pi.single_eq_same]
  have double : (1 : ZMod 2) + 1 = 0 := rfl
  rcases bit_cases (β a) with first | first <;> rcases bit_cases (β b) with second | second <;>
    simp [first, second, turn, double, ← mul_assoc]

theorem run_view (g : Gate ℝ) (once : g.targets.Nodup) (two : ∀ q ∈ g.targets, q.dim = 2) (ks : List (Generator Qudit))
    (listed : g.generators = some ks) : run (ks.map Generator.gate) W = acted g.targets g.matrix W := by
  cases g with
  | identity q =>
      cases listed
      rw [Gate.matrix, two q List.mem_cons_self]
      exact (acted_identity W q).symm
  | h q | x q | y q | z q | s q | cx a b | cz a b =>
      cases listed
      rfl
  | sInv q =>
      cases listed
      exact run_sInv W q
  | cy a b =>
      cases listed
      exact run_cy W a b once
  | swap a b =>
      cases listed
      have different : a ≠ b := by simpa [Gate.targets] using once
      refine (run_generators W _ (by simp [Generator.labels, different, different.symm])).trans ?_
      refine Eq.trans ?_ (acted_exchange W a b different).symm
      exact funext fun β => Event.acts_exchange W a b different β
  | t q | tInv q | rx q _ | ry q _ | rz q _ | u q _ _ _ | ccx a b c => cases listed

/-! Parts. -/

noncomputable def eighth : ℂ := (Cplx.cis Scalar.eighthTurn : Cplx ℝ).toComplex

noncomputable def eighthBack : ℂ := (Cplx.cis (-Scalar.eighthTurn) : Cplx ℝ).toComplex

theorem eighth_back : eighth * eighthBack = 1 := by
  rw [eighth, eighthBack, cis_eighth, cis_neg_eighth]
  linear_combination (1 - Complex.I ^ 2) * root_square - (1 / 2) * Complex.I_sq

theorem eighth_square : eighth * eighth = Complex.I := by
  rw [eighth, cis_eighth]
  linear_combination (1 + Complex.I) ^ 2 * root_square + (1 / 2) * Complex.I_sq

-- Eighths of a turn, back or forth by each sum of the three bits, make half a turn if all bits are set.
theorem turn_eighths (x y z : ZMod 2) : turn eighth x * turn eighthBack (y + x) * (turn eighth z * turn eighth y
    * turn eighthBack (z + x) * turn eighth (z + x + y) * turn eighthBack (z + y)) = sgn (x * y * z) := by
  have unit := eighth_back
  have quarter := eighth_square
  have double : (1 : ZMod 2) + 1 = 0 := rfl
  rcases bit_cases x with rfl | rfl <;> rcases bit_cases y with rfl | rfl <;> rcases bit_cases z with rfl | rfl <;>
    simp only [turn, double, add_zero, zero_add, zero_ne_one, if_true, if_false, mul_one, one_mul, mul_zero, Form.sgn_zero, Form.sgn_one]
  on_goal 7 => linear_combination (eighth * eighth + Complex.I) * quarter + Complex.I_sq
  all_goals linear_combination (eighth * eighthBack + 1) * unit

section Network

variable (a b c : Qudit)

-- The network between the two Hadamard gates, and the one after them.
def inner : List (Gate ℝ) := [.cx b c, .tInv c, .cx a c, .t c, .cx b c, .tInv c, .cx a c, .t b, .t c]

def outer : List (Gate ℝ) := [.cx a b, .t a, .tInv b, .cx a b]

variable {a b c}

theorem run_inner (apart : a ≠ c) (beside : b ≠ c) : run (inner a b c) W = fun β => turn eighth (β c) * turn eighth (β b)
    * turn eighthBack (β c + β a) * turn eighth (β c + β a + β b) * turn eighthBack (β c + β b) * W β := by
  have first := fun V => acted_cx V a c (by simpa using apart)
  have second := fun V => acted_cx V b c (by simpa using beside)
  funext β
  have double := CharTwo.two_eq_zero (R := ZMod 2)
  have phase : β c + β a + β b + β a = β c + β b := by linear_combination β a * double
  -- Both controls flip the last bit twice.
  have back : β + Pi.single c (β a) + Pi.single c (β b) + Pi.single c (β a) + Pi.single c (β b) = β := by
    rw [add_right_comm β, single_twice, single_twice]
  simp only [run, inner, List.foldl_cons, List.foldl_nil, Gate.targets, Gate.matrix, first, second, acted_phase,
    Pi.add_apply, Pi.single_eq_same, Pi.single_eq_of_ne apart, Pi.single_eq_of_ne beside, add_zero, phase, back, mul_assoc]
  rfl

theorem run_outer (different : a ≠ b) :
    run (outer a b) W = fun β => turn eighth (β a) * turn eighthBack (β b + β a) * W β := by
  have flips := fun V => acted_cx V a b (by simpa using different)
  funext β
  simp only [run, outer, List.foldl_cons, List.foldl_nil, Gate.targets, Gate.matrix, flips, acted_phase, Pi.add_apply,
    Pi.single_eq_same, Pi.single_eq_of_ne different, add_zero, single_twice]
  rw [mul_comm (turn eighth (β a)), mul_assoc]
  rfl

end Network

theorem run_append (gs hs : List (Gate ℝ)) : run (gs ++ hs) W = run hs (run gs W) := List.foldl_append

-- Two Hadamard gates turn a sign between them into a flip.
theorem flip_of_sign (x y : ZMod 2) (u v : ℂ) : root * root * (sgn (x * (y + 1)) * (u + sgn (y + 1) * v)
    + sgn y * (sgn (x * y) * (v + sgn y * u))) = if x = 1 then v else u := by
  have half := root_square
  have square := sgn_square y
  rw [sgn_add y 1, Form.sgn_one]
  rcases bit_cases x with rfl | rfl
  · rw [zero_mul, zero_mul, if_neg zero_ne_one, Form.sgn_zero]
    linear_combination 2 * u * half + root * root * u * square
  · rw [one_mul, one_mul, if_pos rfl, sgn_add, Form.sgn_one]
    linear_combination 2 * v * half + root * root * (sgn y * u + 2 * v) * square

theorem run_ccx (a b c : Qudit) (once : [a, b, c].Nodup) :
    run ([.h c] ++ inner a b c ++ [.h c] ++ outer a b) W = acted [a, b, c] (Gate.ccx a b c : Gate ℝ).matrix W := by
  obtain ⟨different, apart, beside⟩ : a ≠ b ∧ a ≠ c ∧ b ≠ c := by simpa [and_assoc] using once
  have turned (V : Bits → ℂ) : run [.h c] V = fun β => root * (V (β + Pi.single c 1) + sgn (β c) * V β) := acted_hadamard V c
  rw [run_append, run_append, run_append, run_outer _ different, turned, run_inner _ apart beside, turned]
  refine Eq.trans ?_ (acted_controlled [b, c] W a once _ rfl).symm
  rw [acted_cx W b c (by simpa using beside)]
  funext β
  have kept : (β + Pi.single c 1 : Bits) a = β a := by simp [apart]
  have beneath : (β + Pi.single c 1 : Bits) b = β b := by simp [beside]
  have flipped : (β + Pi.single c 1 : Bits) c = β c + 1 := by simp
  have here := turn_eighths (β a) (β b) (β c)
  have there := turn_eighths (β a) (β b) (β c + 1)
  simp only [kept, beneath, flipped, single_twice]
  calc _ = root * root * (sgn (β a * β b * (β c + 1)) * (W β + sgn (β c + 1) * W (β + Pi.single c 1))
        + sgn (β c) * (sgn (β a * β b * β c) * (W (β + Pi.single c 1) + sgn (β c) * W β))) := by
        linear_combination root * root * (W β + sgn (β c + 1) * W (β + Pi.single c 1)) * there
          + root * root * sgn (β c) * (W (β + Pi.single c 1) + sgn (β c) * W β) * here
    _ = if β a * β b = 1 then W (β + Pi.single c 1) else W β := flip_of_sign _ _ _ _
    _ = if β a = 1 then W (β + Pi.single c (β b)) else W β := by
        rcases bit_cases (β a) with first | first <;> rcases bit_cases (β b) with second | second <;> simp [first, second]

theorem run_parts (g : Gate ℝ) (once : g.targets.Nodup) (gs : List (Gate ℝ)) (listed : g.decomposition = some gs) :
    run gs W = acted g.targets g.matrix W := by
  cases g with
  | ccx a b c =>
      cases listed
      exact run_ccx W a b c once
  | _ => cases listed

end Bits

end QuantumRegister
