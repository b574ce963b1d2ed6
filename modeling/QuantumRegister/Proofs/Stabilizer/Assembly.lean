import QuantumRegister.Proofs.Stabilizer.Gates
import QuantumRegister.Proofs.Stabilizer.Reachable

/-!
Waves of forms that are put together. Side by side, the wave is the product of the two; with the
qubits in another order, it is the same wave of the bits in that order. The amplitudes of bit strings
follow.
-/

set_option autoImplicit false

namespace QuantumRegister.Form

open Matrix

section Kron

variable {m n : ℕ}

def former (x : Fin (m + n) → ZMod 2) : Fin m → ZMod 2 := fun i => x (Fin.castAdd n i)

def latter (x : Fin (m + n) → ZMod 2) : Fin n → ZMod 2 := fun i => x (Fin.natAdd m i)

theorem former_add_left (x : Fin (m + n) → ZMod 2) (p : Fin m) :
    former (x + Pi.single (Fin.castAdd n p) 1) = former x + Pi.single p 1 := by
  funext i
  simp [former, Pi.single_apply]

theorem latter_add_left (x : Fin (m + n) → ZMod 2) (p : Fin m) : latter (x + Pi.single (Fin.castAdd n p) 1) = latter x := by
  funext i
  have apart : Fin.natAdd m i ≠ Fin.castAdd n p := fun same => absurd (congrArg Fin.val same) (by simp; omega)
  simp [latter, apart]

theorem former_add_right (x : Fin (m + n) → ZMod 2) (p : Fin n) : former (x + Pi.single (Fin.natAdd m p) 1) = former x := by
  funext i
  have apart : Fin.castAdd n i ≠ Fin.natAdd m p := fun same => absurd (congrArg Fin.val same) (by simp; omega)
  simp [former, apart]

theorem latter_add_right (x : Fin (m + n) → ZMod 2) (p : Fin n) :
    latter (x + Pi.single (Fin.natAdd m p) 1) = latter x + Pi.single p 1 := by
  funext i
  simp [latter, Pi.single_apply]

theorem vecMul_blocks (x : Fin (m + n) → ZMod 2) (y : Matrix (Fin m) (Fin m) (ZMod 2)) (z : Matrix (Fin n) (Fin n) (ZMod 2)) :
    former (x ᵥ* blocks y z) = former x ᵥ* y ∧ latter (x ᵥ* blocks y z) = latter x ᵥ* z := by
  constructor
  · funext i
    simp [former, vecMul, dotProduct, Fin.sum_univ_add, blocks]
  · funext i
    simp [latter, vecMul, dotProduct, Fin.sum_univ_add, blocks]

theorem blocks_left_dot (y : Matrix (Fin m) (Fin m) (ZMod 2)) (z : Matrix (Fin n) (Fin n) (ZMod 2)) (p : Fin m)
    (x : Fin (m + n) → ZMod 2) : blocks y z (Fin.castAdd n p) ⬝ᵥ x = y p ⬝ᵥ former x := by
  simp [dotProduct, Fin.sum_univ_add, blocks, former]

theorem blocks_right_dot (y : Matrix (Fin m) (Fin m) (ZMod 2)) (z : Matrix (Fin n) (Fin n) (ZMod 2)) (p : Fin n)
    (x : Fin (m + n) → ZMod 2) : blocks y z (Fin.natAdd m p) ⬝ᵥ x = z p ⬝ᵥ latter x := by
  simp [dotProduct, Fin.sum_univ_add, blocks, latter]

theorem phase_kron {a b : Form ℝ} (left : Tableau m a) (right : Tableau n b) (x : Fin (m + n) → ZMod 2) :
    phase (m + n) (a.kron b) x = phase m a (former x) + phase n b (latter x) := by
  refine phase_unique (left.kron right) (fun x => phase m a (former x) + phase n b (latter x)) ?_ ?_ x
  · have zeros : former (0 : Fin (m + n) → ZMod 2) = 0 ∧ latter (0 : Fin (m + n) → ZMod 2) = 0 := ⟨rfl, rfl⟩
    rw [zeros.1, zeros.2, phase_zero, phase_zero, add_zero]
  · intro x p
    obtain ⟨rfl, leftGamma, -⟩ := id left
    obtain ⟨rfl, -⟩ := id right
    have flips : table (a.n + b.n) (a.kron b).f = blocks (table a.n a.f) (table b.n b.f) := by
      simp only [Form.kron, table_block]
    have signs : table (a.n + b.n) (a.kron b).m = blocks (table a.n a.m) (table b.n b.m) := by
      simp only [Form.kron, table_block]
    obtain ⟨first, second⟩ := vecMul_blocks x (table a.n a.f) (table b.n b.f)
    induction p using Fin.addCases with
    | left p =>
        have own : exponent (a.kron b).gamma (Fin.castAdd b.n p) = exponent a.gamma p := getD_append_left _ _ _ p leftGamma
        have row : former (blocks (table a.n a.f) (table b.n b.f) (Fin.castAdd b.n p)) = table a.n a.f p := by
          funext i
          simp [former, blocks]
        simp only [ownPhase, former_add_left, latter_add_left, phase_add_single left, flips, signs, blocks_left_dot, own, first, row]
        ring
    | right p =>
        have own : exponent (a.kron b).gamma (Fin.natAdd a.n p) = exponent b.gamma p := getD_append_right _ _ _ p leftGamma
        have row : latter (blocks (table a.n a.f) (table b.n b.f) (Fin.natAdd a.n p)) = table b.n b.f p := by
          funext i
          simp [latter, blocks]
        simp only [ownPhase, former_add_right, latter_add_right, phase_add_single right, flips, signs, blocks_right_dot, own,
          second, row]
        ring

theorem wave_kron {a b : Form ℝ} (left : Tableau m a) (right : Tableau n b) (x : Fin (m + n) → ZMod 2) :
    wave (m + n) (a.kron b) x = wave m a (former x) * wave n b (latter x) := by
  have phases := phase_kron left right x
  obtain ⟨rfl, -, leftLayer, leftBase, -⟩ := left
  obtain ⟨rfl, -⟩ := right
  have flips : table (a.n + b.n) (a.kron b).f = blocks (table a.n a.f) (table b.n b.f) := by
    simp only [Form.kron, table_block]
  obtain ⟨first, second⟩ := vecMul_blocks x (table a.n a.f) (table b.n b.f)
  have scalar : (a.kron b).omega.toComplex = a.omega.toComplex * b.omega.toComplex := Cplx.toComplex_mul _ _
  have layers : layer (fun j : Fin (a.n + b.n) => flag (a.kron b).v j) (row (a.n + b.n) (a.kron b).s)
        (x ᵥ* table (a.n + b.n) (a.kron b).f)
      = layer (fun j : Fin a.n => flag a.v j) (row a.n a.s) (former x ᵥ* table a.n a.f)
        * layer (fun j : Fin b.n => flag b.v j) (row b.n b.s) (latter x ᵥ* table b.n b.f) := by
    rw [flips, ← first, ← second, layer, layer, layer, Fin.prod_univ_add]
    refine congrArg₂ (· * ·) (Finset.prod_congr rfl fun j _ => ?_) (Finset.prod_congr rfl fun j _ => ?_)
    · have inLayer : flag (a.kron b).v (Fin.castAdd b.n j) = flag a.v j := getD_append_left _ _ _ j leftLayer
      have based : flag (a.kron b).s (Fin.castAdd b.n j) = flag a.s j := getD_append_left _ _ _ j leftBase
      rw [inLayer, row, based]
      rfl
    · have inLayer : flag (a.kron b).v (Fin.natAdd a.n j) = flag b.v j := getD_append_right _ _ _ j leftLayer
      have based : flag (a.kron b).s (Fin.natAdd a.n j) = flag b.s j := getD_append_right _ _ _ j leftBase
      rw [inLayer, row, based]
      rfl
  rw [wave, layers, phases, iPow_add, scalar, wave, wave]
  ring

end Kron

section Reindex

variable {n : ℕ}

theorem vecMul_picked (x : Fin n → ZMod 2) (y : Matrix (Fin n) (Fin n) (ZMod 2)) (σ : Equiv.Perm (Fin n)) :
    (x ∘ σ) ᵥ* y.submatrix σ σ = (x ᵥ* y) ∘ σ := by
  funext j
  simp only [vecMul, dotProduct, Function.comp_apply, submatrix_apply]
  exact Equiv.sum_comp σ fun i => x i * y i (σ j)

theorem phase_reindex {c : Form ℝ} (valid : Tableau n c) (axes : List ℕ) (perm : axes.Perm (List.range n))
    (σ : Equiv.Perm (Fin n)) (picks : ∀ i : Fin n, axes.getD i 0 = σ i) (x : Fin n → ZMod 2) :
    phase n (c.reindex axes) (x ∘ σ) = phase n c x := by
  have general : ∀ y, phase n (c.reindex axes) y = phase n c (y ∘ σ.symm) := by
    refine phase_unique (valid.reindex axes perm) (fun y => phase n c (y ∘ σ.symm)) (phase_zero c) fun y p => ?_
    obtain ⟨rfl, -⟩ := id valid
    have flips : table c.n (c.reindex axes).f = (table c.n c.f).submatrix σ σ := table_pick c.f axes σ picks
    have signs : table c.n (c.reindex axes).m = (table c.n c.m).submatrix σ σ := table_pick c.m axes σ picks
    have own : exponent (c.reindex axes).gamma p = exponent c.gamma (σ p) := by
      simp only [Form.reindex, exponent_line, picks]
    have shift : (y + Pi.single p 1 : Fin c.n → ZMod 2) ∘ σ.symm = y ∘ σ.symm + Pi.single (σ p) 1 := by
      funext j
      simp only [Function.comp_apply, Pi.add_apply, Pi.single_apply, Equiv.symm_apply_eq]
    have carried : y ᵥ* (table c.n c.f).submatrix σ σ = (y ∘ σ.symm ᵥ* table c.n c.f) ∘ σ := by
      rw [← vecMul_picked, Function.comp_assoc, Equiv.symm_comp_self, Function.comp_id]
    have dot : ∀ z : Fin c.n → ZMod 2, (table c.n c.m).submatrix σ σ p ⬝ᵥ (z ∘ σ) = table c.n c.m (σ p) ⬝ᵥ z := fun z =>
      Equiv.sum_comp σ fun j => table c.n c.m (σ p) j * z j
    have row : (table c.n c.f).submatrix σ σ p = table c.n c.f (σ p) ∘ σ := rfl
    simp only [ownPhase, shift, phase_add_single valid, flips, signs, own, carried, row, dot]
  rw [general, Function.comp_assoc, Equiv.self_comp_symm, Function.comp_id]

theorem wave_reindex {c : Form ℝ} (valid : Tableau n c) (axes : List ℕ) (perm : axes.Perm (List.range n))
    (σ : Equiv.Perm (Fin n)) (picks : ∀ i : Fin n, axes.getD i 0 = σ i) (x : Fin n → ZMod 2) :
    wave n (c.reindex axes) (x ∘ σ) = wave n c x := by
  have phases := phase_reindex valid axes perm σ picks x
  obtain ⟨rfl, -⟩ := id valid
  have flips : table c.n (c.reindex axes).f = (table c.n c.f).submatrix σ σ := table_pick c.f axes σ picks
  have layers : layer (fun j : Fin c.n => flag (c.reindex axes).v j) (row c.n (c.reindex axes).s)
        ((x ∘ σ) ᵥ* table c.n (c.reindex axes).f)
      = layer (fun j : Fin c.n => flag c.v j) (row c.n c.s) (x ᵥ* table c.n c.f) := by
    rw [flips, vecMul_picked, layer, layer]
    refine Fintype.prod_equiv σ _ _ fun j => ?_
    have inLayer : flag (c.reindex axes).v j = flag c.v (σ j) := by simp only [Form.reindex, flag_line, picks]
    have based : flag (c.reindex axes).s j = flag c.s (σ j) := by simp only [Form.reindex, flag_line, picks]
    rw [inLayer, row, based]
    rfl
  rw [wave, layers, phases]
  rfl

end Reindex

/-! Bit strings. -/

section Strings

theorem amplitude_kron {a b : Form ℝ} (left : Tableau a.n a) (right : Tableau b.n b) (x y : List Bool)
    (width : x.length = a.n) : (a.kron b).amplitude (x ++ y) = a.amplitude x * b.amplitude y := by
  have first : former (fun p : Fin (a.n + b.n) => gf ((x ++ y).getD p false)) = fun p : Fin a.n => gf (x.getD p false) := by
    funext p
    have inside : (p : ℕ) < x.length := by omega
    simp [former, List.getElem?_append_left inside]
  have second : latter (fun p : Fin (a.n + b.n) => gf ((x ++ y).getD p false)) = fun p : Fin b.n => gf (y.getD p false) := by
    funext p
    have place : x.length ≤ a.n + (p : ℕ) := by omega
    simp [latter, List.getElem?_append_right place, width]
  refine Cplx.toComplex_injective ?_
  rw [Cplx.toComplex_mul, amplitude_eq_wave (a.kron b) (x ++ y) rfl, amplitude_eq_wave a x rfl, amplitude_eq_wave b y rfl,
    ← first, ← second]
  exact wave_kron left right _

-- The bit that `z` has at a place is the bit that `w` has at the axis of that place.
def Rearranged (axes : List ℕ) (z w : List Bool) : Prop :=
  w.length = axes.length ∧ ∀ i (inside : i < axes.length), w[axes[i]]? = z[i]?

instance (axes : List ℕ) (z w : List Bool) : Decidable (Rearranged axes z w) :=
  inferInstanceAs (Decidable (_ ∧ _))

variable {n : ℕ} {axes : List ℕ} {z : List Bool}

theorem rearranged_iff (perm : axes.Perm (List.range n)) (width : z.length = n) (w : List Bool) :
    Rearranged axes z w ↔ w = (List.range n).map fun j => z.getD (axes.idxOf j) false := by
  have length : axes.length = n := by simpa using perm.length_eq
  have distinct : axes.Nodup := perm.nodup_iff.mpr List.nodup_range
  constructor
  · rintro ⟨size, carried⟩
    refine List.ext_getElem (by simp [size, length]) fun j inside _ => ?_
    have member : j ∈ axes := perm.mem_iff.mpr (List.mem_range.mpr (by omega))
    have place := List.idxOf_lt_length_of_mem member
    have same := carried (axes.idxOf j) place
    rw [List.getElem_idxOf place, List.getElem?_eq_getElem inside, List.getElem?_eq_getElem (by omega)] at same
    simpa [List.getElem?_eq_getElem (show axes.idxOf j < z.length by omega)] using Option.some.inj same
  · rintro rfl
    refine ⟨by simp [length], fun i inside => ?_⟩
    have bound : axes[i] < n := List.mem_range.mp (perm.mem_iff.mp (List.getElem_mem inside))
    have place : axes.idxOf axes[i] = i := distinct.idxOf_getElem i inside
    have read : i < z.length := by omega
    simp [List.getElem?_range bound, place, List.getElem?_eq_getElem read]

theorem amplitude_reindex {c : Form ℝ} (valid : Tableau c.n c) (perm : axes.Perm (List.range c.n)) {w : List Bool}
    (carried : Rearranged axes z w) : (c.reindex axes).amplitude z = c.amplitude w := by
  obtain ⟨σ, picks⟩ := axes_permutation axes perm
  have length : axes.length = c.n := by simpa using perm.length_eq
  have bits : (fun p : Fin c.n => gf (z.getD p false)) = (fun p : Fin c.n => gf (w.getD p false)) ∘ σ := by
    funext p
    have inside : (p : ℕ) < axes.length := by omega
    have place : axes[(p : ℕ)] = σ p := by rw [← picks p, List.getD_eq_getElem _ _ inside]
    rw [Function.comp_apply, ← place, List.getD_eq_getElem?_getD, List.getD_eq_getElem?_getD, carried.2 p inside]
  refine Cplx.toComplex_injective ?_
  rw [amplitude_eq_wave (c.reindex axes) z rfl, amplitude_eq_wave c w rfl]
  exact (congrArg (wave c.n (c.reindex axes)) bits).trans (wave_reindex valid axes perm σ picks _)

theorem reindex_done (c : Form ℝ) (perm : axes.Perm (List.range c.n)) : c.reindex? axes = some (c.reindex axes) := by
  have length : axes.length = c.n := by simpa using perm.length_eq
  refine if_pos ⟨length.ge, List.all_eq_true.mpr fun i member => ?_⟩
  exact decide_eq_true (List.mem_range.mp (perm.mem_iff.mp (List.mem_of_mem_take member)))

theorem assembled_amplitudes {a : Form ℝ} (reached : Reachable a) :
    (∀ b, Reachable b → ∀ x y : List Bool, x.length = a.n → y.length = b.n → ∃ z w,
        a.amplitude? x = some z ∧ b.amplitude? y = some w ∧ (a.kron b).amplitude? (x ++ y) = some (z * w))
      ∧ ∀ axes : List ℕ, axes.Perm (List.range a.n) → ∃ d, a.reindex? axes = some d ∧
          ∀ z : List Bool, z.length = a.n → ∃ w amp, (∀ u, Rearranged axes z u ↔ u = w)
            ∧ d.amplitude? z = some amp ∧ a.amplitude? w = some amp := by
  have valid := reached.tableau
  refine ⟨fun b other x y first second => ?_, fun axes perm => ?_⟩
  · have width : (x ++ y).length = (a.kron b).n := by
      rw [List.length_append, first, second]
      rfl
    refine ⟨a.amplitude x, b.amplitude y, if_pos first, if_pos second, ?_⟩
    rw [amplitude?, if_pos width, amplitude_kron valid other.tableau x y first]
  · refine ⟨a.reindex axes, reindex_done a perm, fun z width => ?_⟩
    have only := rearranged_iff perm width
    have carried := (only _).mpr rfl
    refine ⟨_, _, only, if_pos width, ?_⟩
    rw [amplitude_reindex valid perm carried]
    exact if_pos (by simp)

noncomputable def skewTriple : Form ℝ := ((((zero 3).apply (.h 0)).apply (.s 0)).apply (.cx 0 1)).apply (.x 2)

theorem assembled_amplitudes_triple : Reachable skewTriple
    ∧ (∃ z w, skewTriple.amplitude? [true, true, true] = some z ∧ (basis 1 1).amplitude? [true] = some w
        ∧ (skewTriple.kron (basis 1 1)).amplitude? [true, true, true, true] = some (z * w))
    ∧ ∃ d amp, skewTriple.reindex? [2, 0, 1] = some d ∧ d.amplitude? [true, false, false] = some amp
        ∧ skewTriple.amplitude? [false, false, true] = some amp := by
  have reached : Reachable skewTriple := .gate _ _ (.gate _ _ (.gate _ _ (.gate _ _ (.zero 3)
    rfl (by decide)) rfl (by decide)) rfl (by decide)) rfl (by decide)
  obtain ⟨products, moves⟩ := assembled_amplitudes reached
  obtain ⟨d, done, read⟩ := moves [2, 0, 1] (by decide)
  obtain ⟨w, amp, only, new, old⟩ := read [true, false, false] rfl
  have place : [false, false, true] = w := (only _).mp (by decide)
  exact ⟨reached, products (basis 1 1) (.basis 1 1) _ _ rfl rfl, d, amp, done, new, place ▸ old⟩

end Strings

end QuantumRegister.Form
