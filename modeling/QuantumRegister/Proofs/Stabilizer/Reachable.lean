import QuantumRegister.Proofs.Stabilizer.Tableau
import QuantumRegister.Scalar.Double
import QuantumRegister.Stabilizer.Readout

/-!
The forms that the operations on stabilizer states reach, and the tableau of each of them.
-/

set_option autoImplicit false

namespace QuantumRegister.Form

open Matrix

/-! Forms side by side have block tables. -/

section Kron

variable {R : Type} {m n : ℕ}

def blocks (x : Matrix (Fin m) (Fin m) (ZMod 2)) (y : Matrix (Fin n) (Fin n) (ZMod 2)) :
    Matrix (Fin (m + n)) (Fin (m + n)) (ZMod 2) :=
  reindexAlgEquiv (ZMod 2) (ZMod 2) finSumFinEquiv (fromBlocks x 0 0 y)

theorem blocks_mul (x x' : Matrix (Fin m) (Fin m) (ZMod 2)) (y y' : Matrix (Fin n) (Fin n) (ZMod 2)) :
    blocks x y * blocks x' y' = blocks (x * x') (y * y') := by
  rw [blocks, blocks, ← map_mul, fromBlocks_multiply]
  simp only [Matrix.mul_zero, Matrix.zero_mul, add_zero, zero_add]
  rfl

theorem blocks_one : blocks (1 : Matrix (Fin m) (Fin m) (ZMod 2)) (1 : Matrix (Fin n) (Fin n) (ZMod 2)) = 1 := by
  rw [blocks, fromBlocks_one, map_one]

theorem blocks_transpose (x : Matrix (Fin m) (Fin m) (ZMod 2)) (y : Matrix (Fin n) (Fin n) (ZMod 2)) :
    (blocks x y)ᵀ = blocks xᵀ yᵀ := by
  simp only [blocks, coe_reindexAlgEquiv, transpose_reindex, fromBlocks_transpose, transpose_zero]

theorem blocks_castAdd (x : Matrix (Fin m) (Fin m) (ZMod 2)) (y : Matrix (Fin n) (Fin n) (ZMod 2)) (i : Fin m) :
    blocks x y (Fin.castAdd n i) (Fin.castAdd n i) = x i i := by
  simp [blocks]

theorem blocks_natAdd (x : Matrix (Fin m) (Fin m) (ZMod 2)) (y : Matrix (Fin n) (Fin n) (ZMod 2)) (i : Fin n) :
    blocks x y (Fin.natAdd m i) (Fin.natAdd m i) = y i i := by
  simp [blocks]

theorem table_block (x y : Grid Bool) :
    table (m + n) (square (m + n) fun i j =>
      if i < m ∧ j < m then bit x i j else if m ≤ i ∧ m ≤ j then bit y (i - m) (j - m) else false)
      = blocks (table m x) (table n y) := by
  ext i j
  rw [table_square]
  induction i using Fin.addCases with
  | left i =>
      induction j using Fin.addCases with
      | left j => simp [blocks, table]
      | right j => simp [blocks, Nat.not_le_of_gt i.isLt]
  | right i =>
      induction j using Fin.addCases with
      | left j => simp [blocks, Nat.not_le_of_gt j.isLt]
      | right j => simp [blocks, table]

theorem getD_append_left {α : Type} (x y : Array α) (d : α) (i : Fin m) (size : x.size = m) :
    (x ++ y).getD i d = x.getD i d := by
  have left : (i : ℕ) < x.size := size ▸ i.isLt
  simp [Array.getD_eq_getD_getElem?, Array.getElem?_append_left left]

theorem getD_append_right {α : Type} (x y : Array α) (d : α) (i : Fin n) (size : x.size = m) :
    (x ++ y).getD (m + i) d = y.getD i d := by
  have right : x.size ≤ m + (i : ℕ) := by omega
  rw [Array.getD_eq_getD_getElem?, Array.getElem?_append_right right, Array.getD_eq_getD_getElem?, size,
    Nat.add_sub_cancel_left]

variable [Scalar R]

theorem Tableau.kron {a b : Form R} (left : Tableau m a) (right : Tableau n b) : Tableau (m + n) (a.kron b) := by
  obtain ⟨rfl, leftGamma, leftLayer, leftBase, leftDual, leftSymmetric, leftReduced, leftParity⟩ := left
  obtain ⟨rfl, rightGamma, rightLayer, rightBase, rightDual, rightSymmetric, rightReduced, rightParity⟩ := right
  have joined : overlap (a.n + b.n) (a.kron b) = blocks (overlap a.n a) (overlap b.n b) := by
    simp only [overlap, Form.kron, table_block, blocks_transpose, blocks_mul]
  refine ⟨rfl, ?_, ?_, ?_, ?_, ?_, ?_, ?_⟩
  · simp [Form.kron, leftGamma, rightGamma]
  · simp [Form.kron, leftLayer, rightLayer]
  · simp [Form.kron, leftBase, rightBase]
  · simp only [Form.kron, table_block, blocks_transpose, blocks_mul, leftDual, rightDual, blocks_one]
  · rw [joined, blocks_transpose, leftSymmetric, rightSymmetric]
  · intro p
    induction p using Fin.addCases with
    | left p =>
        rw [exponent, Form.kron, Fin.val_castAdd, getD_append_left _ _ _ p leftGamma]
        exact leftReduced p
    | right p =>
        rw [exponent, Form.kron, Fin.val_natAdd, getD_append_right _ _ _ p leftGamma]
        exact rightReduced p
  · intro p
    rw [joined]
    induction p using Fin.addCases with
    | left p =>
        rw [exponent, Form.kron, Fin.val_castAdd, getD_append_left _ _ _ p leftGamma, blocks_castAdd]
        exact leftParity p
    | right p =>
        rw [exponent, Form.kron, Fin.val_natAdd, getD_append_right _ _ _ p leftGamma, blocks_natAdd]
        exact rightParity p

end Kron

/-! A permutation of the qubits permutes rows and columns alike. -/

section Reindex

variable {R : Type} {n : ℕ}

theorem axes_permutation (axes : List ℕ) (perm : axes.Perm (List.range n)) :
    ∃ σ : Equiv.Perm (Fin n), ∀ i : Fin n, axes.getD i 0 = σ i := by
  have length : axes.length = n := by simpa using perm.length_eq
  have entry : ∀ i : Fin n, axes.getD i 0 < n := by
    intro i
    have bound : (i : ℕ) < axes.length := length ▸ i.isLt
    have member : axes.getD i 0 ∈ axes := by
      rw [List.getD_eq_getElem _ _ bound]
      exact List.getElem_mem bound
    exact List.mem_range.mp (perm.mem_iff.mp member)
  have distinct : axes.Nodup := perm.nodup_iff.mpr List.nodup_range
  have injective : Function.Injective fun i : Fin n => (⟨axes.getD i 0, entry i⟩ : Fin n) := by
    intro i j same
    have bounds : (i : ℕ) < axes.length ∧ (j : ℕ) < axes.length := by omega
    have equal := congrArg Fin.val same
    simp only [List.getD_eq_getElem _ _ bounds.1, List.getD_eq_getElem _ _ bounds.2] at equal
    exact Fin.ext ((distinct.getElem_inj_iff).mp equal)
  exact ⟨Equiv.ofBijective _ (Finite.injective_iff_bijective.mp injective), fun i => rfl⟩

theorem table_pick (t : Grid Bool) (axes : List ℕ) (σ : Equiv.Perm (Fin n)) (picks : ∀ i : Fin n, axes.getD i 0 = σ i) :
    table n (square n fun i j => bit t (axes.getD i 0) (axes.getD j 0)) = (table n t).submatrix σ σ := by
  ext i j
  rw [table_square, picks i, picks j]
  rfl

theorem Tableau.reindex {c : Form R} (valid : Tableau n c) (axes : List ℕ) (perm : axes.Perm (List.range n)) :
    Tableau n (c.reindex axes) := by
  obtain ⟨σ, picks⟩ := axes_permutation axes perm
  obtain ⟨rfl, gammaSize, layerSize, baseSize, dual, symmetric, reduced, parity⟩ := valid
  have moved : overlap c.n (c.reindex axes) = (overlap c.n c).submatrix σ σ := by
    simp only [overlap, Form.reindex, table_pick _ axes σ picks, transpose_submatrix, submatrix_mul_equiv]
  refine ⟨rfl, ?_, ?_, ?_, ?_, ?_, ?_, ?_⟩
  · simp [Form.reindex]
  · simp [Form.reindex]
  · simp [Form.reindex]
  · simp only [Form.reindex, table_pick _ axes σ picks, transpose_submatrix, submatrix_mul_equiv, dual,
      submatrix_one_equiv]
  · rw [moved, transpose_submatrix, symmetric]
  · intro p
    simp only [Form.reindex, exponent_line, picks]
    exact reduced (σ p)
  · intro p
    rw [moved, submatrix_apply, ← parity (σ p)]
    simp only [Form.reindex, exponent_line, picks]

theorem tableau_empty {c : Form R} (width : c.n = 0) (gammaSize : c.gamma.size = 0) (layerSize : c.v.size = 0)
    (baseSize : c.s.size = 0) : Tableau 0 c :=
  ⟨width, gammaSize, layerSize, baseSize, Subsingleton.elim _ _, Subsingleton.elim _ _, fun p => p.elim0, fun p => p.elim0⟩

end Reindex

variable {R : Type} [Scalar R]

inductive Reachable : Form R → Prop where
  | zero (n : ℕ) : Reachable (zero n)
  | basis (n index : ℕ) : Reachable (basis n index)
  | gate (c : Form R) (k : Generator ℕ) (before : Reachable c) (fits : c.fits k = true) (distinct : k.labels.Nodup) :
      Reachable (c.apply k)
  | swap (c : Form R) (a b : ℕ) (before : Reachable c) (aInside : a < c.n) (bInside : b < c.n) (different : a ≠ b) :
      Reachable (c.applySwap a b)
  | project (c : Form R) (q : ℕ) (outcome : Bool) (before : Reachable c) (readable : c.readable q = true) :
      Reachable (c.project q outcome)
  | measure (c : Form R) (q : ℕ) (source : Random.Source) (before : Reachable c) (readable : c.readable q = true) :
      Reachable (c.measure q source).1.2
  | kron (a b : Form R) (left : Reachable a) (right : Reachable b) : Reachable (a.kron b)
  | reindex (c : Form R) (axes : List ℕ) (before : Reachable c) (perm : axes.Perm (List.range c.n)) :
      Reachable (c.reindex axes)

theorem Tableau.apply {c : Form R} {n : ℕ} (valid : Tableau n c) (k : Generator ℕ) (fits : c.fits k = true)
    (distinct : k.labels.Nodup) : Tableau n (c.apply k) := by
  have width := valid.width
  cases k with
  | h q => exact valid.applyH q
  | s q => exact valid.applyS ⟨q, by simpa [Form.fits, Generator.labels, width] using fits⟩
  | x q => exact valid.applyX ⟨q, by simpa [Form.fits, Generator.labels, width] using fits⟩
  | y q => exact valid.applyY ⟨q, by simpa [Form.fits, Generator.labels, width] using fits⟩
  | z q => exact valid.applyZ ⟨q, by simpa [Form.fits, Generator.labels, width] using fits⟩
  | cx a b =>
      have bounds : a < n ∧ b < n := by simpa [Form.fits, Generator.labels, width] using fits
      have different : a ≠ b := by simpa [Generator.labels] using distinct
      exact valid.applyCX ⟨a, bounds.1⟩ ⟨b, bounds.2⟩ fun same => different (congrArg Fin.val same)
  | cz a b =>
      have different : a ≠ b := by simpa [Generator.labels] using distinct
      have bounds : n = 0 ∨ a < n ∧ b < n := by simpa [Form.fits, width] using fits
      rcases bounds with rfl | bounds
      · exact tableau_empty width valid.gammaSize valid.layerSize valid.baseSize
      · exact valid.applyCZ ⟨a, bounds.1⟩ ⟨b, bounds.2⟩ fun same => different (congrArg Fin.val same)

theorem Reachable.tableau {c : Form R} (reached : Reachable c) : Tableau c.n c := by
  have settled : ∀ {n : ℕ} {d : Form R}, Tableau n d → Tableau d.n d := fun held => held.width.symm ▸ held
  induction reached with
  | zero n => exact tableau_zero n
  | basis n index => exact settled (tableau_basis n index)
  | gate c k _ fits distinct held => exact settled (held.apply k fits distinct)
  | swap c a b _ aInside bInside different held =>
      exact settled (held.applySwap ⟨a, aInside⟩ ⟨b, bInside⟩ fun same => different (congrArg Fin.val same))
  | project c q outcome _ _ held => exact settled (held.project q outcome)
  | measure c q source _ _ held => exact settled (held.project q _)
  | kron a b _ _ left right => exact settled (left.kron right)
  | reindex c axes _ perm held => exact settled (held.reindex axes perm)

theorem reachable_symplectic (c : Form R) (reached : Reachable c) :
    table c.n c.g * (table c.n c.f)ᵀ = 1
      ∧ (table c.n c.f * (table c.n c.m)ᵀ).IsSymm
      ∧ ∀ p : Fin c.n, exponent c.gamma p < 4
          ∧ (exponent c.gamma p : ZMod 2) = ∑ j, table c.n c.f p j * table c.n c.m p j := by
  have valid := reached.tableau
  refine ⟨valid.dual, valid.symmetric, fun p => ⟨valid.reduced p, ?_⟩⟩
  rw [valid.parity p, overlap, Matrix.mul_apply]
  rfl

def projectedPair : Form Float :=
  ((((zero 2).apply (.h 0)).apply (.cx 0 1)).project 0 true).kron (basis 1 1)

theorem reachable_symplectic_pair :
    Reachable projectedPair
      ∧ table 3 projectedPair.g * (table 3 projectedPair.f)ᵀ = 1
      ∧ (table 3 projectedPair.f * (table 3 projectedPair.m)ᵀ).IsSymm := by
  have entangled : Reachable (((zero 2 : Form Float).apply (.h 0)).apply (.cx 0 1)) :=
    .gate _ _ (.gate _ _ (.zero 2) rfl (by decide)) rfl (by decide)
  have reached : Reachable projectedPair := .kron _ _ (.project _ 0 true entangled rfl) (.basis 1 1)
  have held := reachable_symplectic projectedPair reached
  exact ⟨reached, held.1, held.2.1⟩

end QuantumRegister.Form
