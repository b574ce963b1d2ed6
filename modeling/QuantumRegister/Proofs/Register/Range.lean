import QuantumRegister.Proofs.Register.Initial
import QuantumRegister.Proofs.Words

/-!
The initial position of a register is checked against the number of its basis states: by the settings, by
a dense state and by a stabilizer state, each with a product or a shift of machine words of its own. All
three draw the line where unbounded integers draw it.
-/

set_option autoImplicit false

namespace QuantumRegister

open QuantumRegister.MixedRadix

def Qudit.words (qs : List Qudit) : List UInt64 := qs.map fun q => UInt64.ofNat q.dim

theorem Qudit.words_value (qs : List Qudit) (bounded : ∀ q ∈ qs, q.dim < wordSize) :
    (words qs).map UInt64.toNat = dims qs := by
  rw [words, List.map_map]
  exact List.map_congr_left fun q listed => word_value (bounded q listed)

/-! The three checks. -/

variable {R : Type} [Scalar R] {qs : List Qudit} {index : ℕ}

theorem Settings.inRange_iff (positive : ∀ q ∈ qs, 0 < q.dim) (word : index < wordSize) :
    inRange qs index = decide (index < size (Qudit.dims qs)) := by
  rw [inRange, checkedSize_whole _ (Qudit.dims_positive qs positive)]
  by_cases small : size (Qudit.dims qs) < wordSize
  · rw [if_pos small]
  · rw [if_neg small]
    exact (decide_eq_true (word.trans_le (not_lt.mp small))).symm

theorem Settings.validate_range (s : Settings R) (order : s.qudits = some qs) (once : qs.Nodup)
    (positive : ∀ q ∈ qs, 0 < q.dim) (finite : Scalar.isFinite s.tolerance = true) (sign : ¬s.tolerance < 0) :
    s.validate = if inRange qs s.initial then .ok qs else .error (.configuration (.indexBeyondQudits s.initial qs.length)) := by
  have levels : qs.find? (·.dim == 0) = none := List.find?_eq_none.mpr fun q listed => by
    simpa using (positive q listed).ne'
  simp only [validate, order, Qudit.firstRepeated_none qs once, levels, finite, decide_eq_false sign]
  rfl

theorem DenseState.basisState_range (once : qs.Nodup) (positive : ∀ q ∈ qs, 0 < q.dim) (source : SourceRef) (log : LogRef) :
    basisState (R := R) qs index source log
      = if size (Qudit.dims qs) < wordSize then
          if index < size (Qudit.dims qs) then
            .ok (ofLive ⟨qs, Frame.placesFrom 0 qs [], source, log⟩ (Dense.Amplitudes.basis (size (Qudit.dims qs)) index))
          else .error (.configuration (.indexBeyondBasis index (size (Qudit.dims qs))))
        else .error (.configuration .spaceTooLarge) := by
  have product : checkedSize 1 (Frame.dims ⟨qs, Frame.placesFrom 0 qs [], source, log⟩) = _ :=
    checkedSize_whole (Qudit.dims qs) (Qudit.dims_positive qs positive)
  simp only [basisState, Frame.of_distinct (R := R) qs source log once, product]
  by_cases small : size (Qudit.dims qs) < wordSize
  · simp only [if_pos small]
    by_cases inside : index < size (Qudit.dims qs)
    · rw [if_pos inside, if_neg (not_le.mpr inside)]
    · rw [if_neg inside, if_pos (not_lt.mp inside)]
  · simp only [if_neg small]

-- Beyond sixty-four qubits, every word is a position.
theorem StabilizerState.basisState_range (once : qs.Nodup) (two : ∀ q ∈ qs, q.dim = 2) (word : index < wordSize)
    (source : SourceRef) (log : LogRef) :
    basisState (R := R) qs index source log
      = if index < 2 ^ qs.length then .ok ⟨⟨qs, Frame.placesFrom 0 qs [], source, log⟩, Form.basis qs.length index⟩
        else .error (.configuration (.indexBeyondQudits index qs.length)) := by
  have beyond : (qs.length < 64 ∧ index >>> qs.length ≠ 0) ↔ ¬index < 2 ^ qs.length := by
    rw [Nat.shiftRight_eq_div_pow, Ne, Nat.div_eq_zero_iff]
    refine ⟨fun ⟨_, high⟩ inside => high (Or.inr inside), fun outside => ⟨?_, ?_⟩⟩
    · refine not_le.mp fun long => outside (word.trans_le ?_)
      exact Nat.pow_le_pow_right Nat.two_pos long
    · rintro (none | inside)
      · exact absurd none (by positivity)
      · exact outside inside
  simp only [basisState, qubits_checked qs two, Frame.of_distinct (R := R) qs source log once, bind, Except.bind, beyond, ite_not]

-- Sizes are unbounded products. The products and the shift that the checks form in words are the true ones.
theorem range_checks_exact (qs : List Qudit) (once : qs.Nodup) (positive : ∀ q ∈ qs, 0 < q.dim)
    (bounded : ∀ q ∈ qs, q.dim < wordSize) (index : ℕ) (word : index < wordSize) :
    (∀ s : Settings R, s.qudits = some qs → s.initial = index → Scalar.isFinite s.tolerance = true → ¬s.tolerance < 0 →
        s.validate = if index < size (Qudit.dims qs) then .ok qs
          else .error (.configuration (.indexBeyondQudits index qs.length)))
      ∧ (∀ (source : SourceRef) (log : LogRef), DenseState.basisState (R := R) qs index source log
        = if size (Qudit.dims qs) < wordSize then
            if index < size (Qudit.dims qs) then .ok (.ofLive ⟨qs, Frame.placesFrom 0 qs [], source, log⟩
              (Dense.Amplitudes.basis (size (Qudit.dims qs)) index))
            else .error (.configuration (.indexBeyondBasis index (size (Qudit.dims qs))))
          else .error (.configuration .spaceTooLarge))
      ∧ ((∀ q ∈ qs, q.dim = 2) → ∀ (source : SourceRef) (log : LogRef), StabilizerState.basisState (R := R) qs index source log
        = if index < 2 ^ qs.length then .ok ⟨⟨qs, Frame.placesFrom 0 qs [], source, log⟩, Form.basis qs.length index⟩
          else .error (.configuration (.indexBeyondQudits index qs.length)))
      ∧ (∀ k, (((Qudit.words qs).take k).foldlM times? 1).map UInt64.toNat
        = if size ((Qudit.dims qs).take k) < wordSize then some (size ((Qudit.dims qs).take k)) else none)
      ∧ (qs.length < 64 → (UInt64.ofNat index >>> UInt64.ofNat qs.length).toNat = index / 2 ^ qs.length) := by
  refine ⟨fun s order start finite sign => ?_, fun source log => DenseState.basisState_range once positive source log,
    fun two source log => StabilizerState.basisState_range once two word source log, fun k => ?_, fun short => ?_⟩
  · subst start
    rw [s.validate_range order once positive finite sign, Settings.inRange_iff positive word]
    exact if_congr decide_eq_true_iff rfl rfl
  · have some : ∀ d ∈ (Qudit.dims qs).take k, 0 < d := fun d listed =>
      Qudit.dims_positive qs positive d (List.mem_of_mem_take listed)
    rw [product_value, List.map_take, Qudit.words_value qs bounded, ← checkedSize_whole _ some]
    rfl
  · rw [shift_value _ _ short, word_value word]

def sixtyFour : List Qudit := (List.range 64).map Qudit.qubit

theorem range_checks_exact_sixty_four :
    (⟨some sixtyFour, 2 ^ 64 - 1, true, 0, 0⟩ : Settings ℝ).validate = .ok sixtyFour
      ∧ DenseState.basisState (R := ℝ) sixtyFour (2 ^ 64 - 1) ⟨0⟩ ⟨0⟩ = .error (.configuration .spaceTooLarge)
      ∧ ∃ φ, StabilizerState.basisState (R := ℝ) sixtyFour (2 ^ 64 - 1) ⟨0⟩ ⟨0⟩ = .ok φ := by
  have all : size (Qudit.dims sixtyFour) = 2 ^ 64 := by decide +kernel
  have length : sixtyFour.length = 64 := by decide +kernel
  have two : ∀ q ∈ sixtyFour, q.dim = 2 := by decide +kernel
  obtain ⟨settings, dense, stabilizer, -⟩ := range_checks_exact (R := ℝ) sixtyFour (by decide +kernel) (by decide +kernel)
    (by decide +kernel) (2 ^ 64 - 1) (by decide)
  have finite : Scalar.isFinite (0 : ℝ) = true := by simp [Scalar.isFinite]
  refine ⟨?_, ?_, ?_⟩
  · rw [settings _ rfl rfl finite (lt_irrefl 0), all]
    rfl
  · rw [dense, all]
    rfl
  · rw [stabilizer two, length]
    exact ⟨_, if_pos (by decide)⟩

end QuantumRegister
