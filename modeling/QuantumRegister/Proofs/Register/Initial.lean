import QuantumRegister.Proofs.Dense.Likeness
import QuantumRegister.Proofs.Register.Refinement
import QuantumRegister.Proofs.Register.Splitting

/-!
A new register is in the basis state that its settings name: the joint state of all its qudits has
amplitude one at the digits of the initial position and zero elsewhere, whether or not the qudits are
held apart.
-/

set_option autoImplicit false

namespace QuantumRegister

open QuantumRegister.MixedRadix

/-! Digits of two-level systems are bits. -/

theorem Form.digits_bits (qs : List Qudit) (two : ∀ q ∈ qs, q.dim = 2) (index : ℕ) :
    size (Qudit.dims qs) = 2 ^ qs.length ∧ digits (Qudit.dims qs) index = (bitsOf qs.length index).map Bool.toNat := by
  induction qs with
  | nil => exact ⟨rfl, rfl⟩
  | cons q qs ih =>
      obtain ⟨count, bits⟩ := ih fun p listed => two p (List.mem_cons_of_mem q listed)
      have qubit : q.dim = 2 := two q List.mem_cons_self
      refine ⟨?_, ?_⟩
      · rw [Qudit.dims_cons, size_cons, count, qubit, List.length_cons, Nat.pow_succ']
      · rw [Qudit.dims_cons, digits_cons, bits, count, qubit, List.length_cons, bitsOf_succ, List.map_cons, ← Nat.toNat_testBit]

theorem Form.bits_digits (qs : List Qudit) (two : ∀ q ∈ qs, q.dim = 2) (ds : List ℕ)
    (below : List.Forall₂ (· < ·) ds (Qudit.dims qs)) : (ds.map (· == 1)).map Bool.toNat = ds := by
  rw [Qudit.dims, List.forall₂_map_right_iff] at below
  induction below with
  | nil => rfl
  | @cons d q ds qs bound below ih =>
      have qubit : q.dim = 2 := two q List.mem_cons_self
      have digit : (d == 1).toNat = d := by
        rw [qubit] at bound
        interval_cases d <;> rfl
      rw [List.map_cons, List.map_cons, digit, ih fun p listed => two p (List.mem_cons_of_mem q listed)]

theorem Form.amplitude_basis (n index : ℕ) (bits : List Bool) (width : bits.length = n) :
    (basis n index : Form ℝ).amplitude? bits = some (if bits = bitsOf n index then 1 else 0) := by
  have valid : Tableau n (basis n index : Form ℝ) := tableau_basis n index
  have place (k : Fin n) : (bitsOf n index).getD k false = index.testBit (n - 1 - k) := by simp [bitsOf]
  have read : bits = bitsOf n index ↔ ∀ k : Fin n, bits.getD k false = index.testBit (n - 1 - k) := by
    refine ⟨fun same k => same ▸ place k, fun each => List.ext_getElem (by simp [width, bitsOf]) fun i left right => ?_⟩
    rw [← List.getD_eq_getElem _ false left, ← List.getD_eq_getElem _ false right]
    exact (each ⟨i, width ▸ left⟩).trans (place ⟨i, width ▸ left⟩).symm
  rw [amplitude?, if_pos (width.trans valid.width.symm)]
  refine congrArg some (Cplx.toComplex_injective ?_)
  rw [amplitude_eq_wave _ bits valid.width, wave_basis, apply_ite Cplx.toComplex]
  refine if_congr ?_ rfl rfl
  rw [read, funext_iff]
  exact forall_congr' fun k => gf_inj _ _

theorem Settings.Valid.bounded {s : Settings ℝ} {qs : List Qudit} (valid : s.Valid qs) (two : ∀ q ∈ qs, q.dim = 2)
    (short : qs.length < 64) : s.initial < 2 ^ qs.length := by
  obtain ⟨count, -⟩ := Form.digits_bits qs two 0
  have small : size (Qudit.dims qs) < wordSize := count ▸ Nat.pow_lt_pow_right Nat.one_lt_two short
  exact count ▸ valid.initial_lt small

/-! The amplitude of a state at one digit for each of its qudits. -/

def DenseState.amplitude? {R : Type} (ψ : DenseState R) (ds : List ℕ) : Option (Cplx R) :=
  ψ.amplitudes[value (Qudit.dims ψ.frame.qudits) ds]?

def StabilizerState.amplitude? {R : Type} [Scalar R] (φ : StabilizerState R) (ds : List ℕ) : Option (Cplx R) :=
  φ.form.amplitude? (ds.map (· == 1))

theorem DenseState.basisState_amplitudes {R : Type} [Scalar R] {qs : List Qudit} {index : ℕ} {source : SourceRef} {log : LogRef}
    {ψ : DenseState R} (made : basisState qs index source log = .ok ψ) :
    ψ.amplitudes = Dense.Amplitudes.basis (size (Qudit.dims qs)) index := by
  rw [basisState] at made
  split at made
  · cases made
  · rename_i f framed
    obtain ⟨-, rfl, -⟩ := Frame.exact_of _ _ _ _ framed
    split at made
    · cases made
    · rename_i n sized
      rw [(checkedSize_some 1 f.dims n (by decide) sized).1, Nat.one_mul] at made
      split at made
      · cases made
      · cases made
        rfl

/-! Registers can be made of any number of qubits. -/

namespace Register

theorem singles_found (source : SourceRef) (log : LogRef) (qs : List Qudit) (two : ∀ q ∈ qs, q.dim = 2) (index : ℕ) :
    ∃ states : List (StabilizerState ℝ), singles source log (qs.zip (digits (Qudit.dims qs) index)) = .ok states := by
  induction qs with
  | nil => exact ⟨[], rfl⟩
  | cons q qs ih =>
      have qubit : q.dim = 2 := two q List.mem_cons_self
      obtain ⟨states, later⟩ := ih fun p listed => two p (List.mem_cons_of_mem q listed)
      have first := StabilizerState.basisState_found [q] (index / size (Qudit.dims qs) % q.dim) source log (List.nodup_singleton q)
        (fun p member => List.mem_singleton.mp member ▸ qubit)
        fun _ => (Nat.mod_lt _ (qubit ▸ Nat.two_pos)).trans_eq qubit
      rw [Qudit.dims_cons, digits_cons, List.zip_cons_cons]
      simp only [singles, first, later, bind, Except.bind]
      exact ⟨_, rfl⟩

variable {s : Settings ℝ} {qs : List Qudit}

theorem initialStates_found (valid : s.Valid qs) (two : ∀ q ∈ qs, q.dim = 2) (source : SourceRef) (log : LogRef) :
    ∃ states : List (StabilizerState ℝ), initialStates s qs source log = .ok states := by
  cases mode : s.split with
  | true =>
      obtain ⟨states, each⟩ := singles_found source log qs two s.initial
      have last := StabilizerState.basisState_found [] 0 source log List.nodup_nil (fun q member => (List.not_mem_nil member).elim)
        fun _ => Nat.one_pos
      simp only [initialStates, mode, if_true, each, last, bind, Except.bind]
      exact ⟨_, rfl⟩
  | false =>
      have only := StabilizerState.basisState_found qs s.initial source log valid.canonical two (valid.bounded two)
      simp only [initialStates, mode, Bool.false_eq_true, if_false, only, bind, Except.bind]
      exact ⟨_, rfl⟩

/-- A register can be made, and its joint state has amplitude one at the digits of the initial position
and zero at all others. -/
def Begins {S : Type} [Representation ℝ S] (amplitude? : S → List ℕ → Option (Cplx ℝ)) (s : Settings ℝ) (qs : List Qudit)
    (c : Cells) : Prop :=
  ∃ (r : Register ℝ S) (d : Cells) (m : S), Register.new s c = .ok (r, d) ∧ r.merged = .ok m ∧ Representation.qudits m = qs
    ∧ ∀ ds, List.Forall₂ (· < ·) ds (Qudit.dims qs) →
      amplitude? m ds = some (if ds = digits (Qudit.dims qs) s.initial then 1 else 0)

theorem begins_dense (c : Cells) (checked : s.validate = .ok qs) (small : size (Qudit.dims qs) < wordSize) :
    Begins DenseState.amplitude? s qs c := by
  obtain ⟨r, Ψ, d, made, fresh, rfl, joint⟩ := new_joint s qs c checked small
  have inside := (s.validate_ok _ checked).initial_lt small
  obtain ⟨m, merged, order, same⟩ := joint.merged
  refine ⟨r, d, m, made, merged, order, fun ds below => ?_⟩
  have single : Ψ.amplitudes = Dense.Amplitudes.basis (size (Qudit.dims r.qudits)) s.initial := by
    obtain ⟨Φ, started, done⟩ := SimError.bind_ok fresh
    cases done
    exact DenseState.basisState_amplitudes started
  have place : value (Qudit.dims r.qudits) ds = s.initial ↔ ds = digits (Qudit.dims r.qudits) s.initial := by
    constructor
    · intro here
      rw [← here, digits_value _ _ below]
    · rintro rfl
      exact value_digits _ _ inside
  rw [DenseState.amplitude?, order, same, single, Dense.Amplitudes.basis, Array.getElem?_ofFn, dif_pos (value_lt _ _ below)]
  exact congrArg some (if_congr place rfl rfl)

theorem begins_stabilizer (c : Cells) (checked : s.validate = .ok qs) (two : ∀ q ∈ qs, q.dim = 2) :
    Begins StabilizerState.amplitude? s qs c := by
  have valid := s.validate_ok qs checked
  obtain ⟨states, begun⟩ := initialStates_found valid two (c.newSource (Random.Source.ofSeed s.seed)).1
    ((c.newSource (Random.Source.ofSeed s.seed)).2.newLog Log.empty).1
  have made : ∃ (r : Register ℝ (StabilizerState ℝ)) (d : Cells), Register.new s c = .ok (r, d) ∧ r.qudits = qs := by
    simp only [Register.new, checked, bind, Except.bind, begun]
    exact ⟨_, _, rfl, rfl⟩
  obtain ⟨r, d, made, rfl⟩ := made
  have mirrors := new_mirrors c d made
  obtain ⟨m, merged, sound, order, signal⟩ := mirrors.merged
  refine ⟨r, d, m, made, merged, order, fun ds below => ?_⟩
  have single := amplitude_across r.qudits valid.canonical m.form _ (order ▸ sound.valid) mirrors.whole
    (order ▸ signal : m.form.across r.qudits = _) (ds.map (· == 1))
  have width : (ds.map (· == 1)).length = r.qudits.length := by
    rw [List.length_map, below.length_eq, Qudit.dims_length]
  rw [StabilizerState.amplitude?, single, Form.amplitude_basis _ _ _ width, (Form.digits_bits _ two _).2]
  have read := Form.bits_digits _ two ds below
  have injective : Function.Injective (List.map Bool.toNat) := List.map_injective_iff.mpr (by decide)
  refine congrArg some (if_congr ⟨fun same => ?_, fun same => ?_⟩ rfl rfl)
  · rw [← same, read]
  · exact injective (read.trans same)

end Register

open Register

theorem initial_basis_state (s : Settings ℝ) (qs : List Qudit) (c : Cells) (checked : s.validate = .ok qs) :
    (size (Qudit.dims qs) < wordSize → Begins DenseState.amplitude? s qs c)
      ∧ ((∀ q ∈ qs, q.dim = 2) → Begins StabilizerState.amplitude? s qs c) :=
  ⟨begins_dense c checked, begins_stabilizer c checked⟩

theorem initial_basis_state_pair : Begins DenseState.amplitude? pairSettings [Qudit.qubit 0, Qudit.qubit 1] {}
    ∧ Begins StabilizerState.amplitude? pairSettings [Qudit.qubit 0, Qudit.qubit 1] {} := by
  obtain ⟨dense, stabilizer⟩ := initial_basis_state pairSettings _ {} pair_validated
  exact ⟨dense (by decide), stabilizer (by decide)⟩

end QuantumRegister
