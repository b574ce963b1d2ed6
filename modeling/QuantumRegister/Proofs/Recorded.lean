import QuantumRegister.Proofs.Dense.Sound
import QuantumRegister.Proofs.Representation
import QuantumRegister.Stabilizer.State

/-!
What a measurement records: one value for each of its qudits, and each is one of its levels. The
exceptions are a flipped qudit with one level, and a confusion of more joint values than a machine word
counts.
-/

set_option autoImplicit false

namespace QuantumRegister

open QuantumRegister.MixedRadix (digits digits_below)
open QuantumRegister.Qudit (dims)
open QuantumRegister.Representation (frame measure observe rawOutcome rows sampler)

namespace Representation

variable {R S : Type} [Representation R S]

structure Digital (fits : S → Prop) : Prop where
  exact : ∀ s, fits s → (frame s).Exact
  positive : ∀ s, fits s → ∀ q ∈ (frame s).qudits, 0 < q.dim
  observed : ∀ (qs : List Qudit) (b : Bench S), fits b.state → Names (frame b.state).qudits qs →
    ∃ raw c, observe qs b = (.ok raw, c) ∧ c.log = b.log ∧ List.Forall₂ (· < ·) raw (dims qs)
  sampled : ∀ (qs : List Qudit) (s : S), fits s → Names (frame s).qudits qs →
    ∃ d, sampler s qs = .ok d ∧ ∀ source, List.Forall₂ (· < ·) (d source).1 (dims qs)

variable {fits : S → Prop} {m : Measurement R} {b : Bench S}

open Step

theorem Digital.raw (digital : Digital fits) (fit : fits b.state) (names : Names (frame b.state).qudits m.qudits) :
    ∃ raw c, rawOutcome m b = (.ok raw, c) ∧ c.log = b.log ∧ m.Digits raw := by
  rw [rawOutcome]
  split
  · exact digital.observed m.qudits b fit names
  · obtain ⟨d, found, each⟩ := digital.sampled m.qudits b.state fit names
    simp only [bind_apply, get_apply, ofExcept_apply, draw_apply, pure_apply, rows, found]
    exact ⟨_, _, rfl, rfl, each _⟩

variable [Scalar R]

def settle (m : Measurement R) (raw : List ℕ) (c : Bench S) : Except (SimError R) (List ℕ) × Bench S :=
  match m.correct raw c.source with
  | (.error e, source) => (.error e, { c with source := source })
  | (.ok values, source) =>
    match (Log.recordMeasurement m.key m.qudits values : Log.Edit R Unit) c.log with
    | (.error e, log) => (.error e, ⟨source, log, c.state⟩)
    | (.ok _, log) => (.ok values, ⟨source, log, c.state⟩)

theorem measure_apply (m : Measurement R) (b : Bench S) : measure m b = match (frame b.state).axes m.qudits with
    | .error e => (.error e, b)
    | .ok _ => match rawOutcome m b with
      | (.error e, c) => (.error e, c)
      | (.ok raw, c) => settle m raw c := by
  simp only [measure, settle, bind_apply, get_apply, ofExcept_apply, draw_apply, edit_apply, pure_apply]
  cases (frame b.state).axes (R := R) m.qudits with
  | error e => rfl
  | ok axes =>
      dsimp only
      obtain ⟨raw | raw, c⟩ := rawOutcome m b
      · rfl
      · dsimp only
        obtain ⟨values | values, source⟩ := m.correct raw c.source
        · rfl
        · dsimp only
          obtain ⟨done | done, log⟩ := (Log.recordMeasurement m.key m.qudits values : Log.Edit R Unit) c.log <;> rfl

/-- A measurement finds digits, corrects them without reading outside, and records and answers what comes
out. Only the log can refuse that. -/
def Answers (m : Measurement R) (b : Bench S) : Prop := ∃ raw c recorded source, rawOutcome m b = (.ok raw, c) ∧ m.Digits raw
  ∧ m.correct raw c.source = (.ok recorded, source) ∧ m.Recordable recorded
  ∧ measure m b = match (Log.recordMeasurement m.key m.qudits recorded : Log.Edit R Unit) b.log with
    | (.error e, log) => (.error e, ⟨source, log, c.state⟩)
    | (.ok _, log) => (.ok recorded, ⟨source, log, c.state⟩)

theorem Digital.answers (digital : Digital fits) (fit : fits b.state) (names : Names (frame b.state).qudits m.qudits)
    (accepted : m.Accepted) (countable : m.Countable) : Answers m b := by
  obtain ⟨axes, owned⟩ := (digital.exact _ fit).axes_found (R := R) m.qudits names.once names.inside
  obtain ⟨raw, c, drawn, log, digits⟩ := digital.raw fit names
  obtain ⟨recorded, corrected, recordable⟩ := digits.corrected accepted.covered countable
    (fun q listed => digital.positive _ fit q (names.inside listed)) c.source
  have pair : m.correct raw c.source = (.ok recorded, (m.correct raw c.source).2) := Prod.ext corrected rfl
  refine ⟨raw, c, recorded, _, drawn, digits, pair, recordable, ?_⟩
  rw [measure_apply, owned, drawn]
  dsimp only
  rw [settle, ← log, pair]
  rfl

end Representation

open QuantumRegister.Representation (Answers Digital)

section Kinds

variable {R : Type} [Scalar R]

theorem DenseState.digital : Digital fun ψ : DenseState R => ψ.frame.Exact ∧ ∀ q ∈ ψ.frame.qudits, 0 < q.dim where
  exact _ fit := fit.1
  positive _ fit := fit.2
  observed qs b fit names := by
    obtain ⟨axes, owned⟩ := fit.1.axes_found (R := R) qs names.once names.inside
    have positive := Qudit.dims_positive qs fun q listed => fit.2 q (names.inside listed)
    have read : Representation.observe qs b = DenseState.observe qs b := rfl
    simp only [read, DenseState.observe, Step.bind_apply, Step.get_apply, Step.ofExcept_apply, owned, Step.draw_apply]
    exact ⟨_, _, rfl, rfl, digits_below _ _ positive⟩
  sampled qs ψ fit names := by
    obtain ⟨axes, owned⟩ := fit.1.axes_found (R := R) qs names.once names.inside
    have positive := Qudit.dims_positive qs fun q listed => fit.2 q (names.inside listed)
    refine ⟨_, by rw [show Representation.sampler ψ qs = DenseState.sampler ψ qs from rfl, DenseState.sampler, owned], fun source => ?_⟩
    exact digits_below _ _ positive

theorem Form.measureAll_bits (c : Form R) (axes : List ℕ) (source : Random.Source) :
    (c.measureAll axes source).1.1.length = axes.length := by
  induction axes generalizing c source with
  | nil => rfl
  | cons k axes ih => exact congrArg (· + 1) (ih _ _)

theorem bits_below {bits : List Bool} {qs : List Qudit} (length : bits.length = qs.length) (qubits : ∀ q ∈ qs, q.dim = 2) :
    List.Forall₂ (· < ·) (bits.map Bool.toNat) (dims qs) := by
  have two : dims qs = List.replicate qs.length 2 := List.map_eq_replicate_iff.mpr qubits
  rw [two, ← length]
  clear two length
  induction bits with
  | nil => exact .nil
  | cons b bits ih => exact .cons (Bool.toNat_lt b) ih

theorem StabilizerState.digital : Digital fun φ : StabilizerState R => φ.frame.Exact ∧ ∀ q ∈ φ.frame.qudits, q.dim = 2 where
  exact _ fit := fit.1
  positive _ fit q owned := by
    have two := fit.2 q owned
    omega
  observed qs b fit names := by
    obtain ⟨axes, owned⟩ := fit.1.axes_found (R := R) qs names.once names.inside
    have read : Representation.observe qs b = StabilizerState.observe qs b := rfl
    simp only [read, StabilizerState.observe, Step.bind_apply, Step.get_apply, Step.ofExcept_apply, owned, Step.draw_apply]
    refine ⟨_, _, rfl, rfl, bits_below ?_ fun q listed => fit.2 q (names.inside listed)⟩
    rw [Form.measureAll_bits]
    exact ((fit.1.axes_iff qs axes).mp owned).1.length_eq.symm
  sampled qs φ fit names := by
    obtain ⟨axes, owned⟩ := fit.1.axes_found (R := R) qs names.once names.inside
    refine ⟨_, by rw [show Representation.sampler φ qs = StabilizerState.sampler φ qs from rfl, StabilizerState.sampler, owned], fun source => ?_⟩
    refine bits_below ?_ fun q listed => fit.2 q (names.inside listed)
    rw [Form.measureAll_bits]
    exact ((fit.1.axes_iff qs axes).mp owned).1.length_eq.symm

theorem recorded_digits (m : Measurement R) (accepted : m.Accepted) (countable : m.Countable) :
    (∀ b : Bench (DenseState R), b.state.frame.Exact → (∀ q ∈ b.state.frame.qudits, 0 < q.dim) →
        Names b.state.frame.qudits m.qudits → Answers m b)
      ∧ ∀ b : Bench (StabilizerState R), b.state.frame.Exact → (∀ q ∈ b.state.frame.qudits, q.dim = 2) →
        Names b.state.frame.qudits m.qudits → Answers m b :=
  ⟨fun _ exact positive names => DenseState.digital.answers ⟨exact, positive⟩ names accepted countable,
    fun _ exact qubits names => StabilizerState.digital.answers ⟨exact, qubits⟩ names accepted countable⟩

end Kinds

/-! Two qubits. The first is confused, then both in the other order, then the first is flipped. -/

theorem Measurement.isDistribution_of_sum (row : List ℝ) (nonneg : ∀ x ∈ row, 0 ≤ x) (total : row.sum = 1) :
    isDistribution row = true := by
  have sum : Scalar.sum row = 1 := total ▸ List.sum_eq_foldl.symm
  have some : (0 : ℝ) < tolerance := by
    change (0 : ℝ) < 1e-8
    norm_num
  simpa [isDistribution, sum, Scalar.magnitude, some] using nonneg

def exchanging : Grid ℝ := Grid.ofRows [[0, 1], [1, 0]]

noncomputable def blurring : Grid ℝ :=
  let half := Scalar.dyadic 1 1
  let quarter := Scalar.dyadic 1 2
  Grid.ofRows [[half, 0, half, 0], [0, 1, 0, 0], [0, 0, 0, 1], [quarter, quarter, quarter, quarter]]

noncomputable def misread : Measurement ℝ :=
  { qudits := [Qudit.qubit 0, Qudit.qubit 1], key := "m", invert := [true, false, true],
    confusions := [⟨[0], exchanging⟩, ⟨[1, 0], blurring⟩] }

theorem misread_accepted : misread.Accepted := by
  have first := Measurement.withConfusion_accepts { qudits := [Qudit.qubit 0, Qudit.qubit 1], key := "m" } [0] exchanging
    (by decide) (by decide) (by decide) fun row member => by
      have listed : row ∈ [[0, 1], [1, 0]] := member
      fin_cases listed <;> exact Measurement.isDistribution_of_sum _ (by simp) (by norm_num)
  have second := Measurement.withConfusion_accepts
    { qudits := [Qudit.qubit 0, Qudit.qubit 1], key := "m", confusions := [⟨[0], exchanging⟩] } [1, 0] blurring
    (by decide) (by decide) (by decide) fun row member => by
      have half : (Scalar.dyadic 1 1 : ℝ) = 1 / 2 := by
        simp [Scalar.dyadic]
      have quarter : (Scalar.dyadic 1 2 : ℝ) = 1 / 4 := by
        simp only [Scalar.dyadic]
        norm_num
      have listed : row ∈ [[Scalar.dyadic 1 1, 0, Scalar.dyadic 1 1, 0], [0, 1, 0, 0], [0, 0, 0, 1],
        [Scalar.dyadic 1 2, Scalar.dyadic 1 2, Scalar.dyadic 1 2, Scalar.dyadic 1 2]] := member
      fin_cases listed <;>
        exact Measurement.isDistribution_of_sum _ (by norm_num [half, quarter]) (by norm_num [half, quarter])
  exact .inverted _ [true, false, true] (.confused _ _ _ _ (.confused _ _ _ _ (.new _ _) first) second)

theorem recorded_digits_pair : misread.Accepted ∧ misread.Countable
    ∧ (∃ b : Bench (DenseState ℝ), b.state.frame.qudits = [Qudit.qubit 0, Qudit.qubit 1] ∧ Answers misread b)
    ∧ ∃ b : Bench (StabilizerState ℝ), b.state.frame.qudits = [Qudit.qubit 0, Qudit.qubit 1] ∧ Answers misread b := by
  have countable : misread.Countable := by
    intro c listed
    have listed : c ∈ [⟨[0], exchanging⟩, ⟨[1, 0], blurring⟩] := listed
    fin_cases listed <;> decide
  obtain ⟨dense, stabilizer⟩ := recorded_digits misread misread_accepted countable
  refine ⟨misread_accepted, countable, ?_, ?_⟩
  · obtain ⟨ψ, -, sound, listed, -⟩ := DenseState.basisState_sound [Qudit.qubit 0, Qudit.qubit 1] 1 ⟨0⟩ ⟨0⟩ (by decide) (by decide)
      (by decide) (by decide)
    refine ⟨⟨default, Log.empty, ψ⟩, listed, dense _ sound.exact sound.positive ?_⟩
    exact listed ▸ ⟨by decide, by decide⟩
  · let f : Frame := ⟨[Qudit.qubit 0, Qudit.qubit 1], Frame.placesFrom 0 [Qudit.qubit 0, Qudit.qubit 1] [], ⟨0⟩, ⟨0⟩⟩
    have framed : Frame.of (R := ℝ) f.qudits f.source f.log = .ok f := Frame.of_distinct _ _ _ (by decide)
    exact ⟨⟨default, Log.empty, ⟨f, Form.basis 2 1⟩⟩, rfl,
      stabilizer _ (Frame.exact_of _ _ _ _ framed).1 (by decide) ⟨by decide, by decide⟩⟩

-- The one value of a qudit with one level is flipped to 1, which is no level of it. A machine word counts the
-- joint values of 64 qubits as none, so that a matrix without rows is accepted for them.
theorem recorded_astray :
    (∃ (m : Measurement ℝ) (b : Bench (DenseState ℝ)), m.Accepted ∧ b.state.Sound ∧ Names b.state.frame.qudits m.qudits
        ∧ m.qudits = [⟨0, 1⟩] ∧ (measure m b).1 = .ok [1])
      ∧ ∃ m : Measurement ℝ, m.Accepted ∧ m.Digits [0]
        ∧ ∀ source, (m.correct [0] source).1 = .error (.configuration (.confusionRow 0)) := by
  constructor
  · let m : Measurement ℝ := { qudits := [⟨0, 1⟩], key := "k", invert := [true] }
    have accepted : m.Accepted := .inverted _ [true] (.new [⟨0, 1⟩] "k")
    obtain ⟨ψ, -, sound, listed, -⟩ := DenseState.basisState_sound [⟨0, 1⟩] 0 ⟨0⟩ ⟨0⟩ (by decide) (by decide) (by decide) (by decide)
    have names : Names ψ.frame.qudits m.qudits := listed ▸ ⟨by decide, by decide⟩
    obtain ⟨raw, c, recorded, source, -, -, -, recordable, answered⟩ := DenseState.digital.answers (b := ⟨default, Log.empty, ψ⟩)
      ⟨sound.exact, sound.positive⟩ names accepted fun c member => by cases member
    obtain ⟨v, rfl⟩ := List.length_eq_one_iff.mp recordable.length
    have flipped : v = 1 := recordable.each 0 ⟨0, 1⟩ v rfl rfl
    subst flipped
    exact ⟨m, _, accepted, sound, names, rfl, congrArg Prod.fst answered⟩
  · have accepted := Measurement.withConfusion_accepts (R := ℝ) { qudits := [Qudit.qubit 0], key := "k" } (List.replicate 64 0)
      ⟨0, 0, #[]⟩ (by decide) (by decide) (by decide) fun row member => by cases member
    refine ⟨_, .confused _ _ _ _ (.new _ _) accepted, .cons (by decide) .nil, fun source => ?_⟩
    rfl

end QuantumRegister
