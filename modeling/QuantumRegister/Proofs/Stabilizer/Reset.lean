import QuantumRegister.Proofs.Dense.Reset
import QuantumRegister.Proofs.Register.Mirror
import QuantumRegister.Proofs.Stabilizer.Born

/-!
Resetting qubits of a stabilizer state. A qubit found set is flipped, which carries what was found to
zero, as resetting does in a dense state.
-/

set_option autoImplicit false

namespace QuantumRegister

open QuantumRegister.Assignment
open QuantumRegister.Dense
open QuantumRegister.Form (gf root)
open QuantumRegister.Random (Source)

/-! Bits and values. -/

def Assignment.bits (σ : Assignment) (q : Qudit) : ZMod 2 := gf (σ q == 1)

theorem Assignment.bits_zero (σ : Assignment) (q : Qudit) (bound : σ q < 2) : bits σ q = 0 ↔ σ q = 0 := by
  have cases : σ q = 0 ∨ σ q = 1 := by omega
  rcases cases with zero | one
  · simp [bits, zero]
  · simp [bits, one]

theorem Assignment.bits_update (σ : Assignment) (q : Qudit) (b : Bool) (zero : σ q = 0) :
    bits (Function.update σ q b.toNat) = bits σ + Pi.single q (gf b) := by
  funext p
  rw [Pi.add_apply]
  by_cases same : p = q
  · subst same
    rw [bits, bits, Function.update_self, zero, Pi.single_eq_same]
    cases b <;> rfl
  · rw [bits, bits, Function.update_of_ne same, Pi.single_eq_of_ne same, add_zero]

theorem Assignment.sumOver_bits (L : List Qudit) (once : L.Nodup) (qubits : ∀ q ∈ L, q.dim = 2) (f : (Fin L.length → ZMod 2) → ℝ)
    (σ : Assignment) : sumOver L (fun τ => f fun i => bits τ (L.getD i default)) σ = ∑ x, f x := by
  induction L generalizing σ with
  | nil =>
      have only : Unique (Fin 0 → ZMod 2) := Pi.uniqueOfIsEmpty _
      exact (congrArg f (Subsingleton.elim _ _)).trans (Fintype.sum_unique f).symm
  | cons q L ih =>
      obtain ⟨absent, rest⟩ := List.nodup_cons.mp once
      have each (v : ℕ) : sumOver L (fun τ => f fun i => bits τ ((q :: L).getD i default)) (Function.update σ q v)
          = ∑ x : Fin L.length → ZMod 2, f (Fin.cons (gf (v == 1)) x) := by
        rw [← ih rest (fun p listed => qubits p (List.mem_cons_of_mem q listed)) (fun x => f (Fin.cons (gf (v == 1)) x))]
        refine sumOver_congr L _ _ _ rest fun τ _ others => congrArg f (funext fun i => ?_)
        refine Fin.cases ?_ (fun i => rfl) i
        rw [Fin.cons_zero, bits]
        exact congrArg (fun v => gf (v == 1)) ((others q absent).trans (Function.update_self q v σ))
      have split := (Fin.consEquiv fun _ : Fin (L.length + 1) => ZMod 2).sum_comp f
      rw [Fintype.sum_prod_type] at split
      rw [sumOver, qubits q List.mem_cons_self, Finset.sum_range_succ, Finset.sum_range_one, each, each]
      exact (Fin.sum_univ_two _).symm.trans split

namespace StabilizerState

/-! Amplitudes by the values of the qubits. -/

noncomputable def wave (t : StabilizerState ℝ) (σ : Assignment) : ℂ :=
  (t.form.amplitude (t.frame.qudits.map fun q => σ q == 1)).toComplex

theorem wave_signal (t : StabilizerState ℝ) (sound : t.Sound) (σ : Assignment) : t.wave σ = t.signal (bits σ) := by
  rw [wave, Form.amplitude_eq_wave t.form _ sound.valid.width]
  refine congrArg (Form.wave _ t.form) (funext fun i => ?_)
  rw [List.getD_eq_getElem _ _ (by simp), List.getElem_map, bits, List.getD_eq_getElem _ _ i.isLt]

structure Proper (t : StabilizerState ℝ) : Prop extends t.Sound where
  qubits : ∀ q ∈ t.frame.qudits, q.dim = 2
  unit : weight t.frame.qudits t.wave = 1

theorem weight_wave (t : StabilizerState ℝ) (sound : t.Sound) (qubits : ∀ q ∈ t.frame.qudits, q.dim = 2) :
    weight t.frame.qudits t.wave = Complex.normSq t.form.omega.toComplex := by
  rw [← Form.total_wave sound.valid, Form.total, ← sumOver_bits _ sound.exact.distinct qubits _ fun _ => 0, weight]
  exact congrArg (fun F => sumOver t.frame.qudits F fun _ => 0) (funext fun τ => congrArg _ (wave_signal t sound τ))

/-! One qubit. -/

def cleared {R : Type} [Scalar R] (c : Form R) (i : ℕ) (b : Bool) : Form R :=
  if b then (c.project i b).applyX i else c.project i b

theorem cleared_turned {n : ℕ} {c : Form ℝ} (valid : Form.Tableau n c) (i : Fin n) (s : Source) :
    Form.Turned c (cleared c i (c.measure i s).1.1) := by
  have measured := Form.turned_measure valid i s
  rw [Form.measure_eq] at measured ⊢
  rw [cleared]
  split
  · exact measured.trans (Form.turned_applyX (valid.project i _) i)
  · exact measured

section One

variable {t : StabilizerState ℝ} (sound : t.Sound) {q : Qudit} (owned : q ∈ t.frame.qudits)

include sound owned

theorem cleared_signal (b : Bool) : (t.setForm (cleared t.form (t.frame.qudits.idxOf q) b)).Sound
    ∧ ∀ β, (t.setForm (cleared t.form (t.frame.qudits.idxOf q) b)).signal β
        = Event.boost t.signal q * if β q = 0 then t.signal (β + Pi.single q (gf b)) else 0 := by
  have single : Names t.frame.qudits [q] := ⟨List.nodup_singleton q, List.cons_subset.mpr ⟨owned, List.nil_subset _⟩⟩
  have once := sound.exact.distinct
  have held := (Event.play_ok sound.valid (.project q b) single).2
  have projected := Event.across_play once sound.valid (.project q b) single
  rw [cleared]
  cases b with
  | false =>
      refine ⟨⟨sound.exact, held⟩, fun β => (congrFun projected β).trans ?_⟩
      rw [Form.gf_false, Pi.single_zero, add_zero]
      rfl
  | true =>
      refine ⟨⟨sound.exact, (Event.play_ok held (.gate (.x q)) single).2⟩, fun β => ?_⟩
      have flipped := congrFun (Event.across_play once held (.gate (.x q)) single) β
      have moved : (β + Pi.single q 1 : Qudit → ZMod 2) q = gf true ↔ β q = 0 := by simp
      refine flipped.trans ((congrFun projected _).trans ?_)
      exact congrArg (Event.boost t.signal q * ·) (if_congr moved rfl rfl)

end One

theorem cleared_emptied {t : StabilizerState ℝ} (proper : t.Proper) {q : Qudit} (owned : q ∈ t.frame.qudits) (s : Source) {b : Bool}
    (found : (t.form.measure (t.frame.qudits.idxOf q) s).1.1 = b) :
    (t.setForm (cleared t.form (t.frame.qudits.idxOf q) b)).Proper
      ∧ Emptied t.frame.qudits [q] [b.toNat] t.wave (t.setForm (cleared t.form (t.frame.qudits.idxOf q) b)).wave := by
  obtain ⟨i, place, -⟩ := Event.place t.frame.qudits q owned
  obtain ⟨sound, signal⟩ := cleared_signal proper.toSound owned b
  have unit : weight t.frame.qudits (t.setForm (cleared t.form (t.frame.qudits.idxOf q) b)).wave = 1 := by
    obtain ⟨z, eighth, turned⟩ := cleared_turned proper.valid i s
    rw [← place, found] at turned
    have weighed := weight_wave _ sound proper.qubits
    rw [setForm, turned, map_mul, Form.normSq_of_eighth z eighth, mul_one, ← weight_wave t proper.toSound proper.qubits,
      proper.unit] at weighed
    exact weighed
  refine ⟨⟨sound, proper.qubits, unit⟩, ?_⟩
  obtain ⟨r, positive, real⟩ : ∃ r : ℝ, 0 < r ∧ Event.boost t.signal q = r := by
    classical exact Form.positive_gain (Event.Undecided t.signal q)
  have two := proper.qubits q owned
  have inside : b.toNat < q.dim := two ▸ b.toNat_lt
  refine emptied_single _ q b.toNat t.wave _ r proper.exact.distinct owned inside positive unit fun σ within => ?_
  have bound : σ q < 2 := (within q owned).trans_eq two
  rw [wave_signal _ sound, signal, real, mul_comm]
  refine congrArg (· * (r : ℂ)) (if_ctx_congr (bits_zero σ q bound) (fun zero => ?_) fun _ => rfl)
  rw [wave_signal t proper.toSound, bits_update σ q b zero]

/-! Several qubits. -/

section Steps

variable (b : Bench (StabilizerState ℝ)) (exact : b.state.frame.Exact) (qs : List Qudit) (once : qs.Nodup)
  (inside : qs ⊆ b.state.frame.qudits)

include exact once inside

theorem axes_listed : b.state.frame.axes (R := ℝ) qs = .ok (qs.map b.state.frame.qudits.idxOf) := by
  obtain ⟨axes, found⟩ := exact.axes_found (R := ℝ) qs once inside
  rw [found, (exact.axes_idxOf qs axes found).1]

theorem observe_eq : observe qs b =
    let drawn := b.state.form.measureAll (qs.map b.state.frame.qudits.idxOf) b.source
    (.ok (drawn.1.1.map Bool.toNat), ⟨drawn.2, b.log, b.state.setForm drawn.1.2⟩) := by
  have begun : observe qs b = (Step.ofExcept (b.state.frame.axes (R := ℝ) qs) >>= fun axes =>
      Step.draw (b.state.form.measureAll axes) >>= fun drawn =>
      Step.setState (b.state.setForm drawn.2) >>= fun _ => pure (drawn.1.map Bool.toNat) :
      Step ℝ (StabilizerState ℝ) (List ℕ)) b := rfl
  rw [begun, axes_listed b exact qs once inside]
  rfl

theorem reset_eq : reset qs b =
    let drawn := b.state.form.resetAll (qs.map b.state.frame.qudits.idxOf) b.source
    (.ok (), ⟨drawn.2, b.log, b.state.setForm drawn.1⟩) := by
  have begun : reset qs b = (Step.ofExcept (b.state.frame.axes (R := ℝ) qs) >>= fun axes =>
      Step.draw (b.state.form.resetAll axes) >>= fun c => Step.setState (b.state.setForm c) :
      Step ℝ (StabilizerState ℝ) Unit) b := rfl
  rw [begun, axes_listed b exact qs once inside]
  rfl

end Steps

theorem stabilizer_empties : Empties Proper wave := by
  refine ⟨fun t proper => proper.exact.distinct, fun t proper => proper.unit, fun b proper => ?_,
    fun b q qs proper once inside => ?_, fun b q proper owned => ?_⟩
  · exact reset_eq b proper.exact [] List.nodup_nil (List.nil_subset _)
  · obtain ⟨owned, later⟩ := List.cons_subset.mp inside
    have single : [q] ⊆ b.state.frame.qudits := List.cons_subset.mpr ⟨owned, List.nil_subset _⟩
    have first : Representation.reset [q] b = _ := reset_eq b proper.exact [q] (List.nodup_singleton q) single
    let drawn := b.state.form.resetAll ([q].map b.state.frame.qudits.idxOf) b.source
    have rest := reset_eq ⟨drawn.2, b.log, b.state.setForm drawn.1⟩ proper.exact qs (List.nodup_cons.mp once).2 later
    refine (reset_eq b proper.exact (q :: qs) once inside).trans ?_
    rw [Step.bind_apply, first]
    exact rest.symm
  · have single : [q] ⊆ b.state.frame.qudits := List.cons_subset.mpr ⟨owned, List.nil_subset _⟩
    obtain ⟨fine, emptied⟩ := cleared_emptied proper owned b.source rfl
    refine ⟨_, _, _, congrArg Prod.fst (observe_eq b proper.exact [q] (List.nodup_singleton q) single),
      reset_eq b proper.exact [q] (List.nodup_singleton q) single, fine, rfl, emptied⟩

theorem basisState_proper (qs : List Qudit) (index : ℕ) (source : SourceRef) (log : LogRef) (once : qs.Nodup)
    (qubits : ∀ q ∈ qs, q.dim = 2) (inside : index >>> qs.length = 0) :
    ∃ t, basisState (R := ℝ) qs index source log = .ok t ∧ t.Proper ∧ t.frame.qudits = qs := by
  have framed := Frame.of_distinct (R := ℝ) qs source log once
  have below : index < 2 ^ qs.length := by
    rw [Nat.shiftRight_eq_div_pow] at inside
    exact Nat.lt_of_div_eq_zero (Nat.two_pow_pos _) inside
  let t : StabilizerState ℝ := ⟨⟨qs, Frame.placesFrom 0 qs [], source, log⟩, Form.basis qs.length index⟩
  have sound : t.Sound := ⟨(Frame.exact_of _ _ _ _ framed).1, Form.tableau_basis qs.length index⟩
  refine ⟨t, basisState_found qs index source log once qubits fun _ => below, ⟨sound, qubits, ?_⟩, rfl⟩
  obtain ⟨z, eighth, turned⟩ := Form.turned_basis qs.length index
  rw [weight_wave t sound qubits, turned, map_mul, Form.normSq_of_eighth z eighth]
  simp [Form.zero]

end StabilizerState

/-! Both representations. -/

open QuantumRegister.Representation (reset qudits frame)

theorem reset_carries_drawn_values (qs : List Qudit) (once : qs.Nodup) :
    (∀ b : Bench (DenseState ℝ), b.state.Proper → qs ⊆ qudits b.state → ∃ s t, reset qs b = (.ok (), ⟨s, b.log, t⟩)
        ∧ frame t = frame b.state ∧ Emptied (qudits b.state) qs (drawnValues qs b) b.state.wave t.wave)
      ∧ ∀ b : Bench (StabilizerState ℝ), b.state.Proper → qs ⊆ qudits b.state → ∃ s t, reset qs b = (.ok (), ⟨s, b.log, t⟩)
        ∧ frame t = frame b.state ∧ Emptied (qudits b.state) qs (drawnValues qs b) b.state.wave t.wave := by
  refine ⟨fun b proper inside => ?_, fun b proper inside => ?_⟩
  · obtain ⟨s, t, ran, -, same, emptied⟩ := DenseState.dense_empties.reset qs once b proper inside
    exact ⟨s, t, ran, same, emptied⟩
  · obtain ⟨s, t, ran, -, same, emptied⟩ := StabilizerState.stabilizer_empties.reset qs once b proper inside
    exact ⟨s, t, ran, same, emptied⟩

theorem reset_carries_drawn_values_pair : (∃ (ψ φ : DenseState ℝ) (s : Source),
      DenseState.basisState [Qudit.qubit 0, ⟨1, 3⟩] 5 ⟨0⟩ ⟨0⟩ = .ok ψ
        ∧ reset [⟨1, 3⟩, Qudit.qubit 0] ⟨default, {}, ψ⟩ = (.ok (), ⟨s, {}, φ⟩)
        ∧ weight [Qudit.qubit 0, ⟨1, 3⟩] φ.wave = 1 ∧ φ.wave (fun _ => 1) = 0)
    ∧ ∃ (t u : StabilizerState ℝ) (s : Source), StabilizerState.basisState [Qudit.qubit 0, Qudit.qubit 1] 3 ⟨0⟩ ⟨0⟩ = .ok t
        ∧ reset [Qudit.qubit 1, Qudit.qubit 0] ⟨default, {}, t⟩ = (.ok (), ⟨s, {}, u⟩)
        ∧ weight [Qudit.qubit 0, Qudit.qubit 1] u.wave = 1 ∧ u.wave (fun _ => 1) = 0 := by
  constructor
  · obtain ⟨ψ, given, sound, named, -⟩ :=
      DenseState.basisState_sound [Qudit.qubit 0, ⟨1, 3⟩] 5 ⟨0⟩ ⟨0⟩ (by decide) (by decide) (by decide) (by decide)
    have listed : qudits ψ = [Qudit.qubit 0, ⟨1, 3⟩] := named
    have above : ∀ q ∈ [Qudit.qubit 0, ⟨1, 3⟩], 1 < q.dim := by decide
    have small : MixedRadix.size ψ.frame.dims < MixedRadix.wordSize := by rw [Frame.dims, named]; decide
    obtain ⟨s, φ, ran, -, emptied⟩ := (reset_carries_drawn_values [⟨1, 3⟩, Qudit.qubit 0] (by decide)).1 ⟨default, {}, ψ⟩ ⟨sound, small⟩
      (by rw [listed]; decide)
    rw [listed] at emptied
    exact ⟨ψ, φ, s, given, ran, emptied.norm, emptied.gone _ above ⟨⟨1, 3⟩, List.mem_cons_self, one_ne_zero⟩⟩
  · obtain ⟨t, given, proper, named⟩ :=
      StabilizerState.basisState_proper [Qudit.qubit 0, Qudit.qubit 1] 3 ⟨0⟩ ⟨0⟩ (by decide) (by decide) rfl
    have listed : qudits t = [Qudit.qubit 0, Qudit.qubit 1] := named
    have above : ∀ q ∈ [Qudit.qubit 0, Qudit.qubit 1], 1 < q.dim := by decide
    obtain ⟨s, u, ran, -, emptied⟩ := (reset_carries_drawn_values [Qudit.qubit 1, Qudit.qubit 0] (by decide)).2 ⟨default, {}, t⟩ proper
      (by rw [listed]; decide)
    rw [listed] at emptied
    exact ⟨t, u, s, given, ran, emptied.norm, emptied.gone _ above ⟨Qudit.qubit 1, List.mem_cons_self, one_ne_zero⟩⟩

end QuantumRegister
