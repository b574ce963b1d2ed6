import QuantumRegister.Proofs.Random.Reads
import QuantumRegister.Proofs.Stabilizer.Project

/-!
Measuring a qubit follows the Born rule. The outcome is a fixed bit plus a sum of random ones; the
sum is empty where the state fixes the outcome, and otherwise each of its bits alone decides it.
-/

set_option autoImplicit false

namespace QuantumRegister.Form

open Matrix
open QuantumRegister.Random (Source)

/-! The outcome as a linear function of the random bits. -/

section Outcome

variable {R : Type}

-- Whether the row of the qubit reads a place of the layer, for each such place in order.
def readings (c : Form R) (q : ℕ) (places : List ℕ) : List (ZMod 2) :=
  (places.filter (flag c.v)).map fun j => gf (bit c.g q j)

theorem parity_eq (c : Form R) (q : ℕ) (places : List ℕ) (random : List Bool) :
    gf (c.parityFrom q places random)
      = (places.map fun j => gf (bit c.g q j && !flag c.v j && flag c.s j)).sum
        + (List.zipWith (fun reading r => reading * gf r) (c.readings q places) random).sum := by
  induction places generalizing random with
  | nil => rfl
  | cons j places ih =>
      cases layered : flag c.v j with
      | true =>
          have listed : c.readings q (j :: places) = gf (bit c.g q j) :: c.readings q places := by
            rw [readings, List.filter_cons_of_pos layered]
            rfl
          rw [parityFrom, if_pos layered, listed]
          cases random with
          | nil =>
              rw [List.headD_nil, Bool.false_and, Bool.false_xor, List.tail_nil, ih, List.map_cons, List.sum_cons, layered,
                Bool.not_true, Bool.and_false, Bool.false_and, gf_false, zero_add, List.zipWith_nil_right,
                List.zipWith_nil_right]
          | cons r random =>
              rw [List.headD_cons, List.tail_cons, gf_xor, ih, List.zipWith_cons_cons, List.sum_cons, List.map_cons,
                List.sum_cons, layered, Bool.not_true, Bool.and_false, Bool.false_and, gf_false, gf_and]
              ring
      | false =>
          have listed : c.readings q (j :: places) = c.readings q places := by
            rw [readings, List.filter_cons_of_neg (by simp [layered])]
            rfl
          rw [parityFrom, if_neg (by simp [layered]), listed, gf_xor, ih, List.map_cons, List.sum_cons, layered]
          simp only [Bool.not_false, Bool.and_true, gf_and]
          ring

theorem readings_length (c : Form R) (q : ℕ) : (c.readings q (List.range c.n)).length = c.layerSize := by
  rw [readings, List.length_map, layerSize, count, List.countP_eq_length_filter]

def reading (c : Form R) (q : ℕ) : Fin c.layerSize → ZMod 2 := fun i => (c.readings q (List.range c.n)).getD i 0

theorem outcome_eq (c : Form R) (q : ℕ) (r : Fin c.layerSize → Bool) :
    gf (c.outcome q (List.ofFn r)) = c.ones q + c.reading q ⬝ᵥ field r := by
  have fixed : ((List.range c.n).map fun j => gf (bit c.g q j && !flag c.v j && flag c.s j)).sum = (c.ones q : ZMod 2) := by
    rw [ones, count_parity, Fin.sum_univ_def, ← List.map_coe_finRange_eq_range, List.map_map]
    rfl
  have length := c.readings_length q
  have paired : List.zipWith (fun reading r => reading * gf r) (c.readings q (List.range c.n)) (List.ofFn r)
      = List.ofFn fun i => c.reading q i * field r i := by
    refine List.ext_getElem (by simp [length]) fun i left right => ?_
    have inside : i < (c.readings q (List.range c.n)).length := by
      rw [List.length_ofFn] at right
      omega
    rw [List.getElem_zipWith, List.getElem_ofFn, List.getElem_ofFn, reading, List.getD_eq_getElem _ _ inside]
    rfl
  rw [outcome, parity_eq, fixed, paired, List.sum_ofFn]
  rfl

theorem reading_met (c : Form R) (q : ℕ) (meets : c.Meets q) : ∃ i, c.reading q i = 1 := by
  obtain ⟨j, inside, selected, layered⟩ := meets
  have listed : (1 : ZMod 2) ∈ c.readings q (List.range c.n) :=
    List.mem_map.mpr ⟨j, List.mem_filter.mpr ⟨List.mem_range.mpr inside, layered⟩, congrArg gf selected⟩
  obtain ⟨i, bound, found⟩ := List.getElem_of_mem listed
  refine ⟨⟨i, c.readings_length q ▸ bound⟩, ?_⟩
  rw [reading, List.getD_eq_getElem _ _ bound, found]

theorem reading_unmet (c : Form R) (q : ℕ) (apart : ¬c.Meets q) : c.reading q = 0 := by
  funext i
  have bound : (i : ℕ) < (c.readings q (List.range c.n)).length := i.isLt.trans_eq (c.readings_length q).symm
  have listed := List.getElem_mem bound
  obtain ⟨j, member, read⟩ := List.mem_map.mp listed
  obtain ⟨inside, layered⟩ := List.mem_filter.mp member
  have unread : bit c.g q j = false := by
    by_contra selected
    exact apart ⟨j, List.mem_range.mp inside, Bool.eq_true_of_not_eq_false selected, layered⟩
  rw [reading, List.getD_eq_getElem _ _ bound, ← read, unread]
  rfl

theorem outcome_unmet (c : Form R) (q : ℕ) (apart : ¬c.Meets q) (r : Fin c.layerSize → Bool) :
    gf (c.outcome q (List.ofFn r)) = c.ones q := by
  rw [outcome_eq, reading_unmet c q apart, zero_dotProduct, add_zero]

theorem outcome_toggle (c : Form R) (q : ℕ) (i : Fin c.layerSize) (read : c.reading q i = 1) (r : Fin c.layerSize → Bool) :
    c.outcome q (List.ofFn (toggle r i)) = !c.outcome q (List.ofFn r) := by
  refine (gf_inj _ _).mp ?_
  rw [gf_not, outcome_eq, outcome_eq, field_toggle, dotProduct_add, dotProduct_single, read]
  ring

end Outcome

theorem toggle_toggle {k : ℕ} (x : Fin k → Bool) (i : Fin k) : toggle (toggle x i) i = x := by
  rw [toggle, toggle, Function.update_self, Bool.not_not, Function.update_idem, Function.update_eq_self]

-- A bit that always flips the answer pairs the strings of one answer with those of the other.
theorem half_of_flips {k : ℕ} (f : (Fin k → Bool) → Bool) (i : Fin k) (flips : ∀ r, f (toggle r i) = !f r) :
    2 * (Finset.univ.filter fun r => f r = true).card = 2 ^ k := by
  have paired : (Finset.univ.filter fun r => f r = true).card = (Finset.univ.filter fun r => ¬f r = true).card := by
    refine Finset.card_nbij' (toggle · i) (toggle · i) ?_ ?_ (fun r _ => toggle_toggle r i) fun r _ => toggle_toggle r i
    · intro r member
      simpa [flips] using member
    · intro r member
      simpa [flips] using member
  have whole := Finset.card_filter_add_card_filter_not (s := (Finset.univ : Finset (Fin k → Bool))) fun r => f r = true
  rw [← paired, Finset.card_univ, Fintype.card_fun, Fintype.card_bool, Fintype.card_fin] at whole
  omega

/-! The Born probabilities. -/

noncomputable def chance (c : Form ℝ) (q : Fin c.n) (b : Bool) : ℝ := ∑ x, Complex.normSq (projected c q b x)

theorem chance_met (c : Form ℝ) (valid : Tableau c.n c) (unit : Complex.normSq c.omega.toComplex = 1) (q : Fin c.n) (b : Bool)
    (meets : c.Meets q) : chance c q b = 1 / 2 := by
  obtain ⟨z, eighth, turned⟩ := turned_project valid q b meets
  have weighed := weighed c valid q b
  have doubled : Complex.normSq (root + root) = 2 := by
    rw [← two_mul, map_mul, normSq_root]
    norm_num
  rw [gain, if_pos meets, doubled, turned, map_mul, unit, normSq_of_eighth z eighth] at weighed
  rw [chance]
  linarith

theorem chance_unmet (c : Form ℝ) (valid : Tableau c.n c) (unit : Complex.normSq c.omega.toComplex = 1) (q : Fin c.n)
    (b : Bool) (apart : ¬c.Meets q) : chance c q b = if (c.ones q : ZMod 2) = gf b then 1 else 0 := by
  have weighed := weighed c valid q b
  rw [gain, if_neg apart, map_one, one_mul, omega_project c q b apart, map_mul, unit, one_mul] at weighed
  rw [chance, weighed]
  split
  · exact map_one _
  · exact map_zero _

theorem settled {n : ℕ} {c : Form ℝ} (valid : Tableau n c) (unit : Complex.normSq c.omega.toComplex = 1) (q : Fin n) (b : Bool)
    (alone : ∀ x : Fin n → Bool, x q ≠ b → vector n c x = 0) :
    ¬c.Meets q ∧ (c.ones q : ZMod 2) = gf b ∧ vector n (c.project q b) = vector n c := by
  have whole : ∀ x, vector n (c.project q b) x = gain c q * vector n c x := by
    intro x
    rw [vector_part valid]
    by_cases read : x q = b
    · rw [if_pos read]
    · rw [if_neg read, alone x read]
  have weighed : Complex.normSq (c.project q b).omega.toComplex = Complex.normSq (gain c q) := by
    rw [← total_vector (valid.project q b), Finset.sum_congr rfl fun x _ => (congrArg _ (whole x)).trans (map_mul _ _ _),
      ← Finset.mul_sum, total_vector valid, unit, mul_one]
  have apart : ¬c.Meets q := by
    intro meets
    obtain ⟨z, eighth, turned⟩ := turned_project valid q b meets
    rw [turned, map_mul, unit, normSq_of_eighth z eighth, gain, if_pos meets, ← two_mul, map_mul, normSq_root] at weighed
    norm_num at weighed
  rw [gain, if_neg apart] at whole weighed
  refine ⟨apart, ?_, funext fun x => (whole x).trans (one_mul _)⟩
  by_contra excluded
  rw [omega_project c q b apart, if_neg excluded, mul_zero, map_zero, map_one] at weighed
  exact zero_ne_one weighed

/-! Measurements. -/

theorem measure_eq {R : Type} [Scalar R] (c : Form R) (q : ℕ) (s : Source) :
    c.measure q s = ((c.outcome q (List.ofFn (s.coins c.layerSize)),
      c.project q (c.outcome q (List.ofFn (s.coins c.layerSize)))), s.skip c.layerSize) :=
  congrArg (fun p : List Bool × Source => ((c.outcome q p.1, c.project q (c.outcome q p.1)), p.2))
    (Random.drawBits_eq c.layerSize s)

theorem turned_measure {n : ℕ} {c : Form ℝ} (valid : Tableau n c) (q : ℕ) (s : Source) : Turned c (c.measure q s).1.2 := by
  rw [measure_eq]
  by_cases meets : c.Meets q
  · exact turned_project valid q _ meets
  · have read := outcome_unmet c q meets (s.coins c.layerSize)
    refine ⟨1, one_pow 8, ?_⟩
    rw [omega_project c q _ meets, if_pos read.symm]

theorem measure_tape {R : Type} [Scalar R] (c : Form R) (q : ℕ) (r : Fin c.layerSize → Bool) :
    (c.measure q (.tape r)).1 = (c.outcome q (List.ofFn r), c.project q (c.outcome q (List.ofFn r))) := by
  rw [measure_eq, Source.coins_tape]

theorem same_amplitudes {n : ℕ} (c d : Form ℝ) (left : c.n = n) (right : d.n = n) (same : vector n c = vector n d)
    (bits : List Bool) : c.amplitude? bits = d.amplitude? bits := by
  let x : Fin n → Bool := fun k => bits.getD k false
  have equal : c.amplitude bits = d.amplitude bits := Cplx.toComplex_injective (by
    rw [amplitude_string left bits x fun _ => rfl, amplitude_string right bits x fun _ => rfl, same])
  rw [amplitude?, amplitude?, left, right, equal]

theorem measured_again {n : ℕ} {c : Form ℝ} (valid : Tableau n c) (unit : Complex.normSq c.omega.toComplex = 1) (q : Fin n)
    (s further : Source) :
    ((c.measure q s).1.2.measure q further).1.1 = (c.measure q s).1.1
      ∧ ∀ bits, ((c.measure q s).1.2.measure q further).1.2.amplitude? bits = (c.measure q s).1.2.amplitude? bits := by
  obtain ⟨z, eighth, turned⟩ := turned_measure valid q s
  have ended := measure_eq c q s
  set b := c.outcome q (List.ofFn (s.coins c.layerSize))
  rw [ended] at turned ⊢
  have held := valid.project q b
  have length : Complex.normSq (c.project q b).omega.toComplex = 1 := by
    rw [turned, map_mul, unit, normSq_of_eighth z eighth, one_mul]
  obtain ⟨apart, fixed, same⟩ := settled held length q b fun x read => by
    rw [vector_part valid, if_neg read, mul_zero]
  have outcome : (c.project q b).outcome q (List.ofFn (further.coins (c.project q b).layerSize)) = b :=
    (gf_inj _ _).mp ((outcome_unmet _ q apart _).trans fixed)
  rw [measure_eq, outcome]
  exact ⟨rfl, same_amplitudes _ _ (held.project q b).width held.width same⟩

theorem total_amplitudes {c : Form ℝ} (valid : Tableau c.n c) :
    ∑ x : Fin c.n → Bool, Complex.normSq (c.amplitude (List.ofFn x)).toComplex = Complex.normSq c.omega.toComplex := by
  rw [← total_vector valid]
  refine Finset.sum_congr rfl fun x _ => ?_
  rw [amplitude_string rfl (List.ofFn x) x fun k => by simp]

/-! Outcomes against their probabilities. -/

section Outcomes

variable (c : Form ℝ) (valid : Tableau c.n c) (unit : Complex.normSq c.omega.toComplex = 1) (q : Fin c.n)

theorem half_measured (meets : c.Meets q) :
    2 * (Finset.univ.filter fun r : Fin c.layerSize → Bool => (c.measure q (.tape r)).1.1 = true).card = 2 ^ c.layerSize := by
  obtain ⟨i, read⟩ := reading_met c q meets
  simp only [measure_tape]
  exact half_of_flips (fun r => c.outcome q (List.ofFn r)) i (outcome_toggle c q i read)

include valid unit

theorem chance_cases : (∀ b, chance c q b = 1 / 2) ∨ ∃ b, chance c q b = 1 ∧ chance c q (!b) = 0 := by
  by_cases meets : c.Meets q
  · exact Or.inl fun b => chance_met c valid unit q b meets
  · refine Or.inr ⟨c.ones q % 2 == 1, ?_, ?_⟩
    · rw [chance_unmet c valid unit q _ meets, gf_nat, if_pos rfl]
    · rw [chance_unmet c valid unit q _ meets, gf_not, gf_nat, if_neg (by simp)]

theorem meets_of_half (half : chance c q true = 1 / 2) : c.Meets q := by
  by_contra apart
  rw [chance_unmet c valid unit q true apart] at half
  split at half <;> norm_num at half

theorem certain_measured (b : Bool) (certain : chance c q b = 1) (r : Fin c.layerSize → Bool) :
    (c.measure q (.tape r)).1.1 = b := by
  have apart : ¬c.Meets q := by
    intro meets
    rw [chance_met c valid unit q b meets] at certain
    norm_num at certain
  have fixed : (c.ones q : ZMod 2) = gf b := by
    by_contra other
    rw [chance_unmet c valid unit q b apart, if_neg other] at certain
    exact zero_ne_one certain
  rw [measure_tape]
  exact (gf_inj _ _).mp ((outcome_unmet c q apart r).trans fixed)

theorem possible_measured (s : Source) : chance c q (c.measure q s).1.1 ≠ 0 := by
  rw [measure_eq]
  by_cases meets : c.Meets q
  · rw [chance_met c valid unit q _ meets]
    norm_num
  · rw [chance_unmet c valid unit q _ meets, if_pos (outcome_unmet c q meets _).symm]
    exact one_ne_zero

end Outcomes

theorem measurement_born (c : Form ℝ) (reached : Reachable c)
    (unit : ∑ x : Fin c.n → Bool, Complex.normSq (c.amplitude (List.ofFn x)).toComplex = 1) (q : Fin c.n) :
    c.measure? q = some (c.measure q)
      ∧ (∀ s, c.measure q s = ((c.measure q (.tape (s.coins c.layerSize))).1, s.skip c.layerSize))
      ∧ (chance c q true = 1 / 2 →
          2 * (Finset.univ.filter fun r : Fin c.layerSize → Bool => (c.measure q (.tape r)).1.1 = true).card = 2 ^ c.layerSize)
      ∧ (∀ b, chance c q b = 1 → ∀ r : Fin c.layerSize → Bool, (c.measure q (.tape r)).1.1 = b)
      ∧ ((∀ b, chance c q b = 1 / 2) ∨ ∃ b, chance c q b = 1 ∧ chance c q (!b) = 0)
      ∧ ∀ s, chance c q (c.measure q s).1.1 ≠ 0
          ∧ ∃ again, (c.measure q s).1.2.measure? q = some again
              ∧ ∀ further, (again further).1.1 = (c.measure q s).1.1
                  ∧ ∀ bits, (again further).1.2.amplitude? bits = (c.measure q s).1.2.amplitude? bits := by
  have valid := reached.tableau
  have length : Complex.normSq c.omega.toComplex = 1 := (total_amplitudes valid).symm.trans unit
  refine ⟨if_pos (by simp [readable]), fun s => ?_, fun half => ?_, certain_measured c valid length q,
    chance_cases c valid length q, fun s => ⟨possible_measured c valid length q s, ?_⟩⟩
  · rw [measure_eq c q s, measure_tape]
  · exact half_measured c q (meets_of_half c valid length q half)
  · have width : (c.measure q s).1.2.n = c.n := by
      rw [measure_eq]
      exact (valid.project q _).width
    exact ⟨_, if_pos (by simp [readable, width]), fun further => measured_again valid length q s further⟩

theorem reachable_entangledPair : Reachable entangledPair :=
  .gate _ _ (.gate _ _ (.zero 2) rfl (by decide)) rfl (by decide)

theorem measurement_born_pair : Reachable entangledPair
    ∧ ∑ x : Fin entangledPair.n → Bool, Complex.normSq (entangledPair.amplitude (List.ofFn x)).toComplex = 1
    ∧ entangledPair.layerSize = 1
    ∧ 2 * (Finset.univ.filter fun r : Fin entangledPair.layerSize → Bool =>
        (entangledPair.measure 0 (.tape r)).1.1 = true).card = 2 ^ entangledPair.layerSize := by
  have valid := reachable_entangledPair.tableau
  have start : Tableau 2 (zero 2 : Form ℝ) := tableau_zero 2
  obtain ⟨z, eighth, turned⟩ := (turned_apply start (.h 0) rfl).trans (turned_apply (start.applyH 0) (.cx 0 1) rfl)
  have length : Complex.normSq entangledPair.omega.toComplex = 1 := by
    have whole : entangledPair.omega.toComplex = z := turned.trans (one_mul z)
    rw [whole, normSq_of_eighth z eighth]
  have unit := (total_amplitudes valid).trans length
  let first : Fin entangledPair.n := (0 : Fin 2)
  have even := chance_met entangledPair valid length first true (by decide +kernel)
  exact ⟨reachable_entangledPair, unit, by decide +kernel,
    (measurement_born entangledPair reachable_entangledPair unit first).2.2.1 even⟩

end QuantumRegister.Form
