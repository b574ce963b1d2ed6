import QuantumRegister.Measurement
import QuantumRegister.Proofs.Assignment

/-!
What becomes of an outcome before it is recorded. Confusions read and write inside the outcome and its
matrices, and leave digits. The invert mask keeps a digit below two levels, unless it has only one.
-/

set_option autoImplicit false

namespace QuantumRegister

open QuantumRegister.MixedRadix (digits size wordSize value_lt)
open QuantumRegister.Qudit (dims)

variable {R : Type} {m : Measurement R} {values ds : List ℕ}

theorem forall₂_set {α β : Type} {P : α → β → Prop} {xs : List α} {ys : List β} (held : List.Forall₂ P xs ys) (k : ℕ) (x : α)
    (fits : ∀ y, ys[k]? = some y → P x y) : List.Forall₂ P (xs.set k x) ys := by
  induction held generalizing k with
  | nil => exact .nil
  | cons first rest ih =>
      cases k with
      | zero => exact .cons (fits _ rfl) rest
      | succ k => exact .cons first (ih k fits)

theorem flipBits_length (mask : List Bool) (values : List ℕ) : (flipBits mask values).length = values.length := by
  induction mask generalizing values with
  | nil => rfl
  | cons flip mask ih =>
      cases values with
      | nil => rfl
      | cons v values => exact congrArg (· + 1) (ih values)

theorem flipBits_get (mask : List Bool) (values : List ℕ) (k : ℕ) :
    (flipBits mask values)[k]? = values[k]?.map fun v => if mask[k]? = some true ∧ v < 2 then 1 - v else v := by
  induction mask generalizing values k with
  | nil => simp [flipBits]
  | cons flip mask ih =>
      cases values with
      | nil => rfl
      | cons v values =>
          cases k with
          | zero => simp [flipBits]
          | succ k => simpa [flipBits] using ih values k

namespace Measurement

def Digits (m : Measurement R) (values : List ℕ) : Prop := List.Forall₂ (· < ·) values (dims m.qudits)

/-- One value for each qudit, and each is a digit; but the one level of a qudit on which the invert mask
is set is written as 1. -/
structure Recordable (m : Measurement R) (values : List ℕ) : Prop where
  length : values.length = m.qudits.length
  each : ∀ (k : ℕ) (q : Qudit) (v : ℕ), m.qudits[k]? = some q → values[k]? = some v →
    if q.dim = 1 ∧ m.invert[k]? = some true then v = 1 else v < q.dim

theorem Digits.recordable (fits : m.Digits values) : m.Recordable (flipBits m.invert values) where
  length := by rw [flipBits_length, fits.length_eq, Qudit.dims_length]
  each k q v listed recorded := by
    rw [flipBits_get, Option.map_eq_some_iff] at recorded
    obtain ⟨raw, read, flipped⟩ := recorded
    have below : raw < q.dim := by
      obtain ⟨inside, rfl⟩ := List.getElem?_eq_some_iff.mp read
      obtain ⟨here, rfl⟩ := List.getElem?_eq_some_iff.mp listed
      simpa [dims] using fits.get inside (by rwa [Qudit.dims_length])
    subst flipped
    by_cases set : m.invert[k]? = some true
    · simp only [set, and_true, true_and]
      split_ifs <;> omega
    · simpa only [set, and_false, false_and, if_false] using below

/-! Confusions. -/

theorem quditsAt_cons (m : Measurement R) (p : ℕ) (ps : List ℕ) :
    dims (m.quditsAt (p :: ps)) = (m.qudits.getD p default).dim :: dims (m.quditsAt ps) := rfl

theorem Digits.at (fits : m.Digits values) (p : ℕ) (inside : p < m.qudits.length) :
    values.getD p 0 < (m.qudits.getD p default).dim := by
  have here : p < values.length := by rwa [fits.length_eq, Qudit.dims_length]
  have below := fits.get here (by rwa [Qudit.dims_length])
  simpa [dims, here, inside] using below

-- What a confusion reads.
theorem Digits.read (fits : m.Digits values) (ps : List ℕ) (inside : ∀ p ∈ ps, p < m.qudits.length) :
    List.Forall₂ (· < ·) (ps.map fun p => values.getD p 0) (dims (m.quditsAt ps)) := by
  induction ps with
  | nil => exact .nil
  | cons p ps ih =>
      obtain ⟨first, rest⟩ := List.forall_mem_cons.mp inside
      exact .cons (fits.at p first) (ih rest)

theorem Digits.replaced (fits : m.Digits values) (ps : List ℕ) (below : List.Forall₂ (· < ·) ds (dims (m.quditsAt ps))) :
    m.Digits (replaceAt values (ps.zip ds)) := by
  induction ps generalizing ds values with
  | nil => exact fits
  | cons p ps ih =>
      rw [quditsAt_cons] at below
      cases below with
      | cons first rest =>
          refine ih (forall₂_set fits p _ fun d level => ?_) rest
          simp only [dims, List.getElem?_map, Option.map_eq_some_iff] at level
          obtain ⟨q, listed, rfl⟩ := level
          simpa [listed] using first

variable [Scalar R]

inductive Accepted : Measurement R → Prop
  | new (qudits : List Qudit) (key : String) : Accepted { qudits := qudits, key := key }
  | inverted (m : Measurement R) (mask : List Bool) (before : Accepted m) : Accepted (m.withInvert mask)
  | confused (m m' : Measurement R) (positions : List ℕ) (matrix : Grid R) (before : Accepted m)
      (accepted : m.withConfusion positions matrix = .ok m') : Accepted m'
  | peeking (m : Measurement R) (before : Accepted m) : Accepted m.peeking

/-- Each confusion covers qudits of the measurement, and has a row for each of their joint values, as far
as a machine word counts them. -/
def Covered (m : Measurement R) : Prop := ∀ c ∈ m.confusions, (∀ p ∈ c.positions, p < m.qudits.length)
  ∧ c.matrix.rows = Qudit.jointDim (m.quditsAt c.positions)

omit [Scalar R] in
theorem covered_mono {m m' : Measurement R} (covered : m.Covered) (qudits : m'.qudits = m.qudits)
    (confusions : m'.confusions = m.confusions) : m'.Covered := by
  simp only [Covered, confusions, quditsAt, qudits]
  exact covered

theorem withConfusion_done {m m' : Measurement R} {positions : List ℕ} {matrix : Grid R}
    (accepted : m.withConfusion positions matrix = .ok m') : m' = { m with confusions := m.confusions ++ [⟨positions, matrix⟩] }
      ∧ (∀ p ∈ positions, p < m.qudits.length) ∧ matrix.rows = Qudit.jointDim (m.quditsAt positions) := by
  rw [withConfusion] at accepted
  split at accepted
  · cases accepted
  · rename_i none
    dsimp only at accepted
    split at accepted
    · cases accepted
    · rename_i square
      split at accepted
      · cases accepted
        refine ⟨rfl, fun p listed => ?_, not_not.mp (not_or.mp square).1⟩
        simpa using List.find?_eq_none.mp none p listed
      · cases accepted

theorem withConfusion_accepts (m : Measurement R) (positions : List ℕ) (matrix : Grid R)
    (inside : ∀ p ∈ positions, p < m.qudits.length) (rows : matrix.rows = Qudit.jointDim (m.quditsAt positions))
    (cols : matrix.cols = Qudit.jointDim (m.quditsAt positions)) (stochastic : ∀ row ∈ matrix.toRows 0, isDistribution row = true) :
    m.withConfusion positions matrix = .ok { m with confusions := m.confusions ++ [⟨positions, matrix⟩] } := by
  have none : positions.find? (m.qudits.length ≤ ·) = none := List.find?_eq_none.mpr fun p listed => by simpa using inside p listed
  rw [withConfusion, none]
  dsimp only
  rw [if_neg (by simp [rows, cols]), if_pos (List.all_eq_true.mpr stochastic)]

theorem Accepted.covered (accepted : m.Accepted) : m.Covered := by
  induction accepted with
  | new qudits key => exact fun c member => by cases member
  | inverted m mask _ ih => exact covered_mono ih rfl rfl
  | peeking m _ ih => exact covered_mono ih rfl rfl
  | confused m m' positions matrix _ accepted ih =>
      obtain ⟨rfl, inside, rows⟩ := withConfusion_done accepted
      intro c member
      rcases List.mem_append.mp member with old | new
      · exact ih c old
      · obtain rfl := List.mem_singleton.mp new
        exact ⟨inside, rows⟩

def Countable (m : Measurement R) : Prop := ∀ c ∈ m.confusions, size (dims (m.quditsAt c.positions)) < wordSize

omit [Scalar R] in
theorem Digits.faultless (fits : m.Digits values) (covered : m.Covered) (countable : m.Countable) {c : Confusion R}
    (listed : c ∈ m.confusions) : m.fault? c values = none := by
  obtain ⟨inside, rows⟩ := covered c listed
  have fitsWord := countable c listed
  have below := value_lt _ _ (fits.read c.positions inside)
  have row : m.rowOf c values < c.matrix.rows := by
    rw [rows, Qudit.jointDim, Nat.mod_eq_of_lt fitsWord, rowOf, MixedRadix.wordValue, Nat.mod_eq_of_lt (below.trans fitsWord)]
    exact below
  have none : c.positions.find? (fun p => m.qudits.length ≤ p || values.length ≤ p) = none := by
    refine List.find?_eq_none.mpr fun p member => ?_
    have length := fits.length_eq
    rw [Qudit.dims_length] at length
    have := inside p member
    simp
    omega
  rw [fault?, none]
  exact if_neg (not_le.mpr row)

/-! The confused outcome. -/

theorem confuse_cases (m : Measurement R) (c : Confusion R) (values : List ℕ) (s : Random.Source) :
    (∃ fault, m.fault? c values = some fault ∧ (m.confuse c values s).1 = .error (.configuration fault))
      ∨ (m.confuse c values s).1 = .ok values
      ∨ ∃ n, (m.confuse c values s).1
          = .ok (replaceAt values (c.positions.zip (digits (dims (m.quditsAt c.positions)) n))) := by
  rw [confuse]
  cases m.fault? c values with
  | some fault => exact Or.inl ⟨fault, rfl, rfl⟩
  | none =>
      refine Or.inr ?_
      cases Random.Weighted.of (c.matrix.row (m.rowOf c values) 0) with
      | error e => exact Or.inl rfl
      | ok d => exact Or.inr ⟨(d.draw s).1, rfl⟩

theorem confuseAll_cons (m : Measurement R) (c : Confusion R) (cs : List (Confusion R)) (values : List ℕ) (s : Random.Source) :
    m.confuseAll (c :: cs) values s = match (m.confuse c values s).1 with
      | .error e => (.error e, (m.confuse c values s).2)
      | .ok next => m.confuseAll cs next (m.confuse c values s).2 := by
  have unfolded : m.confuseAll (c :: cs) values s = (match (m.confuse c values s).1 with
    | .error e => pure (.error e)
    | .ok next => m.confuseAll cs next : Random.Draw (Except (SimError R) (List ℕ))) (m.confuse c values s).2 := rfl
  rw [unfolded]
  cases (m.confuse c values s).1 <;> rfl

theorem correct_apply (m : Measurement R) (raw : List ℕ) (s : Random.Source) :
    m.correct raw s = ((m.confuseAll m.confusions raw s).1.map (flipBits m.invert), (m.confuseAll m.confusions raw s).2) := rfl

theorem correct_failed {m : Measurement R} {raw : List ℕ} {s : Random.Source} {e : SimError R}
    (failed : (m.correct raw s).1 = .error e) : ∃ fault, e = .configuration fault := by
  have confused (cs : List (Confusion R)) (values : List ℕ) (s : Random.Source)
      (failed : (m.confuseAll cs values s).1 = .error e) : ∃ fault, e = .configuration fault := by
    induction cs generalizing values s with
    | nil => cases failed
    | cons c cs ih =>
        rw [confuseAll_cons] at failed
        obtain ⟨fault, -, here⟩ | here | ⟨n, here⟩ := m.confuse_cases c values s
        · rw [here] at failed
          cases failed
          exact ⟨fault, rfl⟩
        · rw [here] at failed
          exact ih _ _ failed
        · rw [here] at failed
          exact ih _ _ failed
  rw [correct_apply] at failed
  cases outcome : (m.confuseAll m.confusions raw s).1 with
  | ok values =>
      rw [outcome] at failed
      cases failed
  | error e' =>
      rw [outcome] at failed
      cases failed
      exact confused _ _ _ outcome

variable (covered : m.Covered) (countable : m.Countable) (positive : ∀ q ∈ m.qudits, 0 < q.dim)

include covered countable positive

theorem Digits.confused (fits : m.Digits values) {c : Confusion R} (listed : c ∈ m.confusions) (s : Random.Source) :
    ∃ next, (m.confuse c values s).1 = .ok next ∧ m.Digits next := by
  obtain ⟨fault, found, -⟩ | same | ⟨n, replaced⟩ := m.confuse_cases c values s
  · rw [fits.faultless covered countable listed] at found
    cases found
  · exact ⟨values, same, fits⟩
  · refine ⟨_, replaced, fits.replaced c.positions (MixedRadix.digits_below _ n fun d level => ?_)⟩
    obtain ⟨q, atPosition, rfl⟩ := List.mem_map.mp level
    obtain ⟨p, inside, rfl⟩ := List.mem_map.mp atPosition
    have here := (covered c listed).1 p inside
    rw [List.getD_eq_getElem _ _ here]
    exact positive _ (List.getElem_mem here)

theorem Digits.corrected (fits : m.Digits values) (s : Random.Source) :
    ∃ recorded, (m.correct values s).1 = .ok recorded ∧ m.Recordable recorded := by
  have each (cs : List (Confusion R)) (listed : ∀ c ∈ cs, c ∈ m.confusions) (values : List ℕ) (fits : m.Digits values)
      (s : Random.Source) : ∃ last, (m.confuseAll cs values s).1 = .ok last ∧ m.Digits last := by
    induction cs generalizing values s with
    | nil => exact ⟨values, rfl, fits⟩
    | cons c cs ih =>
        obtain ⟨first, rest⟩ := List.forall_mem_cons.mp listed
        obtain ⟨next, confused, kept⟩ := fits.confused covered countable positive first s
        rw [confuseAll_cons, confused]
        exact ih rest next kept _
  obtain ⟨last, confused, kept⟩ := each m.confusions (fun _ member => member) values fits s
  refine ⟨flipBits m.invert last, ?_, kept.recordable⟩
  rw [correct_apply, confused]
  rfl

end Measurement

end QuantumRegister
