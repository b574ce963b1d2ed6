import Mathlib
import QuantumRegister.Dense.State
import QuantumRegister.Proofs.Channel
import QuantumRegister.Proofs.Extended
import QuantumRegister.Proofs.Frame

/-!
What the checks of channels, mixtures and given amplitudes admit, in arithmetic that can leave the numbers. On numbers each
admits what it is meant to. A bound that has to be exceeded for an error lets an undefined value pass.
-/

set_option autoImplicit false

namespace QuantumRegister

open QuantumRegister.Dense (sum_eq)
open QuantumRegister.Extended

/-! Complex numbers. -/

namespace Cplx

def Finite (z : Cplx Extended) : Prop := (∃ x, z.re = number x) ∧ ∃ y, z.im = number y

def Defined (z : Cplx Extended) : Prop := z.re ≠ undefined ∧ z.im ≠ undefined

def Lost (z : Cplx Extended) : Prop := z.re = undefined ∧ z.im = undefined

def extended (w : Cplx ℝ) : Cplx Extended := ⟨number w.re, number w.im⟩

noncomputable def value (z : Cplx Extended) : Cplx ℝ := ⟨z.re.value, z.im.value⟩

theorem Finite.extended {z : Cplx Extended} (finite : z.Finite) : z = z.value.extended := by
  obtain ⟨a, b⟩ := z
  obtain ⟨⟨x, rfl⟩, ⟨y, rfl⟩⟩ := finite
  rfl

theorem extended_add (z w : Cplx ℝ) : z.extended + w.extended = (z + w).extended := rfl

theorem extended_sub (z w : Cplx ℝ) : z.extended - w.extended = (z - w).extended :=
  congrArg₂ Cplx.mk (number_sub z.re w.re) (number_sub z.im w.im)

theorem extended_mul (z w : Cplx ℝ) : z.extended * w.extended = (z * w).extended :=
  congrArg₂ Cplx.mk (number_sub (z.re * w.re) (z.im * w.im)) (number_add (z.re * w.im) (z.im * w.re))

theorem Lost.add {z w : Cplx Extended} (lost : z.Lost ∨ w.Lost) : (z + w).Lost := by
  rcases lost with ⟨re, im⟩ | ⟨re, im⟩
  · exact ⟨(congrArg (· + w.re) re).trans (undefined_add _), (congrArg (· + w.im) im).trans (undefined_add _)⟩
  · exact ⟨(congrArg (z.re + ·) re).trans (add_undefined _), (congrArg (z.im + ·) im).trans (add_undefined _)⟩

theorem Lost.sub {z : Cplx Extended} (lost : z.Lost) (w : Cplx Extended) : (z - w).Lost :=
  ⟨(congrArg (· - w.re) lost.1).trans (undefined_sub _), (congrArg (· - w.im) lost.2).trans (undefined_sub _)⟩

-- Both parts of a product read all four parts of its factors.
theorem lost_mul {z w : Cplx Extended} (unknown : ¬z.Defined ∨ ¬w.Defined) : (z * w).Lost := by
  obtain ⟨a, b⟩ := z
  obtain ⟨c, d⟩ := w
  change a * c - b * d = undefined ∧ a * d + b * c = undefined
  simp only [Defined, ne_eq, not_and_or, not_not] at unknown
  rcases unknown with (rfl | rfl) | (rfl | rfl)
  · rw [undefined_mul, undefined_mul, undefined_sub, undefined_add]
    exact ⟨rfl, rfl⟩
  · rw [undefined_mul, undefined_mul, sub_undefined, add_undefined]
    exact ⟨rfl, rfl⟩
  · rw [mul_undefined, mul_undefined, undefined_sub, add_undefined]
    exact ⟨rfl, rfl⟩
  · rw [mul_undefined, mul_undefined, sub_undefined, undefined_add]
    exact ⟨rfl, rfl⟩

theorem Lost.unknown {z : Cplx Extended} (lost : z.Lost) : ¬z.Defined := fun known => known.1 lost.1

-- The imaginary part of the unit is a zero, and no product of that with an infinity is defined.
theorem unit_mul {z : Cplx Extended} (apart : ¬z.Finite) : ¬(1 * z : Cplx Extended).Defined := by
  obtain ⟨a, b⟩ := z
  change ¬(1 * a - 0 * b ≠ undefined ∧ 1 * b + 0 * a ≠ undefined)
  rcases a with x | s | _
  · rcases b with y | t | _
    · exact (apart ⟨⟨x, rfl⟩, ⟨y, rfl⟩⟩).elim
    · rw [zero_mul_infinite, sub_undefined]
      exact fun known => known.1 rfl
    · rw [mul_undefined, sub_undefined]
      exact fun known => known.1 rfl
  · rw [zero_mul_infinite, add_undefined]
    exact fun known => known.2 rfl
  · rw [mul_undefined, undefined_sub]
    exact fun known => known.1 rfl

theorem conj_finite {z : Cplx Extended} (finite : z.conj.Finite) : z.Finite := by
  obtain ⟨a, b⟩ := z
  obtain ⟨first, y, second⟩ := finite
  refine ⟨first, ?_⟩
  rcases b with v | s | _
  · exact ⟨v, rfl⟩
  · cases second
  · cases second

theorem normSq_unknown {z : Cplx Extended} (unknown : ¬z.Defined) : z.normSq = undefined := by
  obtain ⟨a, b⟩ := z
  change a * a + b * b = undefined
  simp only [Defined, ne_eq, not_and_or, not_not] at unknown
  rcases unknown with rfl | rfl
  · rw [undefined_mul, undefined_add]
  · rw [undefined_mul, add_undefined]

theorem normSq_unsigned {z : Cplx Extended} (known : z.Defined) : Unsigned z.normSq :=
  (Unsigned.square z.re known.1).add (Unsigned.square z.im known.2)

end Cplx

/-! Matrices. -/

namespace Operator

def Finite (m : Operator Extended) : Prop := ∀ i < m.rows, ∀ j < m.cols, (m.entry i j).Finite

structure Reads (m : Operator Extended) (r : Operator ℝ) : Prop where
  rows : m.rows = r.rows
  cols : m.cols = r.cols
  entries : ∀ i < m.rows, ∀ j < m.cols, m.entry i j = (r.entry i j).extended

theorem Reads.tabulate (rows cols : ℕ) (f : ℕ → ℕ → Cplx Extended) (g : ℕ → ℕ → Cplx ℝ)
    (same : ∀ i < rows, ∀ j < cols, f i j = (g i j).extended) : Reads (Grid.tabulate rows cols f) (Grid.tabulate rows cols g) := by
  refine ⟨rfl, rfl, fun i inRow j inColumn => ?_⟩
  rw [entry_tabulate rows cols f i j inRow inColumn, entry_tabulate rows cols g i j inRow inColumn]
  exact same i inRow j inColumn

theorem Reads.combined {a b : Operator Extended} {r s : Operator ℝ} (first : Reads a r) (second : Reads b s)
    (rows : b.rows = a.rows) (cols : b.cols = a.cols) (f : Cplx Extended → Cplx Extended → Cplx Extended)
    (g : Cplx ℝ → Cplx ℝ → Cplx ℝ) (same : ∀ z w, f z.extended w.extended = (g z w).extended) :
    Reads (Grid.tabulate a.rows a.cols fun i j => f (a.entry i j) (b.entry i j))
      (Grid.tabulate r.rows r.cols fun i j => g (r.entry i j) (s.entry i j)) := by
  rw [← first.rows, ← first.cols]
  refine Reads.tabulate _ _ _ _ fun i inRow j inColumn => ?_
  rw [first.entries i inRow j inColumn, second.entries i (inRow.trans_eq rows.symm) j (inColumn.trans_eq cols.symm), same]

theorem identity_reads (d : ℕ) : Reads (identity d) (identity d) :=
  Reads.tabulate d d _ _ fun i _ j _ => (apply_ite Cplx.extended (i = j) 1 0).symm

noncomputable def value (m : Operator Extended) : Operator ℝ := Grid.tabulate m.rows m.cols fun i j => (m.entry i j).value

theorem Finite.reads {m : Operator Extended} (finite : m.Finite) : Reads m m.value := by
  refine ⟨rfl, rfl, fun i inRow j inColumn => ?_⟩
  rw [value, entry_tabulate _ _ _ i j inRow inColumn]
  exact (finite i inRow j inColumn).extended

theorem accumulate_extended (terms : List (Cplx ℝ × Cplx ℝ)) :
    accumulate (terms.map fun t => (t.1.extended, t.2.extended)) = (accumulate terms).extended := by
  have unit (a x : Cplx ℝ) : 1 * a.extended * x.extended = (1 * a * x).extended :=
    (congrArg (· * x.extended) (Cplx.extended_mul 1 a)).trans (Cplx.extended_mul (1 * a) x)
  cases terms with
  | nil => rfl
  | cons t rest =>
      rw [List.map_cons, accumulate, accumulate, unit, List.foldl_map]
      refine List.foldl_hom Cplx.extended fun y t => ?_
      rw [unit, ← Cplx.extended_add, ← Cplx.extended_mul]
      rfl

-- One factor that is no number is enough: the term has no defined part, and neither has a sum with it.
theorem accumulate_lost (terms : List (Cplx Extended × Cplx Extended)) (t : Cplx Extended × Cplx Extended) (member : t ∈ terms)
    (apart : ¬t.1.Finite) : (accumulate terms).Lost := by
  have product (u : Cplx Extended × Cplx Extended) (apart : ¬u.1.Finite) : (1 * u.1 * u.2).Lost :=
    Cplx.lost_mul (.inl (Cplx.unit_mul apart))
  have later (rest : List (Cplx Extended × Cplx Extended)) (y : Cplx Extended) (lost : y.Lost ∨ t ∈ rest) :
      (rest.foldl (fun y t => 1 * t.1 * t.2 + 1 * y) y).Lost := by
    induction rest generalizing y with
    | nil => exact lost.resolve_right List.not_mem_nil
    | cons u rest ih =>
        rw [List.foldl_cons]
        rcases lost with lost | listed
        · exact ih _ (.inl (Cplx.Lost.add (.inr (Cplx.lost_mul (.inr lost.unknown)))))
        · rcases List.mem_cons.mp listed with rfl | listed
          · exact ih _ (.inl (Cplx.Lost.add (.inl (product t apart))))
          · exact ih _ (.inr listed)
  cases terms with
  | nil => cases member
  | cons u rest =>
      rcases List.mem_cons.mp member with rfl | listed
      · exact later rest _ (.inl (product t apart))
      · exact later rest _ (.inr listed)

theorem gram_reads {m : Operator Extended} {r : Operator ℝ} (reads : Reads m r) : Reads m.gram r.gram := by
  rw [gram, gram, ← reads.rows, ← reads.cols]
  refine Reads.tabulate _ _ _ _ fun i first j second => ?_
  rw [← accumulate_extended, List.map_map]
  refine congrArg accumulate (List.map_congr_left fun k listed => ?_)
  have inRow : k < m.rows := List.mem_range.mp listed
  rw [reads.entries k inRow i first, reads.entries k inRow j second]
  rfl

-- The diagonal of the product meets every column with itself.
theorem gram_lost {m : Operator Extended} {i j : ℕ} (inRow : i < m.rows) (inColumn : j < m.cols) (apart : ¬(m.entry i j).Finite) :
    (m.gram.entry j j).Lost := by
  rw [gram, entry_tabulate _ _ _ j j inColumn inColumn]
  refine accumulate_lost _ ((m.entry i j).conj, m.entry i j) ?_ fun finite => apart (Cplx.conj_finite finite)
  exact List.mem_map.mpr ⟨i, List.mem_range.mpr inRow, rfl⟩

theorem total_reads {ms : List (Operator Extended)} {rs : List (Operator ℝ)} (each : List.Forall₂ Reads ms rs)
    {total : Operator Extended} {sum : Operator ℝ} (start : Reads total sum)
    (fit : ∀ m ∈ ms, m.rows = total.rows ∧ m.cols = total.cols) : Reads (ms.foldl add total) (rs.foldl add sum) := by
  induction each generalizing total sum with
  | nil => exact start
  | cons reads _ ih =>
      obtain ⟨⟨rows, cols⟩, later⟩ := List.forall_mem_cons.mp fit
      exact ih (start.combined reads rows cols (· + ·) (· + ·) Cplx.extended_add) later

theorem total_lost (ms : List (Operator Extended)) (total : Operator Extended) (i j : ℕ) (inRow : i < total.rows)
    (inColumn : j < total.cols) (lost : (total.entry i j).Lost ∨ ∃ m ∈ ms, (m.entry i j).Lost) :
    ((ms.foldl add total).entry i j).Lost := by
  induction ms generalizing total with
  | nil => exact lost.resolve_right fun ⟨_, member, _⟩ => List.not_mem_nil member
  | cons m ms ih =>
      have next : (total.add m).entry i j = total.entry i j + m.entry i j := entry_tabulate _ _ _ i j inRow inColumn
      refine ih (total.add m) inRow inColumn ?_
      rw [next]
      rcases lost with lost | ⟨u, listed, lost⟩
      · exact .inl (Cplx.Lost.add (.inl lost))
      · rcases List.mem_cons.mp listed with rfl | listed
        · exact .inl (Cplx.Lost.add (.inr lost))
        · exact .inr ⟨u, listed, lost⟩

theorem norm_reads {m : Operator Extended} {r : Operator ℝ} (reads : Reads m r) : m.norm = number r.norm := by
  have column (j : ℕ) (inColumn : j < m.cols) : Scalar.laneSum ((List.range m.rows).map fun i => (m.entry i j).normSq)
      = number (Scalar.laneSum ((List.range r.rows).map fun i => (r.entry i j).normSq)) := by
    rw [Scalar.laneSum_eq_sum, Scalar.laneSum_eq_sum, sum_eq, ← sum_number, List.map_map, ← reads.rows]
    refine congrArg Scalar.sum (List.map_congr_left fun i listed => ?_)
    rw [reads.entries i (List.mem_range.mp listed) j inColumn]
    rfl
  have nonneg : ∀ x ∈ (List.range r.cols).map fun j => Scalar.laneSum ((List.range r.rows).map fun i => (r.entry i j).normSq),
      0 ≤ x := by
    intro x member
    obtain ⟨j, -, rfl⟩ := List.mem_map.mp member
    rw [Scalar.laneSum_eq_sum, sum_eq]
    refine List.sum_nonneg fun y listed => ?_
    obtain ⟨i, -, rfl⟩ := List.mem_map.mp listed
    exact add_nonneg (mul_self_nonneg _) (mul_self_nonneg _)
  rw [norm, norm, sum_eq, List.map_congr_left fun j listed => column j (List.mem_range.mp listed), reads.cols]
  refine Eq.trans (congrArg Scalar.sqrt ?_) (number_sqrt _ (List.sum_nonneg nonneg))
  rw [← sum_number, List.map_map]
  rfl

theorem norm_lost {m : Operator Extended} {i j : ℕ} (inRow : i < m.rows) (inColumn : j < m.cols) (lost : (m.entry i j).Lost) :
    m.norm = undefined := by
  have column : Scalar.laneSum ((List.range m.rows).map fun k => (m.entry k j).normSq) = undefined := by
    rw [Scalar.laneSum_eq_sum]
    exact sum_undefined _ (List.mem_map.mpr ⟨i, List.mem_range.mpr inRow, Cplx.normSq_unknown lost.unknown⟩)
  rw [norm, sum_undefined _ (List.mem_map.mpr ⟨j, List.mem_range.mpr inColumn, column⟩)]
  rfl

end Operator

/-! Channels. -/

namespace KrausChannel

open Operator

section Deviation

variable {d : ℕ} {ops : List (Operator Extended)} (square : ∀ m ∈ ops, m.rows = d ∧ m.cols = d)

include square

theorem deviation_reads {reals : List (Operator ℝ)} (each : List.Forall₂ Reads ops reals) :
    deviation d ops = number (deviation d reals) := by
  let empty : Operator Extended := Grid.tabulate d d fun _ _ => 0
  have grams : List.Forall₂ Reads (ops.map gram) (reals.map gram) :=
    List.forall₂_map_left_iff.mpr (List.forall₂_map_right_iff.mpr (each.imp fun _ _ => gram_reads))
  have fit : ∀ m ∈ ops.map gram, m.rows = d ∧ m.cols = d := by
    intro m member
    obtain ⟨u, listed, rfl⟩ := List.mem_map.mp member
    exact ⟨(square u listed).2, (square u listed).2⟩
  have total := total_reads grams (Reads.tabulate d d (fun _ _ => 0) (fun _ _ => 0) fun _ _ _ _ => rfl) fit
  have shape := total_shape (ops.map gram) empty
  exact norm_reads (total.combined (identity_reads d) shape.1.symm shape.2.symm (· - ·) (· - ·) Cplx.extended_sub)

theorem deviation_lost (apart : ∃ m ∈ ops, ¬m.Finite) : deviation d ops = undefined := by
  obtain ⟨m, listed, apart⟩ := apart
  simp only [Operator.Finite, not_forall] at apart
  obtain ⟨i, inRow, j, inColumn, apart⟩ := apart
  let empty : Operator Extended := Grid.tabulate d d fun _ _ => 0
  have shape := total_shape (ops.map gram) empty
  have inside : j < d := inColumn.trans_eq (square m listed).2
  have row : j < ((ops.map gram).foldl add empty).rows := inside.trans_eq shape.1.symm
  have column : j < ((ops.map gram).foldl add empty).cols := inside.trans_eq shape.2.symm
  refine norm_lost (m := ((ops.map gram).foldl add empty).sub (identity d)) row column ?_
  rw [entry_sub _ _ _ _ row column]
  refine Cplx.Lost.sub (total_lost _ empty j j inside inside (.inr ⟨m.gram, ?_, gram_lost inRow inColumn apart⟩)) _
  exact List.mem_map_of_mem listed

theorem deviation_finite (finite : ∀ m ∈ ops, m.Finite) : ∃ x, deviation d ops = number x := by
  have each : List.Forall₂ Reads ops (ops.map value) :=
    List.forall₂_map_right_iff.mpr (List.forall₂_same.mpr fun m listed => (finite m listed).reads)
  exact ⟨deviation d (ops.map value), deviation_reads square each⟩

theorem deviation_cases : ((∀ m ∈ ops, m.Finite) ∧ ∃ x, deviation d ops = number x)
    ∨ (∃ m ∈ ops, ¬m.Finite) ∧ deviation d ops = undefined := by
  by_cases finite : ∀ m ∈ ops, m.Finite
  · exact .inl ⟨finite, deviation_finite square finite⟩
  · have apart : ∃ m ∈ ops, ¬m.Finite := by simpa only [not_forall, exists_prop] using finite
    exact .inr ⟨apart, deviation_lost square apart⟩

end Deviation

section Admission

variable (name : String) (qs : List Qudit) (ops : List (Operator Extended))

theorem root_tolerance : Scalar.sqrt channelTolerance = number 1e-4 := by
  have square : (1e-8 : ℝ) = 1e-4 * 1e-4 := by norm_num
  have positive : (0 : ℝ) ≤ 1e-4 := by norm_num
  calc Scalar.sqrt (number 1e-8) = number (Real.sqrt 1e-8) := number_sqrt _ (by norm_num)
    _ = number 1e-4 := by rw [square, Real.sqrt_mul_self positive]

-- A deviation that is undefined exceeds nothing.
theorem admitted : (∃ c, KrausChannel.of name qs ops = .ok c) ↔
    ops ≠ [] ∧ (∀ m ∈ ops, m.rows = Qudit.jointDim qs ∧ m.cols = Qudit.jointDim qs)
      ∧ ((deviation (Qudit.jointDim qs) ops = undefined ∧ ∃ m ∈ ops, ¬m.Finite)
        ∨ ∃ x, deviation (Qudit.jointDim qs) ops = number x ∧ x ≤ 1e-4) := by
  simp only [of_ok, root_tolerance, exists_and_left, exists_eq', and_true, checkAll_ok, checkSquare_ok]
  refine and_congr_right fun _ => and_congr_right fun square => ?_
  rcases deviation_cases square with ⟨-, x, value⟩ | ⟨apart, lost⟩
  · rw [value, number_lt, not_lt]
    simp only [reduceCtorEq, false_and, false_or, number.injEq, exists_eq_left']
  · rw [lost]
    exact ⟨fun _ => .inl ⟨rfl, apart⟩, fun _ => lt_undefined _⟩

end Admission

/-! Damping. -/

section Damping

-- The operator of a jump has the root of the rate in its second column, and no other entry.
def Jump (rate : Extended) (a b : Cplx Extended) : Prop :=
  (a = Cplx.ofReal (Scalar.sqrt rate) ∧ b = 0) ∨ (a = 0 ∧ b = Cplx.ofReal (Scalar.sqrt rate))

theorem two_reads (a b c e : Cplx ℝ) :
    Reads (ofList 2 [a.extended, b.extended, c.extended, e.extended]) (ofList 2 [a, b, c, e]) := by
  refine ⟨rfl, rfl, fun i inRow j inColumn => ?_⟩
  have row : i < 2 := inRow
  have column : j < 2 := inColumn
  interval_cases i <;> interval_cases j <;> rfl

theorem damping_square (rate : Extended) (a b : Cplx Extended) :
    ∀ m ∈ [undisturbed rate, ofList 2 [0, a, 0, b]], m.rows = 2 ∧ m.cols = 2 :=
  List.forall_mem_cons.mpr ⟨⟨rfl, rfl⟩, List.forall_mem_singleton.mpr ⟨rfl, rfl⟩⟩

theorem jump_complete (x : ℝ) (unit : x ≤ 1) (a b : Cplx ℝ) (weight : a.normSq + b.normSq = x) :
    Complete 2 [undisturbed x, ofList 2 [0, a, 0, b]] := by
  have entries (p q r s : Cplx ℝ) : (ofList 2 [p, q, r, s]).entry 0 0 = p ∧ (ofList 2 [p, q, r, s]).entry 0 1 = q
      ∧ (ofList 2 [p, q, r, s]).entry 1 0 = r ∧ (ofList 2 [p, q, r, s]).entry 1 1 = s := ⟨rfl, rfl, rfl, rfl⟩
  have kept : ((Scalar.sqrt (1 - x) : ℝ) : ℂ) * ((Scalar.sqrt (1 - x) : ℝ) : ℂ) = 1 - x := by
    rw [← Complex.ofReal_mul, ← Complex.ofReal_one, ← Complex.ofReal_sub]
    exact congrArg Complex.ofReal (Real.mul_self_sqrt (sub_nonneg.mpr unit))
  have left : (starRingEnd ℂ) a.toComplex * a.toComplex + (starRingEnd ℂ) b.toComplex * b.toComplex = (x : ℂ) := by
    rw [← Complex.normSq_eq_conj_mul_self, ← Complex.normSq_eq_conj_mul_self, ← Cplx.toComplex_normSq, ← Cplx.toComplex_normSq,
      ← weight, Complex.ofReal_add]
  intro j first k second
  interval_cases j <;> interval_cases k <;>
    simp [undisturbed, Finset.sum_range_succ, entries, kept, left]

variable {rate : Extended} {a b : Cplx Extended} (jump : Jump rate a b)

include jump

theorem damping_finite (finite : ∀ m ∈ [undisturbed rate, ofList 2 [0, a, 0, b]], m.Finite) :
    ∃ x, rate = number x ∧ 0 ≤ x ∧ x ≤ 1 := by
  have kept : (Cplx.ofReal (Scalar.sqrt (1 - rate))).Finite :=
    finite _ List.mem_cons_self 1 Nat.one_lt_two 1 Nat.one_lt_two
  have second := finite _ (List.mem_cons_of_mem _ List.mem_cons_self)
  have left : (Cplx.ofReal (Scalar.sqrt rate)).Finite := by
    rcases jump with ⟨rfl, -⟩ | ⟨-, rfl⟩
    · exact second 0 Nat.two_pos 1 Nat.one_lt_two
    · exact second 1 Nat.one_lt_two 1 Nat.one_lt_two
  obtain ⟨y, root⟩ := left.1
  obtain ⟨x, rfl, nonneg⟩ := sqrt_number rate y root
  obtain ⟨z, root⟩ := kept.1
  rw [← number_one, number_sub] at root
  obtain ⟨_, same, rest⟩ := sqrt_number _ z root
  cases same
  exact ⟨x, rfl, nonneg, sub_nonneg.mp rest⟩

theorem damping_reads {x : ℝ} (value : rate = number x) (nonneg : 0 ≤ x) (unit : x ≤ 1) : ∃ u v : Cplx ℝ,
    u.normSq + v.normSq = x ∧ Reads (undisturbed rate) (undisturbed x) ∧ Reads (ofList 2 [0, a, 0, b]) (ofList 2 [0, u, 0, v]) := by
  subst value
  have weight : (Cplx.ofReal (Real.sqrt x)).normSq = x := by
    rw [Cplx.toComplex_normSq, Cplx.toComplex_ofReal, Complex.normSq_ofReal, Real.mul_self_sqrt nonneg]
  have none : (0 : Cplx ℝ).normSq = 0 := by rw [Cplx.toComplex_normSq, Cplx.toComplex_zero, map_zero]
  have root : Cplx.ofReal (Scalar.sqrt (number x)) = (Cplx.ofReal (Real.sqrt x)).extended :=
    congrArg Cplx.ofReal (number_sqrt x nonneg)
  have rest : Cplx.ofReal (Scalar.sqrt (1 - number x)) = (Cplx.ofReal (Real.sqrt (1 - x))).extended := by
    rw [← number_one, number_sub, number_sqrt _ (sub_nonneg.mpr unit)]
    rfl
  have kept : Reads (undisturbed (number x)) (undisturbed x) := by
    rw [undisturbed, rest]
    exact two_reads (Cplx.ofReal 1) 0 0 (Cplx.ofReal (Real.sqrt (1 - x)))
  rcases jump with ⟨rfl, rfl⟩ | ⟨rfl, rfl⟩
  · refine ⟨Cplx.ofReal (Real.sqrt x), 0, by rw [weight, none, add_zero], kept, ?_⟩
    rw [root]
    exact two_reads 0 (Cplx.ofReal (Real.sqrt x)) 0 0
  · refine ⟨0, Cplx.ofReal (Real.sqrt x), by rw [weight, none, zero_add], kept, ?_⟩
    rw [root]
    exact two_reads 0 0 0 (Cplx.ofReal (Real.sqrt x))

theorem damping_deviation {x : ℝ} (value : rate = number x) (nonneg : 0 ≤ x) (unit : x ≤ 1) :
    deviation 2 [undisturbed rate, ofList 2 [0, a, 0, b]] = number 0 := by
  obtain ⟨u, v, weight, kept, left⟩ := damping_reads jump value nonneg unit
  have complete : deviation 2 [undisturbed x, ofList 2 [0, u, 0, v]] = 0 :=
    deviation_complete 2 _ (List.forall_mem_cons.mpr ⟨⟨rfl, rfl⟩, List.forall_mem_singleton.mpr ⟨rfl, rfl⟩⟩)
      (jump_complete x unit u v weight)
  rw [deviation_reads (damping_square rate a b) (.cons kept (.cons left .nil)), complete]

-- Every rate is taken for one: those without roots leave no deviation that could be compared.
theorem damping_admitted (name : String) (q : Qudit) :
    ((∃ c, KrausChannel.of name [q] [undisturbed rate, ofList 2 [0, a, 0, b]] = .ok c) ↔ Qudit.jointDim [q] = 2)
      ∧ ((∃ c, KrausChannel.of name [q] [undisturbed rate, ofList 2 [0, a, 0, b]] = .ok c
          ∧ ∃ x, deviation (Qudit.jointDim [q]) c.ops = number x ∧ x ≤ 1e-4)
        ↔ Qudit.jointDim [q] = 2 ∧ ∃ x, rate = number x ∧ 0 ≤ x ∧ x ≤ 1) := by
  have square := damping_square rate a b
  have taken (joint : Qudit.jointDim [q] = 2) :
      ∃ c, KrausChannel.of name [q] [undisturbed rate, ofList 2 [0, a, 0, b]] = .ok c := by
    refine (admitted _ _ _).mpr ⟨List.cons_ne_nil _ _, by rwa [joint], ?_⟩
    rw [joint]
    rcases deviation_cases square with ⟨finite, -⟩ | ⟨apart, lost⟩
    · obtain ⟨x, value, nonneg, unit⟩ := damping_finite jump finite
      exact .inr ⟨0, damping_deviation jump value nonneg unit, by norm_num⟩
    · exact .inl ⟨lost, apart⟩
  have fitting (c : KrausChannel Extended) (made : KrausChannel.of name [q] [undisturbed rate, ofList 2 [0, a, 0, b]] = .ok c) :
      Qudit.jointDim [q] = 2 := ((admitted _ _ _).mp ⟨c, made⟩).2.1 _ List.mem_cons_self |>.1.symm
  refine ⟨⟨fun ⟨c, made⟩ => fitting c made, taken⟩, ?_, ?_⟩
  · rintro ⟨c, made, x, value, -⟩
    have joint := fitting c made
    obtain ⟨-, -, -, rfl⟩ := (of_ok _ _ _ _).mp made
    rw [joint] at value
    rcases deviation_cases square with ⟨finite, -⟩ | ⟨-, lost⟩
    · exact ⟨joint, damping_finite jump finite⟩
    · rw [lost] at value
      cases value
  · rintro ⟨joint, x, value, nonneg, unit⟩
    obtain ⟨c, made⟩ := taken joint
    obtain ⟨-, -, -, rfl⟩ := (of_ok _ _ _ _).mp made
    exact ⟨_, made, 0, by rw [joint, damping_deviation jump value nonneg unit], by norm_num⟩

end Damping

end KrausChannel

/-! Sums that should be one. -/

theorem Extended.near_one (t : ℝ) (x : Extended) :
    ¬number t < Scalar.magnitude (x - 1) ↔ x = undefined ∨ ∃ y, x = number y ∧ |y - 1| ≤ t := by
  rcases x with y | s | _
  · rw [← number_one, number_sub, number_magnitude, number_lt, not_lt]
    simp only [reduceCtorEq, false_or, number.injEq, exists_eq_left']
  · have endless : Scalar.magnitude (infinite s - 1) = infinite false := by
      cases s
      · exact if_neg Bool.false_ne_true
      · exact if_pos rfl
    rw [endless]
    constructor
    · exact fun near => absurd rfl near
    · rintro (lost | ⟨z, same, -⟩)
      · cases lost
      · cases same
  · have lost : Scalar.magnitude (undefined - 1) = undefined := if_neg (undefined_lt 0)
    rw [lost]
    exact ⟨fun _ => .inl rfl, fun _ => lt_undefined _⟩

namespace DenseState

variable (qs : List Qudit) (shape : List ℕ) (source : SourceRef) (log : LogRef)

theorem ofAmplitudes_ok {R : Type} [Scalar R] (a : Dense.Amplitudes R) (ψ : DenseState R) :
    ofAmplitudes qs shape a source log = .ok ψ ↔ qs.Nodup ∧ shape = Qudit.dims qs
      ∧ ¬normTolerance < Scalar.magnitude (a.normSq - 1) ∧ ofLive ⟨qs, Frame.placesFrom 0 qs [], source, log⟩ a = ψ := by
  rw [ofAmplitudes]
  by_cases once : qs.Nodup
  · rw [Frame.of_distinct qs source log once]
    by_cases fits : shape = Qudit.dims qs
    · by_cases apart : normTolerance < Scalar.magnitude (a.normSq - 1) <;> simp [Frame.dims, once, fits, apart]
    · simp [Frame.dims, fits]
  · cases built : (Frame.of qs source log : Except (SimError R) Frame) with
    | error e => simp [once]
    | ok f =>
        obtain ⟨exact, rfl, -, -⟩ := Frame.exact_of qs source log f built
        exact absurd exact.distinct once

theorem amplitudes_admitted (a : Dense.Amplitudes Extended) : (∃ ψ, ofAmplitudes qs shape a source log = .ok ψ) ↔
    qs.Nodup ∧ shape = Qudit.dims qs ∧ ((a.normSq = undefined ∧ ∃ z ∈ a, ¬z.Defined)
      ∨ ∃ x, a.normSq = number x ∧ |x - 1| ≤ 1e-8) := by
  have known (each : ∀ z ∈ a, z.Defined) : Unsigned a.normSq := by
    refine Unsigned.sum _ fun x listed => ?_
    obtain ⟨z, member, rfl⟩ := List.mem_map.mp listed
    exact Cplx.normSq_unsigned (each z (Array.mem_toList_iff.mp member))
  simp only [ofAmplitudes_ok, exists_and_left, exists_eq', and_true]
  refine and_congr_right fun _ => and_congr_right fun _ => (near_one 1e-8 a.normSq).trans (or_congr_left ?_)
  refine ⟨fun lost => ⟨lost, ?_⟩, And.left⟩
  by_contra! each
  obtain ⟨y, value⟩ | value := known each
  · rw [value] at lost
    cases lost
  · rw [value] at lost
    cases lost

end DenseState

namespace Mixture

theorem weight_ok (x : Extended) : (Scalar.isFinite x = true ∧ ¬x < 0) ↔ ∃ w, x = number w ∧ 0 ≤ w := by
  rcases x with y | s | _
  · have finite : Scalar.isFinite (number y) = true := decide_eq_true (by rw [number_sub, sub_self]; exact (number_le 0 0).mpr le_rfl)
    rw [finite, ← number_zero, number_lt, not_lt]
    exact ⟨fun nonneg => ⟨y, rfl, nonneg.2⟩, fun ⟨_, same, nonneg⟩ => by cases same; exact ⟨rfl, nonneg⟩⟩
  · have endless : Scalar.isFinite (infinite s) = false := decide_eq_false (by cases s <;> exact id)
    rw [endless]
    exact ⟨fun taken => absurd taken.1 Bool.false_ne_true, fun ⟨_, same, _⟩ => by cases same⟩
  · have lost : Scalar.isFinite undefined = false := decide_eq_false id
    rw [lost]
    exact ⟨fun taken => absurd taken.1 Bool.false_ne_true, fun ⟨_, same, _⟩ => by cases same⟩

theorem weights_ok (xs : List Extended) : (∀ x ∈ xs, Scalar.isFinite x = true ∧ ¬x < 0)
    ↔ ∃ ws : List ℝ, xs = ws.map number ∧ ∀ w ∈ ws, 0 ≤ w := by
  simp only [weight_ok]
  constructor
  · intro each
    choose! value same nonneg using each
    refine ⟨xs.map value, ?_, fun w listed => ?_⟩
    · rw [List.map_map]
      exact (List.map_id xs).symm.trans (List.map_congr_left same)
    · obtain ⟨x, member, rfl⟩ := List.mem_map.mp listed
      exact nonneg x member
  · rintro ⟨ws, rfl, nonneg⟩ x listed
    obtain ⟨w, member, rfl⟩ := List.mem_map.mp listed
    exact ⟨w, rfl, nonneg w member⟩

theorem admitted (name : String) (qs : List Qudit) (branches : List (Extended × Operator Extended)) :
    (∃ m, Mixture.of name qs branches = .ok m) ↔
      branches ≠ [] ∧ (∀ b ∈ branches, b.2.rows = Qudit.jointDim qs ∧ b.2.cols = Qudit.jointDim qs)
        ∧ ∃ ws : List ℝ, branches.map Prod.fst = ws.map number ∧ (∀ w ∈ ws, 0 ≤ w) ∧ |ws.sum - 1| ≤ 1e-8 := by
  have each : (∀ b ∈ branches, Scalar.isFinite b.1 = true ∧ ¬b.1 < 0)
      ↔ ∃ ws : List ℝ, branches.map Prod.fst = ws.map number ∧ ∀ w ∈ ws, 0 ≤ w := by
    rw [← weights_ok, List.forall_mem_map]
  have square : Operator.checkAll qs (branches.map Prod.snd) = .ok ()
      ↔ ∀ b ∈ branches, b.2.rows = Qudit.jointDim qs ∧ b.2.cols = Qudit.jointDim qs := by
    simp only [Operator.checkAll_ok, Operator.checkSquare_ok, List.forall_mem_map]
  have near (ws : List ℝ) : ¬channelTolerance < Scalar.magnitude (Scalar.sum (ws.map number) - 1) ↔ |ws.sum - 1| ≤ 1e-8 := by
    rw [sum_number, ← number_one, number_sub, number_magnitude]
    exact (number_lt 1e-8 _).not.trans not_lt
  simp only [of_ok, each, square, exists_and_left, exists_eq', and_true]
  refine and_congr_right fun _ => ?_
  constructor
  · rintro ⟨⟨ws, same, nonneg⟩, close, fits⟩
    rw [same] at close
    exact ⟨fits, ws, same, nonneg, (near ws).mp close⟩
  · rintro ⟨fits, ws, same, nonneg, close⟩
    rw [same]
    exact ⟨⟨ws, rfl, nonneg⟩, (near ws).mpr close, fits⟩

end Mixture

/-! What is admitted. -/

theorem admission_exact (name : String) (qs : List Qudit) :
    (∀ ops : List (Operator Extended), (∃ c, KrausChannel.of name qs ops = .ok c) ↔
      ops ≠ [] ∧ (∀ m ∈ ops, m.rows = Qudit.jointDim qs ∧ m.cols = Qudit.jointDim qs)
        ∧ ((KrausChannel.deviation (Qudit.jointDim qs) ops = undefined ∧ ∃ m ∈ ops, ¬m.Finite)
          ∨ ∃ x, KrausChannel.deviation (Qudit.jointDim qs) ops = number x ∧ x ≤ 1e-4))
    ∧ (∀ damp ∈ [KrausChannel.amplitudeDamp, KrausChannel.phaseDamp], ∀ (q : Qudit) (rate : Extended),
      ((∃ c, damp q rate = .ok c) ↔ Qudit.jointDim [q] = 2)
        ∧ ((∃ c, damp q rate = .ok c ∧ ∃ x, KrausChannel.deviation (Qudit.jointDim [q]) c.ops = number x ∧ x ≤ 1e-4)
          ↔ Qudit.jointDim [q] = 2 ∧ ∃ x, rate = number x ∧ 0 ≤ x ∧ x ≤ 1))
    ∧ (∀ (shape : List ℕ) (a : Dense.Amplitudes Extended) (source : SourceRef) (log : LogRef),
      (∃ ψ, DenseState.ofAmplitudes qs shape a source log = .ok ψ) ↔ qs.Nodup ∧ shape = Qudit.dims qs
        ∧ ((a.normSq = undefined ∧ ∃ z ∈ a, ¬z.Defined) ∨ ∃ x, a.normSq = number x ∧ |x - 1| ≤ 1e-8))
    ∧ ∀ branches : List (Extended × Operator Extended), (∃ m, Mixture.of name qs branches = .ok m) ↔
      branches ≠ [] ∧ (∀ b ∈ branches, b.2.rows = Qudit.jointDim qs ∧ b.2.cols = Qudit.jointDim qs)
        ∧ ∃ ws : List ℝ, branches.map Prod.fst = ws.map number ∧ (∀ w ∈ ws, 0 ≤ w) ∧ |ws.sum - 1| ≤ 1e-8 := by
  refine ⟨KrausChannel.admitted name qs, ?_, fun shape a source log => DenseState.amplitudes_admitted qs shape source log a,
    Mixture.admitted name qs⟩
  intro damp listed q rate
  simp only [List.mem_cons, List.not_mem_nil, or_false] at listed
  rcases listed with rfl | rfl
  · exact KrausChannel.damping_admitted (.inl ⟨rfl, rfl⟩) _ q
  · exact KrausChannel.damping_admitted (.inr ⟨rfl, rfl⟩) _ q

theorem admission_exact_quarter :
    (∃ c, KrausChannel.amplitudeDamp (Qudit.qubit 0) (number 4⁻¹) = .ok c
      ∧ ∃ x, KrausChannel.deviation (Qudit.jointDim [Qudit.qubit 0]) c.ops = number x ∧ x ≤ 1e-4)
    ∧ (∃ c, KrausChannel.phaseDamp (Qudit.qubit 0) undefined = .ok c)
    ∧ ¬∃ m, Mixture.of "halves" [Qudit.qubit 0]
      [(number 2⁻¹, Operator.identity 2), (undefined, (Operator.identity 2 : Operator Extended))] = .ok m := by
  obtain ⟨-, damps, -, mixtures⟩ := admission_exact "halves" [Qudit.qubit 0]
  have joint : Qudit.jointDim [Qudit.qubit 0] = 2 := by decide
  refine ⟨?_, ?_, fun made => ?_⟩
  · exact (damps _ List.mem_cons_self (Qudit.qubit 0) _).2.mpr ⟨joint, 4⁻¹, rfl, by norm_num, by norm_num⟩
  · exact (damps _ (List.mem_cons_of_mem _ List.mem_cons_self) (Qudit.qubit 0) _).1.mpr joint
  · obtain ⟨-, -, ws, same, -⟩ := (mixtures _).mp made
    have listed : undefined ∈ ws.map number := same ▸ List.mem_cons_of_mem _ List.mem_cons_self
    obtain ⟨w, -, equal⟩ := List.mem_map.mp listed
    cases equal

theorem undefined_admitted :
    (∃ c, KrausChannel.amplitudeDamp (Qudit.qubit 0) (number 2) = .ok c
      ∧ KrausChannel.deviation (Qudit.jointDim [Qudit.qubit 0]) c.ops = undefined)
    ∧ ∃ ψ, DenseState.ofAmplitudes [Qudit.qubit 0] [2] #[⟨undefined, 0⟩, 0] ⟨0⟩ ⟨0⟩ = .ok ψ ∧ ψ.normSq = undefined := by
  have norm : Dense.Amplitudes.normSq #[(⟨undefined, 0⟩ : Cplx Extended), 0] = undefined :=
    sum_undefined _ (List.mem_map.mpr ⟨⟨undefined, 0⟩, List.mem_cons_self, Cplx.normSq_unknown fun known => known.1 rfl⟩)
  constructor
  · have jump : KrausChannel.Jump (number 2) (Cplx.ofReal (Scalar.sqrt (number 2))) 0 := .inl ⟨rfl, rfl⟩
    obtain ⟨taken, rates⟩ := KrausChannel.damping_admitted jump
      (Mixture.nameOf "AmplitudeDamp" (number 2) (Qudit.qubit 0)) (Qudit.qubit 0)
    obtain ⟨c, made⟩ := taken.mpr (by decide)
    refine ⟨c, made, ?_⟩
    obtain ⟨-, -, -, rfl⟩ := (KrausChannel.of_ok _ _ _ _).mp made
    rcases ((KrausChannel.admitted _ _ _).mp ⟨_, made⟩).2.2 with ⟨lost, -⟩ | near
    · exact lost
    · obtain ⟨-, x, same, -, unit⟩ := rates.mp ⟨_, made, near⟩
      cases same
      exact absurd unit (by norm_num)
  · refine ⟨_, (DenseState.ofAmplitudes_ok _ _ _ _ _ _).mpr ⟨List.nodup_singleton _, rfl, ?_, rfl⟩, norm⟩
    rw [norm]
    exact (near_one 1e-8 undefined).mpr (.inl rfl)

end QuantumRegister
