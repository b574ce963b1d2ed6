import QuantumRegister.Dense.Buffers
import QuantumRegister.Proofs.MixedRadix

/-!
The positions that an odometer visits, and what a matrix leaves at each of them.
-/

set_option autoImplicit false

namespace QuantumRegister.Dense

open QuantumRegister.MixedRadix

variable {β : Type}

/-! The odometer. -/

theorem sweep_last (visit : β → ℕ → β) (acc : β) (ws : List Wheel) (base : ℕ) (through : advance ws base = none) :
    sweep visit acc ws base = visit acc base := by
  rw [sweep]
  split
  · rfl
  · rename_i next stepped
    rw [through] at stepped
    cases stepped

theorem sweep_next (visit : β → ℕ → β) (acc : β) (ws : List Wheel) (base : ℕ) (next : List Wheel × ℕ)
    (stepped : advance ws base = some next) : sweep visit acc ws base = sweep visit (visit acc base) next.1 next.2 := by
  rw [sweep]
  split
  · rename_i through
    rw [through] at stepped
    cases stepped
  · rename_i other found
    rw [found] at stepped
    cases stepped
    rfl

theorem sweep_keeps (P : β → Prop) (visit : β → ℕ → β) (keeps : ∀ acc base, P acc → P (visit acc base)) (acc : β)
    (ws : List Wheel) (base : ℕ) (held : P acc) : P (sweep visit acc ws base) := by
  induction acc, ws, base using sweep.induct visit with
  | case1 acc ws base last =>
      rw [sweep_last visit acc ws base last]
      exact keeps acc base held
  | case2 acc ws base next stepped ih =>
      rw [sweep_next visit acc ws base next stepped]
      exact ih (keeps acc base held)

def turn (w : Wheel) (base start : ℕ) : List ℕ := (List.range' start (w.dim - start)).map fun v => base + v * w.stride

theorem turn_step (w : Wheel) (base start : ℕ) (more : start < w.dim) :
    turn w base start = (base + start * w.stride) :: turn w base (start + 1) := by
  have left : w.dim - start = (w.dim - (start + 1)) + 1 := by omega
  rw [turn, left, List.range'_succ, List.map_cons]
  rfl

theorem turn_last (w : Wheel) (base start : ℕ) (last : start + 1 = w.dim) : turn w base (start + 1) = [] := by
  rw [turn, last, Nat.sub_self]
  rfl

theorem sweep_turn (visit : β → ℕ → β) (acc : β) (w : Wheel) (ws : List Wheel) (base start : ℕ) (inside : start < w.dim) :
    sweep visit acc ({ w with digit := start } :: ws) (base + start * w.stride) = match advance ws base with
      | none => (turn w base start).foldl visit acc
      | some next => sweep visit ((turn w base start).foldl visit acc) ({ w with digit := 0 } :: next.1) next.2 := by
  induction left : w.dim - (start + 1) generalizing start acc with
  | zero =>
      have last : start + 1 = w.dim := by omega
      have back : base + start * w.stride + w.stride - w.dim * w.stride = base := by
        have whole : w.dim * w.stride = start * w.stride + w.stride := by rw [← last, Nat.succ_mul]
        omega
      have carry : advance ({ w with digit := start } :: ws) (base + start * w.stride)
          = match advance ws base with
            | none => none
            | some next => some ({ w with digit := 0 } :: next.1, next.2) := by
        rw [advance, if_neg (by dsimp only; omega), back]
        cases advance ws base <;> rfl
      rw [turn_step w base start inside, turn_last w base start last, List.foldl_cons, List.foldl_nil]
      cases stepped : advance ws base with
      | none =>
          rw [stepped] at carry
          exact sweep_last visit acc _ _ carry
      | some next =>
          rw [stepped] at carry
          exact sweep_next visit acc _ _ _ carry
  | succ left ih =>
      have more : start + 1 < w.dim := by omega
      have step : advance ({ w with digit := start } :: ws) (base + start * w.stride)
          = some ({ w with digit := start + 1 } :: ws, base + (start + 1) * w.stride) := by
        rw [advance, if_pos more, Nat.add_mul, Nat.one_mul, Nat.add_assoc]
      rw [sweep_next visit acc _ _ _ step, ih (visit acc (base + start * w.stride)) (start + 1) more (by omega),
        turn_step w base start inside, List.foldl_cons]

theorem sweep_wheel (visit : β → ℕ → β) (acc : β) (w : Wheel) (ws : List Wheel) (base : ℕ) (zero : w.digit = 0)
    (positive : 0 < w.dim) :
    sweep visit acc (w :: ws) base = sweep (fun acc base => (turn w base 0).foldl visit acc) acc ws base := by
  induction left : remaining ws using Nat.strong_induction_on generalizing acc ws base with
  | _ n ih =>
      subst left
      have start : w = { w with digit := 0 } := by rw [← zero]
      have round := sweep_turn visit acc w ws base 0 positive
      rw [Nat.zero_mul, Nat.add_zero, ← start] at round
      rw [round]
      cases stepped : advance ws base with
      | none => exact (sweep_last (fun acc base => (turn w base 0).foldl visit acc) acc ws base stepped).symm
      | some next =>
          rw [sweep_next (fun acc base => (turn w base 0).foldl visit acc) acc ws base next stepped]
          have fewer : remaining next.1 < remaining ws := remaining_advance stepped
          exact ih (remaining next.1) fewer _ next.1 next.2 rfl

-- All positions of an odometer that starts at zero, the first wheel fastest.
def visited : List Wheel → ℕ → List ℕ
  | [], base => [base]
  | w :: ws, base => (visited ws base).flatMap fun b => turn w b 0

theorem sweep_visited (visit : β → ℕ → β) (acc : β) (ws : List Wheel) (base : ℕ) (zero : ∀ w ∈ ws, w.digit = 0)
    (positive : ∀ w ∈ ws, 0 < w.dim) : sweep visit acc ws base = (visited ws base).foldl visit acc := by
  induction ws generalizing visit with
  | nil => exact sweep_last visit acc [] base rfl
  | cons w ws ih =>
      rw [sweep_wheel visit acc w ws base (zero w List.mem_cons_self) (positive w List.mem_cons_self), visited,
        List.foldl_flatMap]
      exact ih _ (fun v member => zero v (List.mem_cons_of_mem w member)) fun v member =>
        positive v (List.mem_cons_of_mem w member)

theorem mem_turn (w : Wheel) (base i : ℕ) : i ∈ turn w base 0 ↔ ∃ v, v < w.dim ∧ i = base + v * w.stride := by
  simp only [turn, Nat.sub_zero, List.mem_map, List.mem_range'_1]
  constructor
  · rintro ⟨v, bound, rfl⟩
    exact ⟨v, by omega, rfl⟩
  · rintro ⟨v, bound, rfl⟩
    exact ⟨v, by omega, rfl⟩

theorem mem_visited (ws : List Wheel) (base i : ℕ) :
    i ∈ visited ws base ↔ ∃ digits : List ℕ, List.Forall₂ (fun v w => v < w.dim) digits ws
      ∧ i = base + ((digits.zip ws).map fun p => p.1 * p.2.stride).sum := by
  induction ws generalizing i with
  | nil => simp [visited]
  | cons w ws ih =>
      simp only [visited, List.mem_flatMap, mem_turn]
      constructor
      · rintro ⟨b, before, v, bound, rfl⟩
        obtain ⟨digits, below, rfl⟩ := (ih b).mp before
        refine ⟨v :: digits, .cons bound below, ?_⟩
        rw [List.zip_cons_cons, List.map_cons, List.sum_cons]
        ring
      · rintro ⟨digits, below, rfl⟩
        cases below with
        | cons bound below =>
            rename_i v digits
            refine ⟨_, (ih _).mpr ⟨digits, below, rfl⟩, v, bound, ?_⟩
            rw [List.zip_cons_cons, List.map_cons, List.sum_cons]
            ring

/-! Writes. -/

variable {K : Type}

theorem written_size (writes : List (ℕ × K)) (a : Array K) :
    (writes.foldl (fun a w => a.setIfInBounds w.1 w.2) a).size = a.size := by
  induction writes generalizing a with
  | nil => rfl
  | cons w writes ih => rw [List.foldl_cons, ih, Array.size_setIfInBounds]

theorem written_other (writes : List (ℕ × K)) (a : Array K) (i : ℕ) (d : K) (absent : ∀ w ∈ writes, w.1 ≠ i) :
    (writes.foldl (fun a w => a.setIfInBounds w.1 w.2) a).getD i d = a.getD i d := by
  induction writes generalizing a with
  | nil => rfl
  | cons w writes ih =>
      rw [List.foldl_cons, ih _ fun v member => absent v (List.mem_cons_of_mem w member)]
      simp [Array.getD_eq_getD_getElem?, absent w List.mem_cons_self]

theorem written_once (writes : List (ℕ × K)) (a : Array K) (i : ℕ) (d v : K) (inside : i < a.size) (some : (i, v) ∈ writes)
    (agree : ∀ w ∈ writes, w.1 = i → w.2 = v) :
    (writes.foldl (fun a w => a.setIfInBounds w.1 w.2) a).getD i d = v := by
  induction writes generalizing a with
  | nil => cases some
  | cons w writes ih =>
      rw [List.foldl_cons]
      by_cases later : ∃ x ∈ writes, x.1 = i
      · obtain ⟨x, member, here⟩ := later
        have value := agree x (List.mem_cons_of_mem w member) here
        have again : (i, v) ∈ writes := by rwa [← here, ← value]
        exact ih _ (by rwa [Array.size_setIfInBounds]) again fun y member => agree y (List.mem_cons_of_mem w member)
      · rw [written_other writes _ i d fun x member same => later ⟨x, member, same⟩]
        rcases List.mem_cons.mp some with rfl | member
        · simp [Array.getD_eq_getD_getElem?, inside]
        · exact (later ⟨_, member, rfl⟩).elim

/-! Digits at some axes. -/

def strided (dims axes : List ℕ) (e : ℕ → ℕ) : ℕ := (axes.map fun k => e k * stride dims k).sum

theorem strided_congr (dims axes : List ℕ) (e f : ℕ → ℕ) (same : ∀ k ∈ axes, e k = f k) :
    strided dims axes e = strided dims axes f := by
  rw [strided, strided, List.map_congr_left fun k member => by rw [same k member]]

theorem strided_perm (dims axes more : List ℕ) (e : ℕ → ℕ) (perm : axes.Perm more) :
    strided dims axes e = strided dims more e :=
  (perm.map _).sum_eq

theorem strided_append (dims axes more : List ℕ) (e : ℕ → ℕ) :
    strided dims (axes ++ more) e = strided dims axes e + strided dims more e := by
  rw [strided, List.map_append, List.sum_append]
  rfl

theorem place_eq_strided (dims : List ℕ) (e : ℕ → ℕ) : place dims e = strided dims (List.range dims.length) e := by
  rw [place_eq_sum]
  rfl

theorem offset_map (dims axes : List ℕ) (e : ℕ → ℕ) : offset (strides dims) axes (axes.map e) = strided dims axes e := by
  rw [offset, strided, List.sum, List.zip_map_left, List.map_map]
  have pairs : axes.zip axes = axes.map fun k => (k, k) := by simp [List.zip_eq_zipWith, List.zipWith_self]
  rw [pairs, List.map_map]
  rfl

def untouched (dims axes : List ℕ) : List ℕ := (List.range dims.length).filter fun a => !axes.contains a

theorem mem_untouched (dims axes : List ℕ) (k : ℕ) : k ∈ untouched dims axes ↔ k < dims.length ∧ k ∉ axes := by
  simp [untouched]

theorem untouched_perm (dims axes : List ℕ) (once : axes.Nodup) (inside : ∀ k ∈ axes, k < dims.length) :
    (untouched dims axes ++ axes).Perm (List.range dims.length) := by
  have apart : (untouched dims axes ++ axes).Nodup := by
    refine List.nodup_append.mpr ⟨List.nodup_range.filter _, once, fun k rest j target same => ?_⟩
    exact ((mem_untouched dims axes k).mp rest).2 (same ▸ target)
  refine (List.perm_ext_iff_of_nodup apart List.nodup_range).mpr fun k => ?_
  rw [List.mem_append, mem_untouched, List.mem_range]
  by_cases target : k ∈ axes
  · simp [target, inside k target]
  · simp [target]

theorem place_split (dims axes : List ℕ) (e : ℕ → ℕ) (once : axes.Nodup) (inside : ∀ k ∈ axes, k < dims.length) :
    place dims e = strided dims (untouched dims axes) e + strided dims axes e := by
  rw [place_eq_strided, ← strided_append]
  exact (strided_perm dims _ _ e (untouched_perm dims axes once inside)).symm

/-! The product with a matrix, place by place. -/

namespace Layout

def radices (dims axes : List ℕ) : List ℕ := axes.map fun a => dims.getD a 1

theorem wheels_of (dims axes : List ℕ) :
    (Layout.of dims axes).wheels = (untouched dims axes).reverse.map fun a => ⟨0, dims.getD a 1, stride dims a⟩ := by
  rw [wheels, Layout.of, List.map_map, ← List.map_reverse]
  rfl

theorem mem_bases (dims axes : List ℕ) (i : ℕ) :
    i ∈ visited (Layout.of dims axes).wheels 0
      ↔ ∃ e, (∀ k ∈ untouched dims axes, e k < dims.getD k 1) ∧ i = strided dims (untouched dims axes) e := by
  have order := (untouched dims axes).reverse_perm
  have once : (untouched dims axes).reverse.Nodup := List.nodup_reverse.mpr (List.nodup_range.filter _)
  have weights (e : ℕ → ℕ) (axes : List ℕ) :
      (((axes.map e).zip (axes.map fun a => (⟨0, dims.getD a 1, stride dims a⟩ : Wheel))).map fun p => p.1 * p.2.stride).sum
        = strided dims axes e := by
    rw [List.zip_map', List.map_map]
    rfl
  rw [wheels_of, mem_visited]
  constructor
  · rintro ⟨digits, below, rfl⟩
    have length : digits.length = (untouched dims axes).reverse.length := by rw [below.length_eq, List.length_map]
    refine ⟨overwrite (fun _ => 0) (untouched dims axes).reverse digits, fun k member => ?_, ?_⟩
    · rw [← map_overwrite (fun _ => 0) _ digits once length, List.forall₂_map_right_iff, List.forall₂_map_left_iff,
        List.forall₂_same] at below
      exact below k (order.mem_iff.mpr member)
    · rw [Nat.zero_add, ← strided_perm dims _ _ _ order, ← weights, map_overwrite _ _ _ once length]
  · rintro ⟨e, below, rfl⟩
    refine ⟨(untouched dims axes).reverse.map e, ?_, ?_⟩
    · rw [List.forall₂_map_right_iff, List.forall₂_map_left_iff, List.forall₂_same]
      exact fun k member => below k (order.mem_iff.mp member)
    · rw [Nat.zero_add, weights, strided_perm dims _ _ _ order]

theorem turning (dims axes : List ℕ) (positive : ∀ d ∈ dims, 0 < d) :
    ∀ w ∈ (Layout.of dims axes).wheels, w.digit = 0 ∧ 0 < w.dim := by
  simp only [wheels_of, List.mem_map]
  rintro w ⟨k, member, rfl⟩
  have inside := ((mem_untouched dims axes k).mp (List.mem_reverse.mp member)).1
  refine ⟨rfl, ?_⟩
  rw [List.getD_eq_getElem _ _ inside]
  exact positive _ (List.getElem_mem inside)

theorem forEachBase_eq (dims axes : List ℕ) (visit : β → ℕ → β) (acc : β) (positive : ∀ d ∈ dims, 0 < d) :
    (Layout.of dims axes).forEachBase visit acc = (visited (Layout.of dims axes).wheels 0).foldl visit acc := by
  have turning := turning dims axes positive
  have full : (Layout.of dims axes).rest.any (·.1 == 0) = false := by
    refine List.any_eq_false.mpr fun p member => ?_
    have wheel : ⟨0, p.1, p.2⟩ ∈ (Layout.of dims axes).wheels := List.mem_reverse.mpr (List.mem_map_of_mem member)
    have some : 0 < p.1 := (turning _ wheel).2
    simpa using Nat.ne_of_gt some
  rw [forEachBase, full, if_neg Bool.false_ne_true]
  exact sweep_visited visit acc _ 0 (fun w member => (turning w member).1) fun w member => (turning w member).2

/-! Target digits, replaced. -/

theorem targets_overwrite (dims axes : List ℕ) (e : ℕ → ℕ) (j : ℕ) (once : axes.Nodup) :
    axes.map (overwrite e axes (digits (radices dims axes) j)) = digits (radices dims axes) j :=
  map_overwrite e axes _ once (by rw [digits_length, radices, List.length_map])

theorem rest_overwrite (dims axes : List ℕ) (e : ℕ → ℕ) (digits : List ℕ) :
    strided dims (untouched dims axes) (overwrite e axes digits) = strided dims (untouched dims axes) e :=
  strided_congr dims _ _ e fun k member => overwrite_other e axes _ k ((mem_untouched dims axes k).mp member).2

theorem base_offset (dims axes : List ℕ) (e : ℕ → ℕ) (j : ℕ) (once : axes.Nodup) (inside : ∀ k ∈ axes, k < dims.length) :
    strided dims (untouched dims axes) e + offset (strides dims) axes (digits (radices dims axes) j)
      = place dims (overwrite e axes (digits (radices dims axes) j)) := by
  rw [place_split dims axes _ once inside, ← offset_map dims axes, targets_overwrite dims axes e j once, rest_overwrite]

theorem target_bounds (dims axes : List ℕ) (e : ℕ → ℕ) (inside : ∀ k ∈ axes, k < dims.length) (below : Below dims e) :
    List.Forall₂ (· < ·) (axes.map e) (radices dims axes) := by
  rw [radices, List.forall₂_map_left_iff, List.forall₂_map_right_iff, List.forall₂_same]
  exact fun k member => below k (inside k member)

variable [Zero K] [Add K] [Mul K]

def writes (l : Layout) (m : Grid K) (src : Array K) (base : ℕ) : List (ℕ × K) :=
  l.offsets.zipIdx.map fun p => (base + p.1, l.product m src base p.2)

theorem contract_writes (dims axes : List ℕ) (m : Grid K) (src dst : Array K) (positive : ∀ d ∈ dims, 0 < d) :
    (Layout.of dims axes).contract m src dst
      = ((visited (Layout.of dims axes).wheels 0).flatMap ((Layout.of dims axes).writes m src)).foldl
          (fun a w => a.setIfInBounds w.1 w.2) dst := by
  have blocks (dst : Array K) (base : ℕ) : (Layout.of dims axes).contractBlock m src dst base
      = ((Layout.of dims axes).writes m src base).foldl (fun a w => a.setIfInBounds w.1 w.2) dst := by
    rw [contractBlock, writes, List.foldl_map]
  rw [contract, forEachBase_eq _ _ _ _ positive, List.foldl_flatMap]
  simp only [blocks]

theorem contract_size (l : Layout) (m : Grid K) (src dst : Array K) : (l.contract m src dst).size = dst.size := by
  rw [contract, forEachBase]
  split
  · rfl
  · refine sweep_keeps (fun a => a.size = dst.size) _ (fun a base same => ?_) dst _ 0 rfl
    have written := written_size (l.writes m src base) a
    rw [writes, List.foldl_map] at written
    exact written.trans same

theorem offsets_of (dims axes : List ℕ) : (Layout.of dims axes).offsets
    = (List.range (size (radices dims axes))).map fun j => offset (strides dims) axes (digits (radices dims axes) j) := rfl

theorem offsets_zipIdx (dims axes : List ℕ) : (Layout.of dims axes).offsets.zipIdx
    = (List.range (size (radices dims axes))).map fun j => (offset (strides dims) axes (digits (radices dims axes) j), j) := by
  refine List.ext_getElem (by simp [offsets_of]) fun j inside _ => ?_
  simp [offsets_of]

theorem mem_writes (dims axes : List ℕ) (m : Grid K) (src : Array K) (base : ℕ) (w : ℕ × K) :
    w ∈ (Layout.of dims axes).writes m src base ↔ ∃ j, j < size (radices dims axes)
      ∧ w = (base + offset (strides dims) axes (digits (radices dims axes) j), (Layout.of dims axes).product m src base j) := by
  simp only [writes, offsets_zipIdx, List.map_map, List.mem_map, List.mem_range, Function.comp_apply, eq_comm]

variable (dims axes : List ℕ) (m : Grid K) (src dst : Array K)

-- What the product writes at the position with digits `e`.
def result (e : ℕ → ℕ) : K :=
  (Layout.of dims axes).product m src (strided dims (untouched dims axes) e) (value (radices dims axes) (axes.map e))

theorem result_congr (e f : ℕ → ℕ) (inside : ∀ k ∈ axes, k < dims.length) (same : ∀ k, k < dims.length → e k = f k) :
    result dims axes m src e = result dims axes m src f := by
  have rest := strided_congr dims (untouched dims axes) e f fun k member => same k ((mem_untouched dims axes k).mp member).1
  rw [result, result, rest, List.map_congr_left fun k member => same k (inside k member)]

theorem below_overwrite (e : ℕ → ℕ) (j : ℕ) (once : axes.Nodup) (positive : ∀ d ∈ dims, 0 < d)
    (below : ∀ k ∈ untouched dims axes, e k < dims.getD k 1) :
    Below dims (overwrite e axes (digits (radices dims axes) j)) := by
  intro k bound
  by_cases target : k ∈ axes
  · have some : ∀ d ∈ radices dims axes, 0 < d := by
      intro d member
      obtain ⟨a, -, rfl⟩ := List.mem_map.mp member
      exact radix_pos dims positive a
    have small := digits_below (radices dims axes) j some
    rw [← targets_overwrite dims axes e j once, radices, List.forall₂_map_left_iff, List.forall₂_map_right_iff,
      List.forall₂_same] at small
    exact small k target
  · rw [overwrite_other e axes _ k target]
    exact below k ((mem_untouched dims axes k).mpr ⟨bound, target⟩)

theorem mem_written (w : ℕ × K) (once : axes.Nodup) (positive : ∀ d ∈ dims, 0 < d) (inside : ∀ k ∈ axes, k < dims.length) :
    w ∈ (visited (Layout.of dims axes).wheels 0).flatMap ((Layout.of dims axes).writes m src)
      ↔ ∃ e, Below dims e ∧ w = (place dims e, result dims axes m src e) := by
  simp only [List.mem_flatMap, mem_bases, mem_writes]
  constructor
  · rintro ⟨_, ⟨e, below, rfl⟩, j, bound, rfl⟩
    refine ⟨overwrite e axes (digits (radices dims axes) j), below_overwrite dims axes e j once positive below, ?_⟩
    rw [base_offset dims axes e j once inside, result, rest_overwrite, targets_overwrite dims axes e j once, value_digits _ j bound]
  · rintro ⟨e, below, rfl⟩
    have bounds := target_bounds dims axes e inside below
    refine ⟨_, ⟨e, fun k member => below k ((mem_untouched dims axes k).mp member).1, rfl⟩, _, value_lt _ _ bounds, ?_⟩
    rw [digits_value _ _ bounds, offset_map, ← place_split dims axes e once inside]
    rfl

theorem contract_at (e : ℕ → ℕ) (d : K) (once : axes.Nodup) (positive : ∀ d ∈ dims, 0 < d)
    (inside : ∀ k ∈ axes, k < dims.length) (below : Below dims e) (full : dst.size = size dims) :
    ((Layout.of dims axes).contract m src dst).getD (place dims e) d = result dims axes m src e := by
  rw [contract_writes dims axes m src dst positive]
  refine written_once _ _ _ _ _ (by rw [full]; exact place_lt dims e below) ?_ fun w member here => ?_
  · exact (mem_written dims axes m src _ once positive inside).mpr ⟨e, below, rfl⟩
  · obtain ⟨f, fBelow, rfl⟩ := (mem_written dims axes m src w once positive inside).mp member
    exact result_congr dims axes m src f e inside (place_injective dims f e fBelow below here)

end Layout

theorem Buffers.scratch_size {K : Type} [Zero K] (b : Buffers K) : b.scratch.size = b.live.size := by
  rw [scratch]
  split
  · assumption
  · exact Array.size_replicate

end QuantumRegister.Dense
