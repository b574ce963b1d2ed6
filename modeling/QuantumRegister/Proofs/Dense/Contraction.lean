import QuantumRegister.Proofs.Dense.Likeness

/-!
A matrix multiplied into some axes of an array is the matrix embedded into all of them. The odometer
runs through the blocks of the array in finitely many steps, no carry takes more from the position than
it holds, and the blocks cover every position once.
-/

set_option autoImplicit false

namespace QuantumRegister

open QuantumRegister.MixedRadix

namespace Dense

/-! Steps of the odometer. -/

-- The position covers every carry of the next step.
def Covered : List Wheel → ℕ → Prop
  | [], _ => True
  | w :: ws, base => w.digit + 1 < w.dim
      ∨ w.dim * w.stride ≤ base + w.stride ∧ Covered ws (base + w.stride - w.dim * w.stride)

-- A run to the last position, with the positions that it passes.
inductive Run : List Wheel → ℕ → List ℕ → Prop where
  | last (ws : List Wheel) (base : ℕ) (covered : Covered ws base) (through : advance ws base = none) : Run ws base [base]
  | next (ws ws' : List Wheel) (base base' : ℕ) (bases : List ℕ) (covered : Covered ws base)
      (stepped : advance ws base = some (ws', base')) (later : Run ws' base' bases) : Run ws base (base :: bases)

-- The digits fit their wheels, and the position is what they stand for.
structure Held (ws : List Wheel) (base : ℕ) : Prop where
  small : ∀ w ∈ ws, w.digit < w.dim
  position : base = (ws.map fun w => w.digit * w.stride).sum

namespace Held

theorem carry {w : Wheel} {ws : List Wheel} {base : ℕ} (held : Held (w :: ws) base) (through : ¬w.digit + 1 < w.dim) :
    w.dim * w.stride ≤ base + w.stride ∧ Held ws (base + w.stride - w.dim * w.stride) := by
  have full : w.dim = w.digit + 1 := by
    have bound := held.small w List.mem_cons_self
    omega
  have taken : w.dim * w.stride = w.digit * w.stride + w.stride := by rw [full, Nat.succ_mul]
  have position := held.position
  rw [List.map_cons, List.sum_cons] at position
  refine ⟨by omega, fun v member => held.small v (List.mem_cons_of_mem w member), by omega⟩

theorem covered {ws : List Wheel} {base : ℕ} (held : Held ws base) : Covered ws base := by
  induction ws generalizing base with
  | nil => trivial
  | cons w ws ih =>
      by_cases more : w.digit + 1 < w.dim
      · exact Or.inl more
      · obtain ⟨enough, rest⟩ := held.carry more
        exact Or.inr ⟨enough, ih rest⟩

theorem advance {ws ws' : List Wheel} {base base' : ℕ} (held : Held ws base)
    (stepped : Dense.advance ws base = some (ws', base')) : Held ws' base' := by
  induction ws generalizing ws' base base' with
  | nil => cases stepped
  | cons w ws ih =>
      by_cases more : w.digit + 1 < w.dim
      · rw [Dense.advance, if_pos more] at stepped
        cases stepped
        refine ⟨fun v member => ?_, ?_⟩
        · rcases List.mem_cons.mp member with rfl | member
          · exact more
          · exact held.small v (List.mem_cons_of_mem w member)
        · have position := held.position
          rw [List.map_cons, List.sum_cons] at position ⊢
          dsimp only
          rw [Nat.succ_mul]
          omega
      · have rest := (held.carry more).2
        rw [Dense.advance, if_neg more] at stepped
        cases later : Dense.advance ws (base + w.stride - w.dim * w.stride) with
        | none =>
            rw [later] at stepped
            cases stepped
        | some next =>
            rw [later] at stepped
            cases stepped
            have further := ih rest later
            refine ⟨fun v member => ?_, ?_⟩
            · rcases List.mem_cons.mp member with rfl | member
              · exact Nat.zero_lt_of_lt (held.small w List.mem_cons_self)
              · exact further.small v member
            · rw [List.map_cons, List.sum_cons, Nat.zero_mul, Nat.zero_add]
              exact further.position

-- Each step leaves fewer, so the run ends.
theorem run {ws : List Wheel} {base : ℕ} (held : Held ws base) :
    ∃ bases, Run ws base bases ∧ ∀ (β : Type) (visit : β → ℕ → β) (acc : β), sweep visit acc ws base = bases.foldl visit acc := by
  induction left : remaining ws using Nat.strong_induction_on generalizing ws base with
  | _ n ih =>
      subst left
      cases stepped : Dense.advance ws base with
      | none => exact ⟨[base], .last ws base held.covered stepped, fun β visit acc => sweep_last visit acc ws base stepped⟩
      | some next =>
          obtain ⟨bases, later, sweeps⟩ := ih _ (remaining_advance stepped) (held.advance stepped) rfl
          refine ⟨base :: bases, .next ws next.1 base next.2 bases held.covered stepped later, fun β visit acc => ?_⟩
          rw [sweep_next visit acc ws base next stepped, sweeps, List.foldl_cons]

end Held

theorem run_visited (ws : List Wheel) (turning : ∀ w ∈ ws, w.digit = 0 ∧ 0 < w.dim) : Run ws 0 (visited ws 0) := by
  have start : Held ws 0 := by
    refine ⟨fun w member => ?_, ?_⟩
    · rw [(turning w member).1]
      exact (turning w member).2
    · refine (List.sum_eq_zero fun x member => ?_).symm
      obtain ⟨w, listed, rfl⟩ := List.mem_map.mp member
      rw [(turning w listed).1, Nat.zero_mul]
  obtain ⟨bases, ran, sweeps⟩ := start.run
  have listed := sweeps (List ℕ) (fun acc base => base :: acc) []
  rw [sweep_visited _ _ _ _ (fun w member => (turning w member).1) fun w member => (turning w member).2,
    List.foldl_flip_cons_eq_append, List.foldl_flip_cons_eq_append, List.append_nil, List.append_nil, List.reverse_inj,
    List.map_id', List.map_id'] at listed
  rwa [listed]

/-! Blocks. -/

theorem visited_length (ws : List Wheel) (base : ℕ) : (visited ws base).length = size (ws.map Wheel.dim) := by
  induction ws with
  | nil => rfl
  | cons w ws ih =>
      have round : ∀ b, (turn w b 0).length = w.dim := fun b => by simp [turn]
      rw [visited, List.length_flatMap, List.map_congr_left fun b _ => round b, List.map_const', List.sum_replicate, ih,
        List.map_cons, size_cons, smul_eq_mul, Nat.mul_comm]

namespace Layout

variable (dims axes : List ℕ)

theorem size_split (once : axes.Nodup) (inside : ∀ k ∈ axes, k < dims.length) :
    size dims = size (radices dims (untouched dims axes)) * size (radices dims axes) := by
  have all : radices dims (List.range dims.length) = dims := by
    refine List.ext_getElem (by simp [radices]) fun k left right => ?_
    simp [radices, right]
  have joined := size_perm _ _ ((untouched_perm dims axes once inside).map fun a => dims.getD a 1)
  rw [List.map_append, size_append] at joined
  exact ((congrArg size all).symm.trans joined.symm)

theorem positions_once (once : axes.Nodup) (inside : ∀ k ∈ axes, k < dims.length) :
    ((visited (Layout.of dims axes).wheels 0).flatMap fun b => (Layout.of dims axes).offsets.map (b + ·)).Perm
      (List.range (size dims)) := by
  have covers : List.range (size dims)
      ⊆ (visited (Layout.of dims axes).wheels 0).flatMap fun b => (Layout.of dims axes).offsets.map (b + ·) := by
    intro i member
    obtain ⟨below, here⟩ := place_digits dims i (List.mem_range.mp member)
    set e := fun k => (digits dims i).getD k 0
    have bounds := target_bounds dims axes e inside below
    refine List.mem_flatMap.mpr ⟨strided dims (untouched dims axes) e, ?_, List.mem_map.mpr ⟨strided dims axes e, ?_, ?_⟩⟩
    · exact (mem_bases dims axes _).mpr ⟨e, fun k rest => below k ((mem_untouched dims axes k).mp rest).1, rfl⟩
    · rw [offsets_of, ← offset_map]
      refine List.mem_map.mpr ⟨value (radices dims axes) (axes.map e), List.mem_range.mpr (value_lt _ _ bounds), ?_⟩
      rw [digits_value _ _ bounds]
    · rw [← place_split dims axes e once inside, here]
  have count : ((visited (Layout.of dims axes).wheels 0).flatMap fun b => (Layout.of dims axes).offsets.map (b + ·)).length
      = size dims := by
    have block : ∀ b, ((Layout.of dims axes).offsets.map (b + ·)).length = size (radices dims axes) := fun b => by
      simp [offsets_of]
    have turns : (Layout.of dims axes).wheels.map Wheel.dim = (radices dims (untouched dims axes)).reverse := by
      rw [wheels_of, List.map_map, radices, List.map_reverse]
      rfl
    rw [List.length_flatMap, List.map_congr_left fun b _ => block b, List.map_const', List.sum_replicate, visited_length,
      turns, size_perm _ _ (List.reverse_perm _), smul_eq_mul, ← size_split dims axes once inside]
  exact ((List.nodup_range.subperm covers).perm_of_length_le (by rw [count, List.length_range])).symm

variable {K : Type} [Zero K] [Add K] [Mul K]

theorem result_eq (m : Grid K) (src : Array K) (x : ℕ → ℕ) (once : axes.Nodup) (inside : ∀ k ∈ axes, k < dims.length) :
    result dims axes m src x = (List.range (size (radices dims axes))).foldl (fun acc c =>
      acc + m.getD (value (radices dims axes) (axes.map x)) c 0
        * src.getD (place dims (overwrite x axes (digits (radices dims axes) c))) 0) 0 := by
  rw [result, product, offsets_zipIdx, List.foldl_map]
  simp only [base_offset dims axes x _ once inside]

end Layout

end Dense

namespace DenseState

variable {R : Type} [Scalar R]

-- What the scratch array held leaves no trace, neither in the new amplitudes nor in the new scratch array.
theorem applyMatrix_spare (ψ : DenseState R) (qs : List Qudit) (m : Operator R) (axes : List ℕ) (spare : Dense.Amplitudes R)
    (found : ψ.frame.axes (R := R) qs = .ok axes) (once : axes.Nodup) (inside : ∀ k ∈ axes, k < ψ.frame.dims.length)
    (full : ψ.buffers.live.size = size ψ.frame.dims) :
    (ψ.setBuffers ⟨ψ.buffers.live, spare⟩).applyMatrix qs m = ψ.applyMatrix qs m := by
  have fresh := (Dense.Buffers.prepare_fresh ⟨axes, rfl, once, inside⟩ m ψ.buffers ⟨ψ.buffers.live, spare⟩ rfl full).1
  have frame : (ψ.setBuffers ⟨ψ.buffers.live, spare⟩).frame = ψ.frame := rfl
  rw [applyMatrix, applyMatrix, layout, layout, frame, found]
  cases Operator.checkSquare qs m with
  | error e => rfl
  | ok _ => exact congrArg (fun next => Except.ok (ψ.setBuffers ⟨next, ψ.buffers.live⟩)) fresh

end DenseState

namespace Dense

theorem contraction_exact {K R : Type} [Zero K] [Add K] [Mul K] [Scalar R] (dims axes : List ℕ) (positive : ∀ d ∈ dims, 0 < d)
    (once : axes.Nodup) (inside : ∀ k ∈ axes, k < dims.length) (m : Grid K) (src : Array K) :
    (∃ bases, Run (Layout.of dims axes).wheels 0 bases
        ∧ (∀ (β : Type) (visit : β → ℕ → β) (acc : β), (Layout.of dims axes).forEachBase visit acc = bases.foldl visit acc)
        ∧ (bases.flatMap fun b => (Layout.of dims axes).offsets.map (b + ·)).Perm (List.range (size dims)))
      ∧ (∀ dst : Array K, dst.size = size dims → ((Layout.of dims axes).contract m src dst).size = size dims
          ∧ ∀ x, Below dims x → ((Layout.of dims axes).contract m src dst).getD (place dims x) 0
              = (List.range (size (Layout.radices dims axes))).foldl (fun acc c =>
                  acc + m.getD (value (Layout.radices dims axes) (axes.map x)) c 0
                    * src.getD (place dims (overwrite x axes (digits (Layout.radices dims axes) c))) 0) 0)
      ∧ (∀ dst dst' : Array K, dst.size = size dims → dst'.size = size dims →
          (Layout.of dims axes).contract m src dst' = (Layout.of dims axes).contract m src dst)
      ∧ ∀ (ψ : DenseState R) (qs : List Qudit) (a : Operator R) (spare : Amplitudes R), ψ.frame.dims = dims →
          ψ.frame.axes (R := R) qs = .ok axes → ψ.buffers.live.size = size dims →
          (ψ.setBuffers ⟨ψ.buffers.live, spare⟩).applyMatrix qs a = ψ.applyMatrix qs a := by
  refine ⟨⟨visited (Layout.of dims axes).wheels 0, ?_, ?_, ?_⟩, fun dst full => ⟨?_, fun x below => ?_⟩, ?_, ?_⟩
  · exact run_visited _ (Layout.turning dims axes positive)
  · intro β visit acc
    exact Layout.forEachBase_eq dims axes visit acc positive
  · exact Layout.positions_once dims axes once inside
  · rw [Layout.contract_size, full]
  · rw [Layout.contract_at dims axes m src dst x 0 once positive inside below full, Layout.result_eq dims axes m src x once inside]
  · intro dst dst' full full'
    exact Layout.contract_fresh dims axes m src dst dst' once inside full full'
  · intro ψ qs a spare framed found full
    subst framed
    exact DenseState.applyMatrix_spare ψ qs a axes spare found once inside full

theorem contraction_exact_outer : (∀ d ∈ [2, 3, 2], 0 < d) ∧ [2, 0].Nodup ∧ (∀ k ∈ [2, 0], k < [2, 3, 2].length)
    ∧ (∃ bases, Run (Layout.of [2, 3, 2] [2, 0]).wheels 0 bases
        ∧ (bases.flatMap fun b => [0, 6, 1, 7].map (b + ·)).Perm (List.range 12))
    ∧ ∀ m src (dst : Array ℤ), dst.size = 12 →
        (Layout.of [2, 3, 2] [2, 0]).contract m src dst = (Layout.of [2, 3, 2] [2, 0]).contract m src (Array.replicate 12 0) := by
  have positive : ∀ d ∈ [2, 3, 2], 0 < d := by decide
  have once : [2, 0].Nodup := by decide
  have inside : ∀ k ∈ [2, 0], k < [2, 3, 2].length := by decide
  obtain ⟨bases, ran, -, covers⟩ := (contraction_exact (K := ℤ) (R := ℝ) [2, 3, 2] [2, 0] positive once inside ⟨4, 4, #[]⟩ #[]).1
  refine ⟨positive, once, inside, ⟨bases, ran, covers⟩, fun m src dst full => ?_⟩
  exact (contraction_exact (R := ℝ) [2, 3, 2] [2, 0] positive once inside m src).2.2.1 (Array.replicate 12 0) dst
    (Array.size_replicate ..) full

end Dense

end QuantumRegister
