import QuantumRegister.Proofs.Exact
import QuantumRegister.Selection

/-!
A search among weighted branches depends on the weights alone, not on how they are computed. It ends at
the first branch at which their running sum exceeds the draw, or takes the first heaviest one.
-/

set_option autoImplicit false

namespace QuantumRegister.Selection

variable {R σ τ : Type} [Scalar R]

structure Search.Named (w : ℕ → R) (s : Search R) : Prop where
  best : s.bestWeight = 0 ∨ s.bestWeight = w s.bestIndex
  last : s.weight = w s.index

-- Two ways to compute the same weights, each with a state of its own.
structure Alike (weightOf : σ → ℕ → R × σ) (weightOf' : τ → ℕ → R × τ) (w : ℕ → R) (kept : σ → τ → Prop)
    (asked : ℕ → σ → τ → Prop) : Prop where
  near : ∀ s t k, kept s t → (weightOf s k).1 = w k
  far : ∀ s t k, kept s t → (weightOf' t k).1 = w k
  keeps : ∀ s t k, kept s t → kept (weightOf s k).2 (weightOf' t k).2
  asks : ∀ s t k, kept s t → asked k (weightOf s k).2 (weightOf' t k).2

variable {weightOf : σ → ℕ → R × σ} {weightOf' : τ → ℕ → R × τ} {w : ℕ → R} {kept : σ → τ → Prop}
  {asked : ℕ → σ → τ → Prop}

theorem run_cons (weightOf : σ → ℕ → R × σ) (k : ℕ) (ks : List ℕ) (search : Search R) (s : σ) :
    Search.run weightOf (k :: ks) search s = if (search.step k (weightOf s k).1).rest < 0
      then (search.step k (weightOf s k).1, (weightOf s k).2)
      else Search.run weightOf ks (search.step k (weightOf s k).1) (weightOf s k).2 := rfl

theorem named_step (search : Search R) (k : ℕ) (best : search.bestWeight = 0 ∨ search.bestWeight = w search.bestIndex) :
    (search.step k (w k)).Named w := by
  refine ⟨?_, rfl⟩
  by_cases larger : search.bestWeight < w k
  · simp [Search.step, larger]
  · simpa [Search.step, larger] using best

theorem Alike.run (alike : Alike weightOf weightOf' w kept asked) (k : ℕ) (ks : List ℕ) (search : Search R) (s : σ) (t : τ)
    (before : kept s t) (best : search.bestWeight = 0 ∨ search.bestWeight = w search.bestIndex) :
    ∃ found s' t', Search.run weightOf (k :: ks) search s = (found, s') ∧ Search.run weightOf' (k :: ks) search t = (found, t')
      ∧ kept s' t' ∧ asked found.index s' t' ∧ found.Named w := by
  induction ks generalizing k search s t with
  | nil =>
      rw [run_cons, run_cons, alike.near s t k before, alike.far s t k before]
      refine ⟨search.step k (w k), _, _, ?_, ?_, alike.keeps s t k before, alike.asks s t k before, named_step search k best⟩
      · split <;> rfl
      · split <;> rfl
  | cons j ks ih =>
      rw [run_cons weightOf k, run_cons weightOf' k, alike.near s t k before, alike.far s t k before]
      by_cases reached : (search.step k (w k)).rest < 0
      · rw [if_pos reached, if_pos reached]
        exact ⟨search.step k (w k), _, _, rfl, rfl, alike.keeps s t k before, alike.asks s t k before, named_step search k best⟩
      · rw [if_neg reached, if_neg reached]
        exact ih j _ _ _ (alike.keeps s t k before) (named_step search k best).best

theorem result_last (search : Search R) : search.result.lastEvaluated = search.index := by
  rw [Search.result]
  split <;> rfl

theorem named_result (search : Search R) (named : search.Named w) :
    search.result.weight = 0 ∨ search.result.weight = w search.result.index := by
  rw [Search.result]
  split
  · exact named.best
  · exact Or.inr named.last

theorem Alike.ofDraw (alike : Alike weightOf weightOf' w kept asked) (p : R) (n : ℕ) (some : 0 < n) (s : σ) (t : τ)
    (before : kept s t) :
    ∃ found s' t', Selection.ofDraw p n weightOf s = (found, s') ∧ Selection.ofDraw p n weightOf' t = (found, t')
      ∧ kept s' t' ∧ asked found.lastEvaluated s' t' ∧ (found.weight = 0 ∨ found.weight = w found.index) := by
  obtain ⟨m, rfl⟩ : ∃ m, n = m + 1 := ⟨n - 1, by omega⟩
  have indices : List.range (m + 1) = 0 :: (List.range m).map Nat.succ := List.range_succ_eq_map
  obtain ⟨found, s', t', near, far, after, here, named⟩ :=
    alike.run 0 ((List.range m).map Nat.succ) (.start p) s t before (Or.inl rfl)
  refine ⟨found.result, s', t', ?_, ?_, after, (result_last found).symm ▸ here, named_result found named⟩
  · rw [Selection.ofDraw, indices, near]
  · rw [Selection.ofDraw, indices, far]

/-! Which branch is selected. -/

-- The selection that the draw `p` makes among `n` branches with weights `w`.
inductive Chosen (w : ℕ → ℝ) (n : ℕ) (p : ℝ) : Selection ℝ → Prop
  | reached (k : ℕ) (inside : k < n) (before : ∀ j < k, ∑ i ∈ Finset.range (j + 1), w i ≤ p)
      (beyond : p < ∑ i ∈ Finset.range (k + 1), w i) : Chosen w n p ⟨k, w k, k, none⟩
  | exhausted (k : ℕ) (inside : k < n) (short : ∀ j < n, ∑ i ∈ Finset.range (j + 1), w i ≤ p) (most : ∀ j < n, w j ≤ w k)
      (first : ∀ j < k, w j < w k) : Chosen w n p ⟨k, w k, n - 1, some .exhausted⟩

section Runs

variable {w : ℕ → ℝ} {p : ℝ} {n k : ℕ} {s : Search ℝ}

theorem sum_passed (low : 0 ≤ p) (before : ∀ j < k, ∑ i ∈ Finset.range (j + 1), w i ≤ p) : ∑ i ∈ Finset.range k, w i ≤ p := by
  rcases Nat.eq_zero_or_pos k with rfl | positive
  · rwa [Finset.sum_range_zero]
  · have earlier := before (k - 1) (by omega)
    rwa [Nat.sub_add_cancel positive] at earlier

theorem step_positive (low : 0 ≤ p) (before : ∀ j < k, ∑ i ∈ Finset.range (j + 1), w i ≤ p)
    (beyond : p < ∑ i ∈ Finset.range (k + 1), w i) : 0 < w k := by
  have between := (sum_passed low before).trans_lt beyond
  rw [Finset.sum_range_succ] at between
  exact (lt_add_iff_pos_right _).mp between

theorem Chosen.weight_eq {sel : Selection ℝ} (chosen : Chosen w n p sel) : sel.weight = w sel.index := by
  cases chosen <;> rfl

theorem Chosen.inside {sel : Selection ℝ} (chosen : Chosen w n p sel) : sel.index < n := by
  cases chosen <;> assumption

theorem Chosen.positive {sel : Selection ℝ} (chosen : Chosen w n p sel) (low : 0 ≤ p) (heavy : ∃ k < n, 0 < w k) :
    0 < w sel.index := by
  cases chosen with
  | reached k _ before beyond => exact step_positive low before beyond
  | exhausted k _ _ most _ =>
      obtain ⟨j, inside, positive⟩ := heavy
      exact positive.trans_le (most j inside)

theorem Chosen.direct {sel : Selection ℝ} (chosen : Chosen w n p sel) (total : p < ∑ i ∈ Finset.range n, w i) :
    sel.fallback = none := by
  cases chosen with
  | reached => rfl
  | exhausted k inside short =>
      have all := short (n - 1) (by omega)
      rw [Nat.sub_add_cancel (Nat.zero_lt_of_lt inside)] at all
      exact absurd total (not_lt.mpr all)

structure Search.Passed (w : ℕ → ℝ) (p : ℝ) (k : ℕ) (s : Search ℝ) : Prop where
  rest : s.rest = p - ∑ i ∈ Finset.range k, w i
  before : ∀ j < k, ∑ i ∈ Finset.range (j + 1), w i ≤ p
  last : s.index = k - 1
  heaviest : ∀ j < k, w j ≤ s.bestWeight
  first : ∀ j < s.bestIndex, w j < s.bestWeight
  named : k = 0 ∧ s.bestWeight = 0 ∧ s.bestIndex = 0 ∨ s.bestIndex < k ∧ s.bestWeight = w s.bestIndex

theorem passed_start (w : ℕ → ℝ) (p : ℝ) : (Search.start p).Passed w p 0 := by
  refine ⟨?_, fun j inside => absurd inside (Nat.not_lt_zero j), rfl, fun j inside => absurd inside (Nat.not_lt_zero j),
    fun j inside => absurd inside (Nat.not_lt_zero j), Or.inl ⟨rfl, rfl, rfl⟩⟩
  rw [Finset.sum_range_zero, sub_zero]
  rfl

theorem Search.Passed.rest_step (passed : s.Passed w p k) : (s.step k (w k)).rest = p - ∑ i ∈ Finset.range (k + 1), w i := by
  rw [Search.step, passed.rest, Finset.sum_range_succ, sub_sub]

theorem Search.Passed.step (passed : s.Passed w p k) (nonneg : 0 ≤ w k) (short : ∑ i ∈ Finset.range (k + 1), w i ≤ p) :
    (s.step k (w k)).Passed w p (k + 1) := by
  have before : ∀ j < k + 1, ∑ i ∈ Finset.range (j + 1), w i ≤ p := by
    intro j inside
    rcases Nat.lt_succ_iff_lt_or_eq.mp inside with earlier | rfl
    · exact passed.before j earlier
    · exact short
  by_cases heavier : s.bestWeight < w k
  · have best : s.step k (w k) = ⟨k, w k, k, w k, s.rest - w k⟩ := by simp [Search.step, heavier]
    refine ⟨passed.rest_step, before, ?_, ?_, ?_, Or.inr ?_⟩
    · rw [best, Nat.add_sub_cancel]
    · intro j inside
      rw [best]
      rcases Nat.lt_succ_iff_lt_or_eq.mp inside with earlier | rfl
      · exact (passed.heaviest j earlier).trans heavier.le
      · exact le_rfl
    · intro j inside
      rw [best] at inside ⊢
      exact (passed.heaviest j inside).trans_lt heavier
    · rw [best]
      exact ⟨Nat.lt_succ_self k, rfl⟩
  · have best : s.step k (w k) = ⟨s.bestIndex, s.bestWeight, k, w k, s.rest - w k⟩ := by simp [Search.step, heavier]
    refine ⟨passed.rest_step, before, ?_, ?_, ?_, Or.inr ?_⟩
    · rw [best, Nat.add_sub_cancel]
    · intro j inside
      rw [best]
      rcases Nat.lt_succ_iff_lt_or_eq.mp inside with earlier | rfl
      · exact passed.heaviest j earlier
      · exact not_lt.mp heavier
    · rw [best]
      exact passed.first
    · rw [best]
      rcases passed.named with ⟨rfl, weight, index⟩ | ⟨inside, weight⟩
      · -- Nothing was heavier than zero so far, so the first branch weighs nothing.
        refine ⟨by dsimp only; omega, ?_⟩
        rw [weight] at heavier
        rw [weight, index]
        exact le_antisymm nonneg (not_lt.mp heavier)
      · exact ⟨inside.trans (Nat.lt_succ_self k), weight⟩

theorem Search.Passed.chosen (passed : s.Passed w p n) (branches : 0 < n) : Chosen w n p s.result := by
  obtain ⟨m, rfl⟩ : ∃ m, n = m + 1 := ⟨n - 1, by omega⟩
  have left : 0 ≤ s.rest := by
    rw [passed.rest]
    exact sub_nonneg.mpr (passed.before m (Nat.lt_succ_self m))
  obtain ⟨inside, weight⟩ : s.bestIndex < m + 1 ∧ s.bestWeight = w s.bestIndex :=
    passed.named.resolve_left fun none => absurd none.1 (Nat.succ_ne_zero m)
  have result : s.result = ⟨s.bestIndex, w s.bestIndex, m + 1 - 1, some .exhausted⟩ := by
    rw [Search.result, Search.fallback, if_pos left, ← passed.last, ← weight]
  rw [result]
  refine .exhausted _ inside passed.before ?_ ?_
  · rw [← weight]
    exact passed.heaviest
  · rw [← weight]
    exact passed.first

theorem Search.Passed.stop (passed : s.Passed w p k) (low : 0 ≤ p) (inside : k < n)
    (beyond : p < ∑ i ∈ Finset.range (k + 1), w i) : Chosen w n p (s.step k (w k)).result := by
  have below : (s.step k (w k)).rest < 0 := by
    rw [passed.rest_step]
    exact sub_neg.mpr beyond
  have weight := step_positive low passed.before beyond
  have heavy : Scalar.isZero (s.step k (w k)).weight = false := by
    rw [Scalar.isZero, show (s.step k (w k)).weight = w k from rfl, decide_eq_false (not_le.mpr weight), Bool.false_and]
  have result : (s.step k (w k)).result = ⟨k, w k, k, none⟩ := by
    rw [Search.result, Search.fallback, if_neg (not_le.mpr below), heavy, if_neg Bool.false_ne_true]
    rfl
  rw [result]
  exact .reached k inside passed.before beyond

theorem run_chosen (next : σ → ℕ → σ) (low : 0 ≤ p) (m k : ℕ) (nonneg : ∀ j < k + m, 0 ≤ w j) (search : Search ℝ) (st : σ)
    (passed : search.Passed w p k) (branches : 0 < k + m) :
    ∃ found c, Search.run (fun st k => (w k, next st k)) (List.range' k m) search st = (found, (List.range' k c).foldl next st)
      ∧ found.result.lastEvaluated + 1 = k + c ∧ Chosen w (k + m) p found.result := by
  induction m generalizing k search st with
  | zero =>
      refine ⟨search, 0, rfl, ?_, passed.chosen branches⟩
      have last := passed.last
      rw [result_last]
      omega
  | succ m ih =>
      rw [List.range'_succ, run_cons]
      by_cases beyond : p < ∑ i ∈ Finset.range (k + 1), w i
      · have below : (search.step k (w k)).rest < 0 := by
          rw [passed.rest_step]
          exact sub_neg.mpr beyond
        rw [if_pos below]
        exact ⟨_, 1, rfl, by rw [result_last]; rfl, passed.stop low (by omega) beyond⟩
      · have left : ¬(search.step k (w k)).rest < 0 := by
          rw [passed.rest_step, not_lt]
          exact sub_nonneg.mpr (not_lt.mp beyond)
        rw [if_neg left]
        obtain ⟨found, c, ran, last, chosen⟩ := ih (k + 1) (fun j inside => nonneg j (by omega)) _ (next st k)
          (passed.step (nonneg k (by omega)) (not_lt.mp beyond)) (by omega)
        refine ⟨found, c + 1, ?_, by omega, ?_⟩
        · rw [ran, List.range'_succ, List.foldl_cons]
        · rwa [Nat.add_right_comm, Nat.add_assoc] at chosen

-- The branches are asked for in order, each once, up to the last one evaluated.
theorem ofDraw_chosen (next : σ → ℕ → σ) (nonneg : ∀ j < n, 0 ≤ w j) (low : 0 ≤ p) (branches : 0 < n) (st : σ) :
    ∃ sel, Selection.ofDraw p n (fun st k => (w k, next st k)) st = (sel, (List.range (sel.lastEvaluated + 1)).foldl next st)
      ∧ Chosen w n p sel := by
  obtain ⟨found, c, ran, last, chosen⟩ := run_chosen next low n 0 (by rwa [Nat.zero_add]) (.start p) st (passed_start w p)
    (by omega)
  rw [Nat.zero_add] at last chosen
  refine ⟨found.result, ?_, chosen⟩
  rw [Selection.ofDraw, List.range_eq_range', ran, last, ← List.range_eq_range']

end Runs

/-! Weights may depend on what was asked before. -/

section Asked

def stateBefore (weightOf : σ → ℕ → R × σ) (st : σ) : ℕ → σ
  | 0 => st
  | k + 1 => (weightOf (stateBefore weightOf st k) k).2

def weightAt (weightOf : σ → ℕ → R × σ) (st : σ) (k : ℕ) : R := (weightOf (stateBefore weightOf st k) k).1

def listing (weightOf : σ → ℕ → R × σ) (st : σ × List ℕ) (k : ℕ) : R × σ × List ℕ :=
  ((weightOf st.1 k).1, (weightOf st.1 k).2, st.2 ++ [k])

omit [Scalar R] in
theorem stateBefore_listing (weightOf : σ → ℕ → R × σ) (st : σ) (k : ℕ) :
    stateBefore (listing weightOf) (st, []) k = (stateBefore weightOf st k, List.range k) := by
  induction k with
  | zero => rfl
  | succ k ih => rw [stateBefore, ih, listing, List.range_succ, stateBefore]

omit [Scalar R] in
theorem weightAt_listing (weightOf : σ → ℕ → R × σ) (st : σ) :
    weightAt (listing weightOf) (st, []) = weightAt weightOf st := by
  funext k
  rw [weightAt, stateBefore_listing]
  rfl

-- A search that asks in order needs no more of the caller's state than how many branches it asked for.
theorem run_counted (weightOf : σ → ℕ → R × σ) (st : σ) (m k : ℕ) (search : Search R) :
    Search.run weightOf (List.range' k m) search (stateBefore weightOf st k)
      = Prod.map id (stateBefore weightOf st) (Search.run (fun c j => (weightAt weightOf st j, c + 1)) (List.range' k m) search k) := by
  induction m generalizing k search with
  | zero => rfl
  | succ m ih =>
      have here : (weightOf (stateBefore weightOf st k) k).1 = weightAt weightOf st k := rfl
      rw [List.range'_succ, run_cons, run_cons, here]
      split
      · rfl
      · exact ih (k + 1) _

theorem ofDraw_counted (weightOf : σ → ℕ → R × σ) (st : σ) (p : R) (n : ℕ) : Selection.ofDraw p n weightOf st
    = Prod.map id (stateBefore weightOf st) (Selection.ofDraw p n (fun c j => (weightAt weightOf st j, c + 1)) 0) := by
  have ran := run_counted weightOf st n 0 (.start p)
  rw [← List.range_eq_range', show stateBefore weightOf st 0 = st from rfl] at ran
  rw [Selection.ofDraw, ran]
  rfl

theorem ofDraw_asked (weightOf : σ → ℕ → ℝ × σ) (st : σ) {p : ℝ} {n : ℕ} (nonneg : ∀ k < n, 0 ≤ weightAt weightOf st k)
    (low : 0 ≤ p) (branches : 0 < n) :
    ∃ sel, Chosen (weightAt weightOf st) n p sel
      ∧ Selection.ofDraw p n weightOf st = (sel, stateBefore weightOf st (sel.lastEvaluated + 1))
      ∧ Selection.ofDraw p n (listing weightOf) (st, [])
        = (sel, stateBefore weightOf st (sel.lastEvaluated + 1), List.range (sel.lastEvaluated + 1)) := by
  obtain ⟨sel, drawn, chosen⟩ := ofDraw_chosen (fun c _ => c + 1) nonneg low branches 0
  have count : (List.range (sel.lastEvaluated + 1)).foldl (fun c _ => c + 1) 0 = sel.lastEvaluated + 1 := by simp
  rw [count] at drawn
  refine ⟨sel, chosen, ?_, ?_⟩
  · rw [ofDraw_counted, drawn]
    rfl
  · rw [ofDraw_counted, weightAt_listing, drawn, Prod.map, stateBefore_listing]
    rfl

-- Least indices stand for the first branch of a kind.
theorem draw_selects (weightOf : σ → ℕ → ℝ × σ) (st : σ) (p : ℝ) (n : ℕ) (low : 0 ≤ p) (branches : 0 < n)
    (nonneg : ∀ k < n, 0 ≤ weightAt weightOf st k) :
    ∃ sel : Selection ℝ,
      Selection.ofDraw? p n weightOf st = some (sel, stateBefore weightOf st (sel.lastEvaluated + 1))
        ∧ Selection.ofDraw? p n (listing weightOf) (st, [])
          = some (sel, stateBefore weightOf st (sel.lastEvaluated + 1), List.range (sel.lastEvaluated + 1))
        ∧ (p < ∑ i ∈ Finset.range n, weightAt weightOf st i →
          ∃ k, IsLeast {k | k < n ∧ p < ∑ i ∈ Finset.range (k + 1), weightAt weightOf st i} k ∧ 0 < weightAt weightOf st k
            ∧ sel = ⟨k, weightAt weightOf st k, k, none⟩)
        ∧ (∑ i ∈ Finset.range n, weightAt weightOf st i ≤ p →
          ∃ k, IsLeast {k | k < n ∧ ∀ j < n, weightAt weightOf st j ≤ weightAt weightOf st k} k
            ∧ ((∀ j < n, weightAt weightOf st j = 0) → k = 0)
            ∧ sel = ⟨k, weightAt weightOf st k, n - 1, some .exhausted⟩)
        ∧ sel.fallback ≠ some .zeroWeight
        ∧ (sel.needsReevaluation = true ↔ sel.index ≠ sel.lastEvaluated) := by
  obtain ⟨sel, chosen, drawn, listed⟩ := ofDraw_asked weightOf st nonneg low branches
  have stated (τ : Type) (ask : τ → ℕ → ℝ × τ) (t : τ) :
      Selection.ofDraw? p n ask t = some (Selection.ofDraw p n ask t) := if_neg branches.ne'
  refine ⟨sel, by rw [stated, drawn], by rw [stated, listed], fun more => ?_, fun short => ?_, ?_, bne_iff_ne⟩
  · cases chosen with
    | reached k inside before beyond =>
        refine ⟨k, ⟨⟨inside, beyond⟩, fun j ⟨_, past⟩ => ?_⟩, step_positive low before beyond, rfl⟩
        exact not_lt.mp fun earlier => absurd past (not_lt.mpr (before j earlier))
    | exhausted k inside short => exact absurd (Chosen.direct (.exhausted k inside short ‹_› ‹_›) more) (by simp)
  · cases chosen with
    | reached k inside before beyond =>
        have upto : ∑ i ∈ Finset.range (k + 1), weightAt weightOf st i ≤ ∑ i ∈ Finset.range n, weightAt weightOf st i :=
          Finset.sum_le_sum_of_subset_of_nonneg (Finset.range_subset_range.mpr inside) fun i member _ =>
            nonneg i (Finset.mem_range.mp member)
        exact absurd (upto.trans short) (not_le.mpr beyond)
    | exhausted k inside _ most first =>
        have least : ∀ j, (∀ i < n, weightAt weightOf st i ≤ weightAt weightOf st j) → k ≤ j := fun j largest =>
          not_lt.mp fun earlier => absurd (largest k inside) (not_le.mpr (first j earlier))
        refine ⟨k, ⟨⟨inside, most⟩, fun j ⟨_, largest⟩ => least j largest⟩, fun zero => ?_, rfl⟩
        refine Nat.le_zero.mp (least 0 fun i within => ?_)
        rw [zero i within, zero 0 branches]
  · cases chosen <;> simp

noncomputable def quarters (_ : Unit) (k : ℕ) : ℝ × Unit := (Scalar.dyadic ([2, 1, 1].getD k 0) 2, ())

theorem draw_selects_quarters :
    Selection.ofDraw? (5 / 8) 3 (listing quarters) ((), []) = some (⟨1, 1 / 4, 1, none⟩, (), [0, 1])
      ∧ Selection.ofDraw? 1 3 (listing quarters) ((), []) = some (⟨0, 1 / 2, 2, some .exhausted⟩, (), [0, 1, 2]) := by
  have first : weightAt quarters () 0 = 1 / 2 := by norm_num [weightAt, quarters, Scalar.dyadic]
  have second : weightAt quarters () 1 = 1 / 4 := by norm_num [weightAt, quarters, Scalar.dyadic]
  have third : weightAt quarters () 2 = 1 / 4 := by norm_num [weightAt, quarters, Scalar.dyadic]
  have nonneg : ∀ k < 3, 0 ≤ weightAt quarters () k := by
    intro k inside
    interval_cases k
    · rw [first]; norm_num
    · rw [second]; norm_num
    · rw [third]; norm_num
  have total : ∑ i ∈ Finset.range 3, weightAt quarters () i = 1 := by
    rw [Finset.sum_range_succ, Finset.sum_range_succ, Finset.sum_range_one, first, second, third]
    norm_num
  refine ⟨?_, ?_⟩
  · obtain ⟨sel, -, listed, reached, -⟩ := draw_selects quarters () (5 / 8) 3 (by norm_num) (by decide) nonneg
    obtain ⟨k, ⟨⟨inside, beyond⟩, least⟩, -, rfl⟩ := reached (by rw [total]; norm_num)
    have past : 5 / 8 < ∑ i ∈ Finset.range (1 + 1), weightAt quarters () i := by
      rw [Finset.sum_range_succ, Finset.sum_range_one, first, second]
      norm_num
    have bound : k ≤ 1 := least ⟨by decide, past⟩
    interval_cases k
    · rw [Finset.sum_range_one, first] at beyond
      norm_num at beyond
    · rw [second] at listed
      exact listed
  · obtain ⟨sel, -, listed, -, spent, -⟩ := draw_selects quarters () 1 3 (by norm_num) (by decide) nonneg
    obtain ⟨k, ⟨-, least⟩, -, rfl⟩ := spent total.le
    have heaviest : ∀ j < 3, weightAt quarters () j ≤ weightAt quarters () 0 := by
      intro j inside
      interval_cases j
      · exact le_rfl
      · rw [first, second]; norm_num
      · rw [first, third]; norm_num
    obtain rfl : k = 0 := Nat.le_zero.mp (least ⟨by decide, heaviest⟩)
    rw [first] at listed
    exact listed

end Asked

end QuantumRegister.Selection
