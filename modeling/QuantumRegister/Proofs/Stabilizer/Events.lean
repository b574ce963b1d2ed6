import QuantumRegister.Proofs.Operation
import QuantumRegister.Proofs.Stabilizer.Assembly
import QuantumRegister.Proofs.Stabilizer.Project

/-!
Events that change stabilizer states: generators, and projections onto a known outcome. What an event
does to amplitudes, read as a function of the bits of all qubits, does not depend on the qubits that
stand beside those of the event.
-/

set_option autoImplicit false

namespace QuantumRegister

open QuantumRegister.Form (wave phase layer cell row table flag bit gf iPow sgn root lift)

/-! Where a state does not vanish. -/

namespace Form

open Matrix

variable {n : ℕ}

theorem cell_ne_zero (v : Bool) (s z : ZMod 2) (agree : v = false → z = s) : cell v s z ≠ 0 := by
  have length : root ≠ 0 := fun zero => by simpa [zero] using root_square
  have signed : sgn (z * s) ≠ 0 := left_ne_zero_of_mul_eq_one (sgn_square (z * s))
  cases v with
  | true => exact mul_ne_zero signed length
  | false => simp [agree rfl]

theorem wave_ne_zero (c : Form ℝ) (x : Fin n → ZMod 2) :
    wave n c x ≠ 0 ↔ c.omega.toComplex ≠ 0
      ∧ ∀ j : Fin n, flag c.v j = false → (x ᵥ* table n c.f) j = row n c.s j := by
  have power : iPow (phase n c x) ≠ 0 := pow_ne_zero _ Complex.I_ne_zero
  constructor
  · intro visible
    refine ⟨left_ne_zero_of_mul visible, fun j free => ?_⟩
    by_contra apart
    refine right_ne_zero_of_mul (right_ne_zero_of_mul visible) ?_
    exact layer_eq_zero (fun j : Fin n => flag c.v j) _ _ j free apart
  · rintro ⟨scalar, agree⟩
    exact mul_ne_zero scalar (mul_ne_zero power (Finset.prod_ne_zero_iff.mpr fun j _ => cell_ne_zero _ _ _ (agree j)))

-- The row of a qubit meets the Hadamard layer if both values of the qubit are possible.
theorem meets_iff {c : Form ℝ} (valid : Tableau n c) (q : Fin n) (visible : ∃ x, wave n c x ≠ 0) :
    Meets c q ↔ ∃ x y, wave n c x ≠ 0 ∧ wave n c y ≠ 0 ∧ x q ≠ y q := by
  have width := valid.width
  constructor
  · rintro ⟨j, inside, selected, layered⟩
    obtain ⟨x, here⟩ := visible
    let k : Fin n := ⟨j, width ▸ inside⟩
    let y := (carriedTo valid).symm (carriedTo valid x + Pi.single k 1)
    have carried : y ᵥ* table n c.f = x ᵥ* table n c.f + Pi.single k 1 := (carriedTo valid).apply_symm_apply _
    have moved : y q = x q + 1 := by
      rw [← valid.read y q, carried, dotProduct_add, valid.read, dotProduct_single, mul_one]
      exact congrArg (x q + ·) (congrArg gf selected)
    refine ⟨x, y, here, (wave_ne_zero c y).mpr ⟨((wave_ne_zero c x).mp here).1, fun i free => ?_⟩, ?_⟩
    · have apart : i ≠ k := by
        rintro rfl
        simp [k, layered] at free
      rw [carried, Pi.add_apply, Pi.single_eq_of_ne apart, add_zero]
      exact ((wave_ne_zero c x).mp here).2 i free
    · rw [moved]
      simp
  · rintro ⟨x, y, first, second, apart⟩
    by_contra never
    refine apart ?_
    rw [← valid.read x q, ← valid.read y q, dotProduct, dotProduct]
    refine Finset.sum_congr rfl fun j _ => ?_
    cases free : flag c.v j with
    | false => rw [((wave_ne_zero c x).mp first).2 j free, ((wave_ne_zero c y).mp second).2 j free]
    | true =>
        have unset : bit c.g q j = false := by
          by_contra selected
          exact never ⟨j, width.symm ▸ j.isLt, by simpa using selected, free⟩
        simp [table, unset]

/-! Amplitudes as a function of the bits of all qubits, for a form of some of them. -/

noncomputable def across (L : List Qudit) (c : Form ℝ) (β : Qudit → ZMod 2) : ℂ :=
  wave L.length c fun i => β (L.getD i default)

theorem across_eq (L : List Qudit) (c : Form ℝ) (β : Qudit → ZMod 2) (length : L.length = n) :
    across L c β = wave n c fun i => β (L.getD i default) := by
  subst length
  rfl

theorem across_depends (L : List Qudit) (c : Form ℝ) : DependsOn (across L c) {q | q ∈ L} := by
  intro β γ same
  refine congrArg (wave L.length c) (funext fun i => same _ ?_)
  rw [List.getD_eq_getElem _ _ i.isLt]
  exact List.getElem_mem i.isLt

theorem across_append (L M : List Qudit) {a b : Form ℝ} (left : Tableau L.length a) (right : Tableau M.length b)
    (β : Qudit → ZMod 2) : across (L ++ M) (a.kron b) β = across L a β * across M b β := by
  rw [across_eq (L ++ M) _ β List.length_append, wave_kron left right, across, across]
  refine congrArg₂ (· * ·) (congrArg _ (funext fun i => ?_)) (congrArg _ (funext fun i => ?_))
  · exact congrArg β (List.getD_append L M default i i.isLt)
  · refine congrArg β ((List.getD_append_right L M default (L.length + i) (Nat.le_add_right _ _)).trans ?_)
    rw [Nat.add_sub_cancel_left]

theorem across_map (L : List Qudit) (π : Equiv.Perm Qudit) (c : Form ℝ) (β : Qudit → ZMod 2) :
    across (L.map π) c β = across L c (β ∘ π) := by
  rw [across_eq (L.map π) c β (List.length_map π), across]
  refine congrArg (wave L.length c) (funext fun i => ?_)
  simp [List.getD_eq_getElem?_getD]

theorem across_reindex (L M : List Qudit) {c : Form ℝ} (valid : Tableau L.length c) (axes : List ℕ)
    (perm : axes.Perm (List.range L.length)) (reordered : axes.map (L.getD · default) = M) (β : Qudit → ZMod 2) :
    across M (c.reindex axes) β = across L c β := by
  obtain ⟨σ, picks⟩ := axes_permutation axes perm
  have count : axes.length = L.length := by simpa using perm.length_eq
  have length : M.length = L.length := by rw [← reordered, List.length_map, count]
  rw [across_eq M _ β length, across, ← wave_reindex valid axes perm σ picks]
  refine congrArg (wave L.length (c.reindex axes)) (funext fun i => ?_)
  have inside : (i : ℕ) < axes.length := count.symm ▸ i.isLt
  rw [Function.comp_apply, ← picks, ← reordered, List.getD_eq_getElem _ _ (by simpa using inside), List.getElem_map,
    List.getD_eq_getElem axes _ inside]

end Form

/-! Events. -/

def Generator.map {ι κ : Type} (f : ι → κ) : Generator ι → Generator κ
  | .h q => .h (f q)
  | .s q => .s (f q)
  | .x q => .x (f q)
  | .y q => .y (f q)
  | .z q => .z (f q)
  | .cx a b => .cx (f a) (f b)
  | .cz a b => .cz (f a) (f b)

inductive Event where
  | gate (k : Generator Qudit)
  | project (q : Qudit) (outcome : Bool)

namespace Event

def labels : Event → List Qudit
  | .gate k => k.labels
  | .project q _ => [q]

variable {R : Type} [Scalar R]

def play (order : List Qudit) (c : Form R) : Event → Form R
  | .gate k => c.apply (k.map order.idxOf)
  | .project q b => c.project (order.idxOf q) b

def play? (order : List Qudit) (c : Form R) : Event → Option (Form R)
  | .gate k => c.applyGate? (k.map order.idxOf)
  | .project q b => c.project? (order.idxOf q) b

def replay (order : List Qudit) (c : Form R) (es : List Event) : Form R := es.foldl (play order) c

theorem replay_append (order : List Qudit) (c : Form R) (es es' : List Event) :
    replay order c (es ++ es') = replay order (replay order c es) es' := List.foldl_append

def Undecided (F : (Qudit → ZMod 2) → ℂ) (q : Qudit) : Prop := ∃ β γ, F β ≠ 0 ∧ F γ ≠ 0 ∧ β q ≠ γ q

-- What makes up for the part of a state that a projection takes away.
open Classical in
noncomputable def boost (F : (Qudit → ZMod 2) → ℂ) (q : Qudit) : ℂ := if Undecided F q then root + root else 1

theorem boost_of_iff (F : (Qudit → ZMod 2) → ℂ) (q : Qudit) (p : Prop) {known : Decidable p} (same : p ↔ Undecided F q) :
    (if p then root + root else 1) = boost F q := by
  rw [boost]
  by_cases both : p
  · rw [if_pos both, if_pos (same.mp both)]
  · rw [if_neg both, if_neg fun undecided => both (same.mpr undecided)]

noncomputable def act (F : (Qudit → ZMod 2) → ℂ) : Event → (Qudit → ZMod 2) → ℂ
  | .gate (.h q), β => root * (F (β + Pi.single q 1) + sgn (β q) * F β)
  | .gate (.s q), β => iPow (lift (β q)) * F β
  | .gate (.x q), β => F (β + Pi.single q 1)
  | .gate (.y q), β => -(Complex.I * sgn (β q)) * F (β + Pi.single q 1)
  | .gate (.z q), β => sgn (β q) * F β
  | .gate (.cx a b), β => F (β + Pi.single b (β a))
  | .gate (.cz a b), β => sgn (β a * β b) * F β
  | .project q b, β => boost F q * if β q = gf b then F β else 0

noncomputable def acts (F : (Qudit → ZMod 2) → ℂ) (es : List Event) : (Qudit → ZMod 2) → ℂ := es.foldl act F

theorem acts_exchange (F : (Qudit → ZMod 2) → ℂ) (a b : Qudit) (different : a ≠ b) (β : Qudit → ZMod 2) :
    acts F [.gate (.cx a b), .gate (.cx b a), .gate (.cx a b)] β = F (β ∘ Equiv.swap a b) := by
  simp only [acts, List.foldl_cons, List.foldl_nil, act]
  have double := CharTwo.two_eq_zero (R := ZMod 2)
  refine congrArg F (funext fun q => ?_)
  by_cases isFirst : q = a
  · subst isFirst
    simp only [Function.comp_apply, Equiv.swap_apply_left, Pi.add_apply, Pi.single_eq_same, Pi.single_eq_of_ne different]
    linear_combination β q * double
  · by_cases isSecond : q = b
    · subst isSecond
      simp only [Function.comp_apply, Equiv.swap_apply_right, Pi.add_apply, Pi.single_eq_same, Pi.single_eq_of_ne isFirst,
        Pi.single_eq_of_ne different]
      linear_combination (β a + β q) * double
    · simp [isFirst, isSecond, Equiv.swap_apply_of_ne_of_ne isFirst isSecond]

section Beside

variable {L : List Qudit} {F ρ : (Qudit → ZMod 2) → ℂ}

theorem shifted (apart : DependsOn ρ {q | q ∉ L}) (q : Qudit) (inside : q ∈ L) (β : Qudit → ZMod 2) (z : ZMod 2) :
    ρ (β + Pi.single q z) = ρ β := by
  refine apart fun p outside => ?_
  rw [Pi.add_apply, Pi.single_eq_of_ne (ne_of_mem_of_not_mem inside outside).symm, add_zero]

theorem undecided_beside (own : DependsOn F {q | q ∈ L}) (apart : DependsOn ρ {q | q ∉ L}) (q : Qudit) (inside : q ∈ L)
    (visible : ∃ β, F β * ρ β ≠ 0) : Undecided (fun β => F β * ρ β) q ↔ Undecided F q := by
  constructor
  · rintro ⟨β, γ, first, second, other⟩
    exact ⟨β, γ, left_ne_zero_of_mul first, left_ne_zero_of_mul second, other⟩
  · rintro ⟨β, γ, first, second, other⟩
    obtain ⟨δ, here⟩ := visible
    let patched (β : Qudit → ZMod 2) : Qudit → ZMod 2 := fun q => if q ∈ L then β q else δ q
    have near (β : Qudit → ZMod 2) : F (patched β) = F β := own fun q listed => if_pos listed
    have far (β : Qudit → ZMod 2) : ρ (patched β) = ρ δ := apart fun q unlisted => if_neg unlisted
    have visible (β : Qudit → ZMod 2) (here' : F β ≠ 0) : F (patched β) * ρ (patched β) ≠ 0 := by
      rw [near, far]
      exact mul_ne_zero here' (right_ne_zero_of_mul here)
    refine ⟨patched β, patched γ, visible β first, visible γ second, ?_⟩
    simpa [patched, inside] using other

theorem act_beside (own : DependsOn F {q | q ∈ L}) (apart : DependsOn ρ {q | q ∉ L}) (e : Event) (inside : e.labels ⊆ L) :
    act (fun β => F β * ρ β) e = fun β => act F e β * ρ β := by
  funext β
  cases e with
  | gate k =>
      have still := fun q (listed : q ∈ k.labels) => shifted apart q (inside listed)
      cases k with
      | h q =>
          simp only [act, still q (by simp [Generator.labels])]
          ring
      | s q => exact (mul_assoc _ _ _).symm
      | x q => simp only [act, still q (by simp [Generator.labels])]
      | y q =>
          simp only [act, still q (by simp [Generator.labels])]
          ring
      | z q => exact (mul_assoc _ _ _).symm
      | cx a b => simp only [act, still b (by simp [Generator.labels])]
      | cz a b => exact (mul_assoc _ _ _).symm
  | project q b =>
      have listed : q ∈ L := inside List.mem_cons_self
      by_cases visible : ∃ β, F β * ρ β ≠ 0
      · have same : boost (fun β => F β * ρ β) q = boost F q :=
          boost_of_iff F q _ (undecided_beside own apart q listed visible)
        rw [act, act, same, mul_assoc, ite_mul, zero_mul]
      · have nothing : F β * ρ β = 0 := by
          by_contra here
          exact visible ⟨β, here⟩
        simp only [act, nothing, ite_self, mul_zero, mul_assoc, ite_mul, zero_mul]

end Beside

/-! An event on a form. -/

variable {L : List Qudit} {c : Form ℝ}

theorem place (L : List Qudit) (q : Qudit) (inside : q ∈ L) : ∃ i : Fin L.length, L.idxOf q = i ∧ L.getD i default = q := by
  have bound := List.idxOf_lt_length_of_mem inside
  refine ⟨⟨L.idxOf q, bound⟩, rfl, ?_⟩
  rw [List.getD_eq_getElem _ _ bound, List.getElem_idxOf]

theorem read_shifted (once : L.Nodup) (β : Qudit → ZMod 2) (i : Fin L.length) (z : ZMod 2) :
    (fun j : Fin L.length => (β + Pi.single (L.getD i default) z : Qudit → ZMod 2) (L.getD j default))
      = (fun j : Fin L.length => β (L.getD j default)) + Pi.single i z := by
  funext j
  have same : L.getD j default = L.getD i default ↔ j = i := by
    rw [List.getD_eq_getElem _ _ i.isLt, List.getD_eq_getElem _ _ j.isLt, once.getElem_inj_iff, Fin.ext_iff]
  simp only [Pi.add_apply, Pi.single_apply, same]

theorem read_surjective (once : L.Nodup) (x : Fin L.length → ZMod 2) :
    ∃ β : Qudit → ZMod 2, (fun i : Fin L.length => β (L.getD i default)) = x := by
  refine ⟨fun q => if listed : L.idxOf q < L.length then x ⟨L.idxOf q, listed⟩ else 0, funext fun i => ?_⟩
  have here : L.idxOf (L.getD i default) = i := by
    rw [List.getD_eq_getElem _ _ i.isLt, once.idxOf_getElem]
  simp only [here, i.isLt, dite_true, Fin.eta]

theorem undecided_across (once : L.Nodup) (i : Fin L.length) :
    Undecided (c.across L) (L.getD i default) ↔ ∃ x y, wave L.length c x ≠ 0 ∧ wave L.length c y ≠ 0 ∧ x i ≠ y i := by
  constructor
  · rintro ⟨β, γ, first, second, other⟩
    exact ⟨_, _, first, second, other⟩
  · rintro ⟨x, y, first, second, other⟩
    obtain ⟨β, rfl⟩ := read_surjective once x
    obtain ⟨γ, rfl⟩ := read_surjective once y
    exact ⟨β, γ, first, second, other⟩

theorem play_ok (valid : Form.Tableau L.length c) (e : Event) (names : Names L e.labels) :
    e.play? L c = some (e.play L c) ∧ Form.Tableau L.length (e.play L c) := by
  have bound := fun q (listed : q ∈ e.labels) => List.idxOf_lt_length_of_mem (names.inside listed)
  have width := valid.width
  cases e with
  | gate k =>
      have fits : c.fits (k.map L.idxOf) = true := by
        cases k with
        | cx a b | cz a b =>
            simp [Form.fits, Generator.map, Generator.labels, width, bound a (by simp [labels, Generator.labels]),
              bound b (by simp [labels, Generator.labels])]
        | h q | s q | x q | y q | z q =>
            simp [Form.fits, Generator.map, Generator.labels, width, bound q (by simp [labels, Generator.labels])]
      have distinct : (k.map L.idxOf).labels.Nodup := by
        have mapped : (k.map L.idxOf).labels = k.labels.map L.idxOf := by cases k <;> rfl
        rw [mapped]
        exact names.once.map_on fun a first b _ same => List.idxOf_inj (names.inside first) |>.mp same
      exact ⟨if_pos fits, valid.apply _ fits distinct⟩
  | project q b => exact ⟨if_pos (by simp [Form.readable, width, bound q (by simp [labels])]), valid.project _ b⟩

theorem across_play (once : L.Nodup) (valid : Form.Tableau L.length c) (e : Event) (names : Names L e.labels) :
    (e.play L c).across L = e.act (c.across L) := by
  funext β
  cases e with
  | gate k =>
      have listed := fun q (member : q ∈ k.labels) => place L q (names.inside member)
      have apart : ∀ a b, k.labels = [a, b] → a ≠ b := fun a b pair same => by
        have once := names.once
        rw [labels, pair, same] at once
        simp at once
      cases k with
      | h q =>
          obtain ⟨i, index, named⟩ := listed q (by simp [Generator.labels])
          simp only [play, Generator.map, Form.apply, act, index, Form.across, Form.wave_applyH valid]
          rw [← named, read_shifted once]
      | s q =>
          obtain ⟨i, index, named⟩ := listed q (by simp [Generator.labels])
          simp only [play, Generator.map, Form.apply, act, index, Form.across, Form.wave_applyS valid, named]
      | x q =>
          obtain ⟨i, index, named⟩ := listed q (by simp [Generator.labels])
          simp only [play, Generator.map, Form.apply, act, index, Form.across, Form.wave_applyX valid]
          rw [← named, read_shifted once]
      | y q =>
          obtain ⟨i, index, named⟩ := listed q (by simp [Generator.labels])
          simp only [play, Generator.map, Form.apply, act, index, Form.across, Form.wave_applyY valid]
          rw [← named, read_shifted once]
      | z q =>
          obtain ⟨i, index, named⟩ := listed q (by simp [Generator.labels])
          simp only [play, Generator.map, Form.apply, act, index, Form.across, Form.wave_applyZ valid, named]
      | cx a b =>
          obtain ⟨i, first, named⟩ := listed a (by simp [Generator.labels])
          obtain ⟨j, second, named'⟩ := listed b (by simp [Generator.labels])
          have different : i ≠ j := fun same => apart a b rfl (by rw [← named, ← named', same])
          simp only [play, Generator.map, Form.apply, act, first, second, Form.across, Form.wave_applyCX valid i j different]
          rw [← named', read_shifted once, named]
      | cz a b =>
          obtain ⟨i, first, named⟩ := listed a (by simp [Generator.labels])
          obtain ⟨j, second, named'⟩ := listed b (by simp [Generator.labels])
          have different : i ≠ j := fun same => apart a b rfl (by rw [← named, ← named', same])
          simp only [play, Generator.map, Form.apply, act, first, second, Form.across, Form.wave_applyCZ valid i j different,
            named, named']
  | project q b =>
      obtain ⟨i, index, named⟩ := place L q (names.inside List.mem_cons_self)
      simp only [play, act, index, Form.across, Form.wave_project valid, named]
      by_cases visible : ∃ x, wave L.length c x ≠ 0
      · have both : Form.Meets c i ↔ Undecided (c.across L) q := by
          rw [Form.meets_iff valid i visible, ← named, undecided_across once]
        exact congrArg (· * _) (boost_of_iff (c.across L) q _ both)
      · have nothing : ∀ x, wave L.length c x = 0 := fun x => by
          by_contra here
          exact visible ⟨x, here⟩
        simp only [nothing, ite_self, mul_zero]

-- Whatever stands beside the qubits of a form is left alone by events on these qubits.
theorem replay_ok (once : L.Nodup) (valid : Form.Tableau L.length c) (es : List Event) (names : ∀ e ∈ es, Names L e.labels)
    {ρ : (Qudit → ZMod 2) → ℂ} (apart : DependsOn ρ {q | q ∉ L}) :
    es.foldlM (play? L) c = some (replay L c es) ∧ Form.Tableau L.length (replay L c es)
      ∧ acts (fun β => c.across L β * ρ β) es = fun β => (replay L c es).across L β * ρ β := by
  induction es generalizing c with
  | nil => exact ⟨rfl, valid, rfl⟩
  | cons e es ih =>
      obtain ⟨first, later⟩ := List.forall_mem_cons.mp names
      obtain ⟨done, held⟩ := e.play_ok valid first
      obtain ⟨rest, settled, acted⟩ := ih held later
      refine ⟨?_, settled, ?_⟩
      · rw [List.foldlM_cons, done]
        exact rest
      · rw [acts, List.foldl_cons, act_beside (c.across_depends L) apart e first.inside, ← across_play once valid e first]
        exact acted

theorem replay_alone (once : L.Nodup) (valid : Form.Tableau L.length c) (es : List Event) (names : ∀ e ∈ es, Names L e.labels) :
    es.foldlM (play? L) c = some (replay L c es) ∧ Form.Tableau L.length (replay L c es)
      ∧ acts (c.across L) es = (replay L c es).across L := by
  obtain ⟨ran, settled, acted⟩ := replay_ok once valid es names (ρ := fun _ => 1) fun _ _ _ => rfl
  simp only [mul_one] at acted
  exact ⟨ran, settled, acted⟩

end Event

end QuantumRegister
