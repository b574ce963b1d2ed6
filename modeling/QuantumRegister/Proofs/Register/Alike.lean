import QuantumRegister.Proofs.Likeness
import QuantumRegister.Proofs.Register.Partition
import QuantumRegister.Register.Sample

/-!
Two registers with the same bookkeeping whose states hold the same, slot by slot, each on cells of its
own. Every change of the partition keeps them so, and every question about them has the same answer.
-/

set_option autoImplicit false

namespace QuantumRegister

open QuantumRegister.SimError (Agree agree_ok agree_error agree_refl agree_bind)
open QuantumRegister.Representation (frame setFrame)
open QuantumRegister.Readable (content Full)

/-! Slots. -/

namespace Slots

variable {S : Type} {P : S → S → Prop}

structure Alike (P : S → S → Prop) (a b : Slots S) : Prop where
  cells : List.Forall₂ (Option.Rel P) a.cells b.cells
  free : b.free = a.free

theorem forall₂_set {α : Type} {P : α → α → Prop} {xs ys : List α} (related : List.Forall₂ P xs ys) (h : ℕ) (x y : α)
    (held : P x y) : List.Forall₂ P (xs.set h x) (ys.set h y) := by
  induction related generalizing h with
  | nil => exact .nil
  | cons first rest ih =>
      cases h with
      | zero => exact .cons held rest
      | succ h => exact .cons first (ih h)

variable {a b : Slots S} (alike : Alike P a b)

include alike

theorem Alike.get? (h : ℕ) : Option.Rel P (a.get? h) (b.get? h) := by
  have each : ∀ {xs ys : List (Option S)}, List.Forall₂ (Option.Rel P) xs ys → ∀ h : ℕ, Option.Rel P xs[h]?.join ys[h]?.join := by
    intro xs ys related
    induction related with
    | nil => exact fun _ => .none
    | cons first rest ih =>
        intro h
        cases h with
        | zero => simpa using first
        | succ h => simpa using ih h
  exact each alike.cells h

theorem Alike.put (h : ℕ) (s t : S) (held : P s t) : Alike P (a.put h s) (b.put h t) :=
  ⟨forall₂_set alike.cells h _ _ (.some held), alike.free⟩

theorem Alike.release (h : ℕ) : Alike P (a.release h) (b.release h) :=
  ⟨forall₂_set alike.cells h _ _ .none, congrArg (h :: ·) alike.free⟩

theorem Alike.released (hs : List ℕ) : Alike P (hs.foldl Slots.release a) (hs.foldl Slots.release b) := by
  induction hs generalizing a b with
  | nil => exact alike
  | cons h hs ih => exact ih (alike.release h)

theorem Alike.alloc (s t : S) (held : P s t) : (b.alloc t).1 = (a.alloc s).1 ∧ Alike P (a.alloc s).2 (b.alloc t).2 := by
  obtain ⟨cells, free⟩ := a
  obtain ⟨cells', free'⟩ := b
  obtain ⟨related, same⟩ := alike
  cases same
  cases free with
  | nil => exact ⟨related.length_eq.symm, List.rel_append related (.cons (.some held) .nil), rfl⟩
  | cons h free => exact ⟨rfl, forall₂_set related h _ _ (.some held), rfl⟩

theorem Alike.vacant (h : ℕ) (vacant : a.get? h = none) : b.get? h = none := by
  have related := alike.get? h
  rw [vacant] at related
  generalize b.get? h = x at related ⊢
  cases related
  rfl

theorem Alike.found (h : ℕ) (s : S) (live : a.get? h = some s) : ∃ t, b.get? h = some t ∧ P s t := by
  have related := alike.get? h
  rw [live] at related
  generalize b.get? h = x at related ⊢
  cases related with
  | some held => exact ⟨_, rfl, held⟩

theorem Alike.live : List.Forall₂ P a.live b.live :=
  List.rel_filterMap (fun _ _ related => related) alike.cells

end Slots

structure Wiring where
  source : SourceRef
  log : LogRef

namespace Register

variable {R S : Type} [Representation R S] [Readable S]

def wiring (r : Register R S) : Wiring := ⟨r.source, r.log⟩

structure Alike (p p' : Wiring) (r r' : Register R S) : Prop where
  slots : r.slots.Alike Like r'.slots
  owners : r'.owners = r.owners
  home : r'.home = r.home
  qudits : r'.qudits = r.qudits
  split : r'.split = r.split
  tolerance : r'.tolerance = r.tolerance
  first : r.wiring = p
  second : r'.wiring = p'

variable {p p' : Wiring} {r r' : Register R S}

theorem alike_refl (r : Register R S) (full : ∀ h t, r.slots.get? h = some t → Full t) : Alike r.wiring r.wiring r r := by
  refine ⟨⟨List.forall₂_same.mpr fun cell member => ?_, rfl⟩, rfl, rfl, rfl, rfl, rfl, rfl, rfl⟩
  cases cell with
  | none => exact .none
  | some t =>
      obtain ⟨h, inside, here⟩ := List.getElem_of_mem member
      exact .some (.refl (full h t (by rw [Slots.get?, List.getElem?_eq_getElem inside, here]; rfl)))

variable (alike : Alike p p' r r')

include alike

/-! Owners and their states. -/

theorem Alike.owner (q : Qudit) : r'.owner q = r.owner q := by rw [Register.owner, Register.owner, alike.owners]

theorem Alike.ownersOf (qs : List Qudit) : r'.ownersOf qs = r.ownersOf qs := by
  have each : qs.mapM r'.owner = qs.mapM r.owner := congrArg (List.mapM · qs) (funext alike.owner)
  rw [Register.ownersOf, Register.ownersOf, each]

theorem Alike.checkTargets (qs : List Qudit) : r'.checkTargets qs = r.checkTargets qs := by
  rw [Register.checkTargets, Register.checkTargets, alike.ownersOf]

theorem Alike.grouped (qs : List Qudit) (a : Columns) : r'.grouped qs a = r.grouped qs a := by
  induction qs generalizing a with
  | nil => rfl
  | cons q qs ih => simp only [Register.grouped, alike.owner, ih]

theorem Alike.state (h : ℕ) : Agree Like (r.state h) (r'.state h) := by
  have related := alike.slots.get? h
  rw [Register.state, Register.state]
  generalize r.slots.get? h = x at related ⊢
  generalize r'.slots.get? h = y at related ⊢
  cases related with
  | none => exact agree_error _
  | some held => exact agree_ok _ _ held

theorem Alike.assign (qs : List Qudit) (h : ℕ) : Alike p p' (r.assign qs h) (r'.assign qs h) := by
  refine ⟨alike.slots, ?_, alike.home, alike.qudits, alike.split, alike.tolerance, alike.first, alike.second⟩
  rw [Register.assign, Register.assign, alike.owners]

theorem Alike.setSlots (a b : Slots S) (slots : a.Alike Like b) : Alike p p' { r with slots := a } { r' with slots := b } :=
  ⟨slots, alike.owners, alike.home, alike.qudits, alike.split, alike.tolerance, alike.first, alike.second⟩

theorem Alike.replace (hs : List ℕ) (t u : S) (like : Like t u) :
    (r'.replace hs u).1 = (r.replace hs t).1 ∧ Alike p p' (r.replace hs t).2 (r'.replace hs u).2 := by
  have spots := (alike.slots.released hs).alloc t u like
  rw [Register.replace, Register.replace, like.qudits]
  generalize (hs.foldl Slots.release r.slots).alloc t = first at spots ⊢
  generalize (hs.foldl Slots.release r'.slots).alloc u = second at spots ⊢
  obtain ⟨h, slots⟩ := first
  obtain ⟨k, slots'⟩ := second
  obtain ⟨rfl, related⟩ := spots
  exact ⟨rfl, (alike.setSlots slots slots' related).assign _ k⟩

variable [Scalar R] [UniformRepresentation R S]

theorem Alike.product (first first' : S) (hs : List ℕ) (like : Like first first') :
    Agree Like (r.product first hs) (r'.product first' hs) := by
  induction hs generalizing first first' with
  | nil => exact agree_ok _ _ like
  | cons h hs ih =>
      refine agree_bind (alike.state h) fun t t' _ _ held => ?_
      exact agree_bind (UniformRepresentation.agree_kronecker first first' t t' like held) fun u u' _ _ joined => ih u u' joined

/-! Changes of the partition. -/

-- Registers that are left alike, by changes that report the same.
def Moved {α : Type} (p p' : Wiring) (m m' : α × Register R S) : Prop := m'.1 = m.1 ∧ Alike p p' m.2 m'.2

theorem Alike.merge (qs : List Qudit) : Agree (Moved p p') (r.merge qs) (r'.merge qs) := by
  rw [Register.merge, Register.merge, alike.ownersOf, alike.home]
  refine agree_bind (agree_refl _) fun hs _ _ _ same => ?_
  subst same
  match hs with
  | [] => exact agree_ok _ _ ⟨rfl, alike⟩
  | [h] => exact agree_ok _ _ ⟨rfl, alike⟩
  | h :: k :: rest =>
      refine agree_bind (alike.state h) fun t t' _ _ like => ?_
      exact agree_bind (alike.product t t' (k :: rest) like) fun u u' _ _ joined => agree_ok _ _ (alike.replace _ u u' joined)

theorem Alike.splitOff (q : Qudit) : Agree (Alike p p') (r.splitOff q) (r'.splitOff q) := by
  rw [Register.splitOff, Register.splitOff, alike.owner]
  refine agree_bind (agree_refl _) fun h _ _ _ same => ?_
  subst same
  refine agree_bind (alike.state h) fun t t' _ _ like => ?_
  rw [like.qudits]
  split
  · exact agree_ok _ _ alike
  · have parts := UniformRepresentation.agree_factor t t' [q] false r.tolerance like
    nth_rewrite 2 [← alike.tolerance] at parts
    refine agree_bind parts ?_
    rintro ⟨single, rest⟩ ⟨single', rest'⟩ _ _ ⟨one, others⟩
    have spots := (alike.slots.put h rest rest' others).alloc single single' one
    dsimp only
    generalize (r.slots.put h rest).alloc single = first at spots ⊢
    generalize (r'.slots.put h rest').alloc single' = second at spots ⊢
    obtain ⟨k, slots⟩ := first
    obtain ⟨j, slots'⟩ := second
    obtain ⟨rfl, related⟩ := spots
    exact agree_ok _ _ ((alike.setSlots slots slots' related).assign [q] j)

theorem Alike.splitAll (qs : List Qudit) :
    (r'.splitAll qs).1 = (r.splitAll qs).1 ∧ Alike p p' (r.splitAll qs).2 (r'.splitAll qs).2 := by
  induction qs generalizing r r' with
  | nil => exact ⟨rfl, alike⟩
  | cons q qs ih =>
      rw [Register.splitAll, Register.splitAll]
      obtain ⟨s, s', done, done', after⟩ | ⟨e, failed, failed'⟩ := alike.splitOff q
      · rw [done, done']
        exact ih after
      · rw [failed, failed']
        exact ⟨rfl, alike⟩

theorem Alike.reframe (h : ℕ) (change : Frame → Except (SimError R) Frame)
    (fits : ∀ t f, r.slots.get? h = some t → change (frame t) = .ok f → f.Exact ∧ f.dims = (frame t).dims)
    (changes : ∀ f g : Frame, f.Alike g → Agree Frame.Alike (change f) (change g)) :
    Agree (Alike p p') (r.reframe h change) (r'.reframe h change) := by
  rw [Register.reframe, Register.reframe]
  refine agree_bind (alike.state h) fun t t' found _ like => ?_
  refine agree_bind (changes _ _ like.labels) fun f g changed _ labels => ?_
  obtain ⟨exact, dims⟩ := fits t f (live_of_state r h t found) changed
  have put := alike.slots.put h _ _ (UniformRepresentation.like_setFrame t t' f g like exact labels dims)
  exact agree_ok _ _ (alike.setSlots _ _ put)

theorem Alike.exchange {s : Settings R} (valid : Arena s r) (a b : Qudit) :
    Agree (Alike p p') (r.exchange a b) (r'.exchange a b) := by
  rw [Register.exchange, Register.exchange, alike.owner, alike.owner]
  split
  · exact agree_error _
  · rename_i flat
    have flat : a.dim = b.dim := not_not.mp flat
    refine agree_bind (agree_refl _) fun h _ _ _ same => ?_
    subst same
    refine agree_bind (agree_refl _) fun k _ _ _ same => ?_
    subst same
    split
    · refine alike.reframe h _ (fun t f live swapped => ?_) fun f g labels => labels.swapLabels a b
      have exact := valid.exact h t live
      exact ⟨(Frame.swapLabels_exact exact a b swapped).1, Frame.swapLabels_dims exact a b flat swapped⟩
    · rename_i different
      refine agree_bind (alike.reframe h _ (fun t f live renamed => ?_) fun f g labels => labels.rename a b)
        fun r₁ r₁' first _ between => ?_
      · have exact := valid.exact h t live
        exact ⟨(Frame.rename_exact exact a b renamed).1, Frame.rename_dims exact a b flat renamed⟩
      · refine agree_bind (between.reframe k _ (fun t f live renamed => ?_) fun f g labels => labels.rename b a)
          fun r₂ r₂' _ _ after => ?_
        · -- The state behind the other handle is still the one before.
          rw [reframe_other r h k _ r₁ first (Ne.symm different)] at live
          have exact := valid.exact k t live
          exact ⟨(Frame.rename_exact exact b a renamed).1, Frame.rename_dims exact b a flat.symm renamed⟩
        · exact agree_ok _ _ ((after.assign [a] k).assign [b] h)

/-! Questions. -/

theorem Alike.merged : Agree (fun t u => content t = content u) r.merged r'.merged := by
  rw [Register.merged, Register.merged, alike.qudits, alike.ownersOf, alike.home]
  refine agree_bind (agree_refl _) fun hs _ _ _ same => ?_
  subst same
  refine agree_bind (alike.state r.home) fun t t' _ _ like => ?_
  refine agree_bind (alike.product t t' _ like) fun u u' _ _ joined => ?_
  exact UniformRepresentation.agree_transposed u u' r.qudits joined

theorem Alike.groupRows (repetitions : ℕ) (groups : List (ℕ × List Qudit)) (common : Random.Source) :
    Agree Eq (r.groupRows repetitions groups common) (r'.groupRows repetitions groups common) := by
  induction groups generalizing common with
  | nil => exact agree_refl _
  | cons g groups ih =>
      obtain ⟨h, qs⟩ := g
      refine agree_bind (alike.state h) fun t t' _ _ like => ?_
      have rows := SimError.agree_of_eq (Representation.same_rows t t' like qs repetitions (Random.drawDouble common).1).symm
      refine agree_bind rows fun rows _ _ _ same => ?_
      subst same
      exact agree_bind (ih _) fun more _ _ _ same => same ▸ agree_refl _

theorem Alike.rows (qs : List Qudit) (repetitions seed : ℕ) : r'.rows qs repetitions seed = r.rows qs repetitions seed := by
  refine (SimError.Agree.eq ?_).symm
  rw [Register.rows, Register.rows, alike.grouped]
  refine agree_bind (agree_refl _) fun a _ _ _ same => ?_
  subst same
  exact agree_bind (alike.groupRows repetitions a.groups _) fun samples _ _ _ same => same ▸ agree_refl _

end Register

end QuantumRegister
