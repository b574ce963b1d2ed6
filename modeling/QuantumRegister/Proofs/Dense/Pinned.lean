import QuantumRegister.Proofs.Dense.Perform
import QuantumRegister.Register.Run

/-!
Qudits that have been measured or reset have one value left: wherever the wave function does not
vanish, they have the same one.
-/

set_option autoImplicit false

namespace QuantumRegister

open QuantumRegister.MixedRadix
open QuantumRegister.Assignment
open QuantumRegister.Dense
open QuantumRegister.Representation (performAs)

namespace Dense

def Pinned (L : List Qudit) (F : Assignment → ℂ) (q : Qudit) : Prop := ∃ v, ∀ σ, Within L σ → F σ ≠ 0 → σ q = v

theorem sumOver_support (qs : List Qudit) (F : Assignment → ℂ) (σ : Assignment) (once : qs.Nodup) (some : sumOver qs F σ ≠ 0) :
    ∃ τ, Within qs τ ∧ (∀ q, q ∉ qs → τ q = σ q) ∧ F τ ≠ 0 := by
  by_contra none
  refine some ((sumOver_congr qs F (fun _ => 0) σ once fun τ within same => ?_).trans ?_)
  · by_contra nonzero
    exact none ⟨τ, within, same, nonzero⟩
  · rw [sumOver_spread qs _ σ once]
    exact Finset.sum_const_zero

theorem acted_support (L qs : List Qudit) (m : Operator ℝ) (F : Assignment → ℂ) (σ : Assignment) (once : qs.Nodup)
    (within : Within L σ) (some : acted qs m F σ ≠ 0) :
    ∃ τ, Within L τ ∧ (∀ q, q ∉ qs → τ q = σ q) ∧ (m.entry (index qs σ) (index qs τ)).toComplex ≠ 0 ∧ F τ ≠ 0 := by
  obtain ⟨τ, inside, same, nonzero⟩ := sumOver_support qs _ σ once some
  refine ⟨τ, fun q listed => ?_, same, left_ne_zero_of_mul nonzero, right_ne_zero_of_mul nonzero⟩
  by_cases target : q ∈ qs
  · exact inside q target
  · rw [same q target]
    exact within q listed

theorem Pinned.acted {L qs : List Qudit} {F : Assignment → ℂ} {q : Qudit} (pinned : Pinned L F q) (m : Operator ℝ)
    (once : qs.Nodup) (other : q ∉ qs) : Pinned L (acted qs m F) q := by
  obtain ⟨v, only⟩ := pinned
  refine ⟨v, fun σ within nonzero => ?_⟩
  obtain ⟨τ, inside, same, -, held⟩ := acted_support L qs m F σ once within nonzero
  rw [← same q other]
  exact only τ inside held

-- A factor shows what is known of its qudits, since the other factor does not vanish.
theorem Pinned.factor {L M N : List Qudit} {F g h : Assignment → ℂ} {q : Qudit} (pinned : Pinned L F q)
    (split : ∀ σ, Within L σ → F σ = g σ * h σ) (cover : ∀ p ∈ L, p ∈ M ∨ p ∈ N) (apart : ∀ p ∈ N, p ∉ M) (near : DependsOn M g)
    (far : DependsOn N h) (owns : q ∈ M) (some : ∃ τ, Within N τ ∧ h τ ≠ 0) : Pinned M g q := by
  obtain ⟨v, only⟩ := pinned
  obtain ⟨τ, within, nonzero⟩ := some
  refine ⟨v, fun σ held some => ?_⟩
  let κ : Assignment := fun p => if p ∈ M then σ p else τ p
  have own : ∀ p ∈ M, κ p = σ p := fun p member => if_pos member
  have other : ∀ p ∈ N, κ p = τ p := fun p member => if_neg (apart p member)
  have both : Within L κ := by
    intro p listed
    obtain mine | its := cover p listed
    · rw [own p mine]
      exact held p mine
    · rw [other p its]
      exact within p its
  rw [← own q owns]
  refine only κ both ?_
  rw [split κ both, near κ σ own, far κ τ other]
  exact mul_ne_zero some nonzero

theorem index_single (q : Qudit) (σ : Assignment) : index [q] σ = σ q := by
  rw [index_cons]
  exact Nat.mul_one _

theorem index_pair (p q : Qudit) (σ : Assignment) : index [p, q] σ = σ p * q.dim + σ q := by
  rw [index_cons, index_single, Qudit.dims_cons, size_cons]
  exact congrArg (fun d => σ p * d + σ q) (Nat.mul_one q.dim)

theorem Pinned.exchange {L : List Qudit} {F : Assignment → ℂ} {q : Qudit} (pinned : Pinned L F q) (listed : q ∈ L) (a b : ℕ) :
    Pinned L (Dense.acted [q] (Operator.exchange q.dim a b) F) q := by
  obtain ⟨v, only⟩ := pinned
  refine ⟨if v = a then b else if v = b then a else v, fun σ within nonzero => ?_⟩
  obtain ⟨τ, inside, -, entry, held⟩ := acted_support L [q] _ F σ (List.nodup_singleton q) within nonzero
  rw [index_single, index_single, Operator.exchange, Operator.entry_tabulate _ _ _ _ _ (within q listed) (inside q listed),
    only τ inside held, Operator.toComplex_indicator] at entry
  by_contra different
  exact entry (if_neg different)

end Dense

namespace DenseState

variable {α β : Type} {P Q T : DenseState ℝ → Prop}

def Leaves (P : DenseState ℝ → Prop) (step : Step ℝ (DenseState ℝ) α) (Q : DenseState ℝ → Prop) : Prop :=
  ∀ b, P b.state → ∀ v, (step b).1 = .ok v → Q (step b).2.state

theorem leaves_bind {step : Step ℝ (DenseState ℝ) α} {next : α → Step ℝ (DenseState ℝ) β} (first : Leaves P step Q)
    (rest : ∀ v, Leaves Q (next v) T) : Leaves P (step >>= next) T := by
  intro b before w found
  rw [Step.bind_apply] at found ⊢
  have middle := first b before
  generalize step b = outcome at middle found ⊢
  obtain ⟨r, b'⟩ := outcome
  cases r with
  | error e => cases found
  | ok v => exact rest v b' (middle v rfl) w found

theorem leaves_get (next : Bench (DenseState ℝ) → Step ℝ (DenseState ℝ) α) (rest : ∀ b, P b.state → Leaves P (next b) Q) :
    Leaves P (get >>= next) Q := fun b before => rest b before b before

theorem leaves_setState (ψ : DenseState ℝ) (after : Q ψ) : Leaves P (Step.setState ψ) Q := fun _ _ _ _ => after

theorem leaves_pure (v : α) : Leaves P (pure v) P := fun _ before _ _ => before

theorem leaves_draw (d : Random.Draw α) : Leaves P (Step.draw d) P := fun _ before _ _ => before

theorem leaves_edit (e : Log.Edit ℝ α) : Leaves P (Step.edit e) P := by
  intro b before v _
  rw [Step.edit_apply]
  exact before

theorem leaves_ofExcept (r : Except (SimError ℝ) α) (next : α → Step ℝ (DenseState ℝ) β)
    (rest : ∀ v, r = .ok v → Leaves P (next v) Q) : Leaves P (Step.ofExcept r >>= next) Q := by
  cases r with
  | ok v => exact rest v rfl
  | error e =>
      intro b _ w found
      cases found

/-! What a product with a matrix leaves. -/

structure Multiplied (qs : List Qudit) (m : Operator ℝ) (ψ φ : DenseState ℝ) : Prop where
  square : Operator.checkSquare qs m = .ok ()
  axes : ∃ axes, Picks ψ.frame.qudits qs axes
  frame : φ.frame = ψ.frame
  full : φ.amplitudes.size = size ψ.frame.dims
  wave : ∀ σ, Within ψ.frame.qudits σ →
    Dense.wave ψ.frame.qudits φ.amplitudes σ = acted qs m (Dense.wave ψ.frame.qudits ψ.amplitudes) σ

theorem multiplied_of (ψ φ : DenseState ℝ) (qs : List Qudit) (m : Operator ℝ) (exact : ψ.frame.Exact)
    (positive : ∀ q ∈ ψ.frame.qudits, 0 < q.dim) (full : ψ.amplitudes.size = size ψ.frame.dims)
    (applied : ψ.applyMatrix qs m = .ok φ) : Multiplied qs m ψ φ := by
  rw [applyMatrix] at applied
  cases fits : Operator.checkSquare qs m with
  | error e =>
      rw [fits] at applied
      cases applied
  | ok u =>
      rw [fits, layout] at applied
      cases found : ψ.frame.axes (R := ℝ) qs with
      | error e =>
          rw [found] at applied
          cases applied
      | ok axes =>
          rw [found] at applied
          cases applied
          have picks := exact.picks qs axes found
          have scratch := ψ.buffers.scratch_size.trans full
          refine ⟨fits, ⟨axes, picks⟩, rfl, ?_, wave_contract picks positive m ψ.amplitudes ψ.buffers.scratch scratch⟩
          exact (Layout.contract_size ..).trans scratch

theorem applyMatrix_done (ψ : DenseState ℝ) (qs : List Qudit) (m : Operator ℝ) (exact : ψ.frame.Exact) (once : qs.Nodup)
    (inside : qs ⊆ ψ.frame.qudits) (square : Operator.checkSquare qs m = .ok ()) : ∃ φ, ψ.applyMatrix qs m = .ok φ := by
  obtain ⟨axes, found⟩ := exact.axes_found (R := ℝ) qs once inside
  rw [applyMatrix, square, layout, found]
  exact ⟨_, rfl⟩

structure Settled (F : Frame) (qs : List Qudit) (ψ : DenseState ℝ) : Prop where
  frame : ψ.frame = F
  full : ψ.amplitudes.size = size F.dims
  pinned : ∀ q ∈ qs, Pinned F.qudits (Dense.wave F.qudits ψ.amplitudes) q

variable {F : Frame} (exact : F.Exact) (positive : ∀ q ∈ F.qudits, 0 < q.dim)

include exact

theorem settles_observe (ps qs : List Qudit) :
    Leaves (Settled F ps) (observe qs : Step ℝ (DenseState ℝ) (List ℕ)) (Settled F (qs ++ ps)) := by
  refine leaves_get _ fun b settled => leaves_ofExcept _ _ fun axes found => leaves_bind (leaves_draw _) fun k => ?_
  refine leaves_bind (leaves_setState _ ?_) fun _ => leaves_pure _
  rw [settled.frame] at found
  have picks := exact.picks qs axes found
  have length : (digits (Qudit.dims qs) k).length = qs.length := by rw [digits_length, Qudit.dims_length]
  have projected := wave_project picks (digits (Qudit.dims qs) k) ((b.state.marginal axes).getD k 0) b.state.amplitudes settled.full
    length
  rw [collapsed, settled.frame]
  refine ⟨settled.frame, Array.size_ofFn.trans settled.full, fun q listed => ?_⟩
  rcases List.mem_append.mp listed with measured | before
  · refine ⟨spread qs (fun _ => 0) k q, fun σ within nonzero => ?_⟩
    have agrees : qs.map σ = digits (Qudit.dims qs) k := by
      by_contra differs
      exact nonzero ((projected σ within).trans (if_neg differs))
    rw [← map_spread qs (fun _ => 0) k picks.nodup] at agrees
    exact List.map_inj_left.mp agrees q measured
  · obtain ⟨v, only⟩ := settled.pinned q before
    refine ⟨v, fun σ within nonzero => only σ within fun zero => nonzero ((projected σ within).trans ?_)⟩
    rw [zero, zero_mul, ite_self]

include positive

theorem settled_exchange (ps : List Qudit) (q : Qudit) (a b : ℕ) (ψ φ : DenseState ℝ) (settled : Settled F ps ψ)
    (applied : ψ.applyMatrix [q] (Operator.exchange q.dim a b) = .ok φ) : Settled F ps φ := by
  obtain ⟨rfl, full, pinned⟩ := settled
  obtain ⟨-, ⟨axes, picks⟩, frame, fits, moved⟩ := multiplied_of ψ φ [q] _ exact positive full applied
  refine ⟨frame, fits, fun p listed => ?_⟩
  have kept : Pinned ψ.frame.qudits (acted [q] (Operator.exchange q.dim a b) (Dense.wave ψ.frame.qudits ψ.amplitudes)) p := by
    by_cases same : p = q
    · subst same
      exact (pinned p listed).exchange (picks.subset List.mem_cons_self) a b
    · exact (pinned p listed).acted _ (List.nodup_singleton q) (by simpa using same)
  obtain ⟨v, only⟩ := kept
  exact ⟨v, fun σ within nonzero => only σ within fun zero => nonzero ((moved σ within).trans zero)⟩

theorem settles_resetOne (ps : List Qudit) (q : Qudit) :
    Leaves (Settled F ps) (resetOne q : Step ℝ (DenseState ℝ) Unit) (Settled F (q :: ps)) := by
  refine leaves_bind (settles_observe exact ps [q]) fun values => ?_
  dsimp only
  split
  · refine leaves_get _ fun b settled => leaves_ofExcept _ _ fun φ applied => leaves_setState φ ?_
    exact settled_exchange exact positive _ q _ _ b.state φ settled applied
  · exact leaves_pure ()

theorem settles_reset (qs : List Qudit) :
    Leaves (Settled F []) (reset qs : Step ℝ (DenseState ℝ) Unit) (Settled F qs) := by
  have each : ∀ rest done : List Qudit,
      Leaves (Settled F done) (rest.forM resetOne : Step ℝ (DenseState ℝ) Unit) (Settled F (rest.reverse ++ done)) := by
    intro rest
    induction rest with
    | nil => exact fun done => leaves_pure ()
    | cons q rest ih =>
        intro done
        rw [List.reverse_cons, List.append_assoc]
        exact leaves_bind (settles_resetOne exact positive done q) fun _ => ih (q :: done)
  refine leaves_get _ fun b _ => leaves_ofExcept _ _ fun _ _ => ?_
  intro b before v found
  have settled := each qs [] b before v found
  exact ⟨settled.frame, settled.full, fun q listed => settled.pinned q (by simpa using listed)⟩

omit positive in
theorem settles_measure (m : Measurement ℝ) (collapses : m.collapses = true) :
    Leaves (Settled F []) (Representation.measure m : Step ℝ (DenseState ℝ) (List ℕ)) (Settled F m.qudits) := by
  refine leaves_get _ fun b _ => leaves_ofExcept _ _ fun _ _ => ?_
  have observed : Leaves (Settled F []) (Representation.rawOutcome m : Step ℝ (DenseState ℝ) (List ℕ)) (Settled F m.qudits) := by
    have seen := settles_observe exact [] m.qudits
    rw [List.append_nil] at seen
    rw [Representation.rawOutcome, if_pos collapses]
    exact seen
  refine leaves_bind observed fun raw => leaves_bind (leaves_draw _) fun corrected => ?_
  exact leaves_ofExcept _ _ fun values _ => leaves_bind (leaves_edit _) fun _ => leaves_pure values

theorem settles_performAs {op : Operation ℝ} (built : Operation.Built F.qudits op) (collapses : op.collapses = true)
    (name : String) :
    Leaves (Settled F []) (performAs name op.qudits op : Step ℝ (DenseState ℝ) Unit) (Settled F op.qudits) := by
  cases built with
  | gate g names => cases collapses
  | measurement m names =>
      rw [Measurement.operation, performAs]
      exact leaves_bind (settles_measure exact m collapses) fun _ => leaves_pure ()
  | reset qs names =>
      rw [Operation.reset, performAs]
      exact settles_reset exact positive qs
  | mixture m names unitary => cases collapses
  | kraus c names => cases collapses
  | composite label ops parts => cases collapses
  | controlled key op inner => cases collapses

end DenseState

end QuantumRegister
