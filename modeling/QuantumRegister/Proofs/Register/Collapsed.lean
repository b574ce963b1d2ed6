import QuantumRegister.Proofs.Dense.Collapse
import QuantumRegister.Proofs.Register.Relabel
import QuantumRegister.Proofs.Register.Splitting
import QuantumRegister.Proofs.Register.Unsplit

/-!
Splitting off qudits that have one value left does not show in the joint state of a register. The split
is asked for by what an operation offers, and the qudits have one value left by what it is resolved into:
where the two agree the split makes no difference, and where they do not it can.
-/

set_option autoImplicit false

namespace QuantumRegister

open QuantumRegister.MixedRadix
open QuantumRegister.Assignment
open QuantumRegister.Dense (Pinned)
open QuantumRegister.DenseState (Sound Collapsed)
open QuantumRegister.Readable (Full)
open QuantumRegister.Representation (bench perform routes run)

namespace Register

variable {s : Settings ℝ} {r r' : Register ℝ (DenseState ℝ)} {qs : List Qudit} {p q : Qudit}

def Pins (r : Register ℝ (DenseState ℝ)) (q : Qudit) : Prop :=
  ∃ h t, r.slots.get? h = some t ∧ q ∈ t.frame.qudits ∧ Sound t ∧ Pinned t.frame.qudits t.wave q

structure Regroups (r r' : Register ℝ (DenseState ℝ)) : Prop where
  qudits : r'.qudits = r.qudits
  source : r'.source = r.source
  log : r'.log = r.log
  joint : ∀ σ, Within r.qudits σ → r'.slots.joint σ = r.slots.joint σ

theorem Regroups.trans {r'' : Register ℝ (DenseState ℝ)} (first : Regroups r r') (second : Regroups r' r'') : Regroups r r'' where
  qudits := second.qudits.trans first.qudits
  source := second.source.trans first.source
  log := second.log.trans first.log
  joint σ within := (second.joint σ (first.qudits.symm ▸ within)).trans (first.joint σ within)

/-! Splitting off. -/

theorem splitOff_kept (done : r.splitOff q = .ok r') : r'.qudits = r.qudits ∧ r'.source = r.source ∧ r'.log = r.log := by
  obtain ⟨h, -, done⟩ := SimError.bind_ok done
  obtain ⟨t, -, done⟩ := SimError.bind_ok done
  split at done
  · cases done
    exact ⟨rfl, rfl, rfl⟩
  · obtain ⟨parts, -, done⟩ := SimError.bind_ok done
    cases done
    exact ⟨rfl, rfl, rfl⟩

theorem Arena.detached_pins (valid : Arena s r) (detached : Detached r r' q) (pins : r.Pins q) :
    (∀ σ, Within r.qudits σ → r'.slots.joint σ = r.slots.joint σ) ∧ ∀ p, p ≠ q → r.Pins p → r'.Pins p := by
  cases detached with
  | alone h t here only same => exact same ▸ ⟨fun _ _ => rfl, fun _ _ pinned => pinned⟩
  | parted h x t single rest here owns vacant factored first second length read =>
      obtain ⟨k, u, there, own, sound, pinned⟩ := pins
      obtain rfl := valid.once q h k t u here there owns own
      obtain rfl : t = u := Option.some.inj (here.symm.trans there)
      obtain ⟨_, _, factored', soundSingle, soundRest, wave⟩ := DenseState.factor_pinned t sound q owns pinned r.tolerance
      cases factored.symm.trans factored'
      refine ⟨fun σ within => ?_, fun p other ⟨j, u, live, member, soundOther, pinnedOther⟩ => ?_⟩
      · refine detached_joint r.slots r'.slots h x t single rest here vacant length read σ (wave σ fun p member => within p ?_)
        exact valid.listed p h t here member
      · have used : j ≠ x := (vacant_ne r.slots j x u live vacant).symm
        by_cases atOld : j = h
        · subst atOld
          obtain rfl : t = u := Option.some.inj (here.symm.trans live)
          have kept : p ∈ rest.frame.qudits := (second p).mpr ⟨member, other⟩
          replace first : single.frame.qudits = [q] := first
          refine ⟨j, rest, by rw [read, if_neg used, if_pos rfl], kept, soundRest, ?_⟩
          refine pinnedOther.factor (fun σ within => (wave σ within).trans (mul_comm _ _)) (fun p listed => ?_) (fun p alone left => ?_)
            (DenseState.wave_depends rest) (DenseState.wave_depends single) kept soundSingle.support
          · by_cases isOwn : p = q
            · exact Or.inr (by rw [first, isOwn]; exact List.mem_cons_self)
            · exact Or.inl ((second p).mpr ⟨listed, isOwn⟩)
          · exact ((second p).mp left).2 (List.mem_singleton.mp (first ▸ alone))
        · exact ⟨j, u, by rw [read, if_neg used, if_neg atOld, live], member, soundOther, pinnedOther⟩

theorem Arena.splitAll_regroups (valid : Arena s r) (split : r.split = true) (once : qs.Nodup) (pins : ∀ q ∈ qs, r.Pins q)
    (done : (r.splitAll qs).1 = .ok ()) : Arena s (r.splitAll qs).2 ∧ Regroups r (r.splitAll qs).2 := by
  induction qs generalizing r with
  | nil => exact ⟨valid, rfl, rfl, rfl, fun _ _ => rfl⟩
  | cons q qs ih =>
      rw [Register.splitAll] at done ⊢
      cases first : r.splitOff q with
      | error e =>
          rw [first] at done
          cases done
      | ok r' =>
          rw [first] at done
          have after := (valid.splitOff split q).2 r' first
          have still : r'.split = true := after.mode.trans (valid.mode.symm.trans split)
          obtain ⟨other, later⟩ := List.nodup_cons.mp once
          obtain ⟨qudits, source, log⟩ := splitOff_kept first
          obtain ⟨joint, kept⟩ := valid.detached_pins (valid.splitOff_detached split first) (pins q List.mem_cons_self)
          have between : Regroups r r' := ⟨qudits, source, log, joint⟩
          obtain ⟨final, regroups⟩ := ih after still later (fun p member =>
            kept p (fun same => other (same ▸ member)) (pins p (List.mem_cons_of_mem q member))) done
          exact ⟨final, between.trans regroups⟩

/-! The joint state. -/

theorem Arena.merged_frame (valid : Arena s r) {m : DenseState ℝ} (done : r.merged = .ok m) :
    m = DenseState.ofLive ⟨r.qudits, Frame.placesFrom 0 r.qudits [], r.source, r.log⟩ m.amplitudes := by
  obtain ⟨hs, found, done⟩ := SimError.bind_ok done
  obtain ⟨first, atHome, done⟩ := SimError.bind_ok done
  obtain ⟨v, made, done⟩ := SimError.bind_ok done
  have here := live_of_state r r.home first atHome
  have live : ∀ h ∈ hs.filter (· != r.home), ∃ t, r.slots.get? h = some t := fun h member =>
    ((valid.everyone hs found).2 h).mp (List.mem_cons_of_mem _ member)
  obtain ⟨-, -, source, log⟩ := (product_exact r first _ live (valid.exact r.home first here)).2 v made
  obtain ⟨wiredSource, wiredLog⟩ := valid.wired r.home first here
  obtain ⟨axes, -, done⟩ := SimError.bind_ok done
  obtain ⟨f, framed, done⟩ := SimError.bind_ok done
  have distinct := Frame.of_distinct (R := ℝ) r.qudits v.frame.source v.frame.log valid.canonical
  cases framed.symm.trans distinct
  cases done
  rw [show v.frame.source = r.source from source.trans wiredSource, show v.frame.log = r.log from log.trans wiredLog]
  rfl

theorem Regroups.merged (regroups : Regroups r r') (valid : Arena s r) (after : Arena s r') (full : r.slots.Each Full)
    (full' : r'.slots.Each Full) (positive : ∀ q ∈ r.qudits, 0 < q.dim) :
    ∃ m, r.merged = .ok m ∧ r'.merged = .ok m := by
  obtain ⟨m, done, fits, order, value⟩ := DenseState.merges_full.merged valid full.get
  obtain ⟨n, done', fits', order', value'⟩ := DenseState.merges_full.merged after full'.get
  replace order : m.frame.qudits = r.qudits := order
  replace order' : n.frame.qudits = r.qudits := Eq.trans order' regroups.qudits
  have same : n.amplitudes = m.amplitudes := by
    refine Dense.wave_injective r.qudits _ _ valid.canonical positive (order' ▸ fits'.2) (order ▸ fits.2) fun σ within => ?_
    have left := value' σ (regroups.qudits.symm ▸ within)
    have right := value σ within
    rw [DenseState.wave, order'] at left
    rw [DenseState.wave, order] at right
    exact left.trans ((regroups.joint σ within).trans right.symm)
  refine ⟨m, done, done'.trans (congrArg _ ?_)⟩
  rw [after.merged_frame done', valid.merged_frame done, regroups.qudits, regroups.source, regroups.log, same]

theorem Arena.merged_alone (valid : Arena s r) (full : r.slots.Each Full) (alone : [q] ∈ r.groups) {m : DenseState ℝ}
    (done : r.merged = .ok m) : ∃ (f : ℕ → ℂ) (g : Assignment → ℂ), (∀ σ v, g (Function.update σ q v) = g σ)
      ∧ ∀ σ, Within r.qudits σ → m.wave σ = f (σ q) * g σ := by
  obtain ⟨t, live, own⟩ := List.mem_map.mp alone
  replace own : t.frame.qudits = [q] := own
  obtain ⟨x, here⟩ := (Slots.mem_live _ t).mp live
  obtain ⟨_, done', -, -, value⟩ := DenseState.merges_full.merged valid full.get
  cases done.symm.trans done'
  refine ⟨fun v => t.wave fun _ => v, r.rest x, fun σ v => ?_, fun σ within => ?_⟩
  · refine valid.rest_depends x t here _ _ fun p member => Function.update_of_ne (fun same => ?_) _ _
    exact ((Dense.mem_others _ _ p).mp member).2 (by rw [own, same]; exact List.mem_cons_self)
  · have near : t.wave σ = t.wave fun _ => σ q := DenseState.wave_depends t _ _ fun p member => by
      rw [own, List.mem_singleton] at member
      rw [member]
    exact (value σ within).trans ((joint_split r x t here σ).trans (congrArg (· * r.rest x σ) near))

/-! Operations. -/

variable {w w' m : Workspace ℝ (DenseState ℝ)} {op : Operation ℝ}

theorem Arena.work_pins (valid : Arena s w.register) (sound : ∀ h t, w.register.slots.get? h = some t → Sound t)
    (inside : op.qudits ⊆ w.register.qudits) (settles : op.Settles (w.cells.log w.register.log) (routes (DenseState ℝ)))
    (worked : work op w = (.ok (), m)) : ∀ q ∈ op.qudits, m.register.Pins q := by
  obtain ⟨h, w₁, changed, ran⟩ := act_bind_done worked
  obtain ⟨r₁, merged, rfl⟩ := change_done changed
  obtain ⟨_, _, t, merged', here, kept⟩ := valid.merge_done DenseState.joins_sound sound inside
  cases merged.symm.trans merged'
  obtain ⟨after, u, here', owns⟩ := (valid.merge op.qudits).2 _ merged
  obtain rfl : t = u := Option.some.inj (here.symm.trans here')
  obtain ⟨u, b, live, stepped, register⟩ := runOn_done ran
  obtain rfl : t = u := Option.some.inj (here.symm.trans live)
  have log : (bench t w.cells).log = w.cells.log w.register.log :=
    congrArg w.cells.log ((after.wired h t here).2.trans kept.log)
  have left := DenseState.collapsed_performAs op.name (bench t w.cells) ⟨kept.fits h t here, rfl⟩ (log ▸ settles) (congrArg Prod.fst stepped)
  rw [perform] at stepped
  rw [stepped] at left
  have order : b.state.frame.qudits = t.frame.qudits := congrArg Frame.qudits left.frame
  intro q listed
  refine ⟨h, b.state, ?_, ?_, left.toSound, ?_⟩
  · rw [register]
    exact (Slots.get?_put _ _ _ _ (Slots.get?_inside _ _ _ here)).trans (if_pos rfl)
  · rw [order]
    exact owns q listed
  · rw [order]
    exact left.pinned q listed

theorem Divided.merged (divided : Divided op w m w') (reached : Reached s w)
    (sound : ∀ h t, w.register.slots.get? h = some t → Sound t) (names : Names w.register.qudits op.qudits)
    (settles : op.Settles (w.cells.log w.register.log) (routes (DenseState ℝ))) :
    ∃ n, m.register.merged = .ok n ∧ w'.register.merged = .ok n := by
  obtain ⟨split, -, worked, done, parted⟩ := divided
  obtain ⟨_, _, worked', valid, full, -⟩ := reached.arena.work_between DenseState.merges_full.toJoins DenseState.durable_full
    (reached.each DenseState.durable_full) names.inside
  cases worked.symm.trans worked'
  obtain ⟨after, regroups⟩ := valid.splitAll_regroups split names.once (reached.arena.work_pins sound names.inside settles worked) done
  have order : m.register.qudits = w.register.qudits := reached.arena.qudits_kept valid
  rw [parted]
  exact regroups.merged valid after full (each_splitAll DenseState.durable_full full op.qudits) (order ▸ reached.positive)

end Register

open Register

theorem split_keeps_joint_state {s : Settings ℝ} {w w' : Workspace ℝ (DenseState ℝ)} {op : Operation ℝ} (reached : Reached s w)
    (unit : ∀ t ∈ w.register.states, t.normSq = 1) (names : Names w.register.qudits op.qudits)
    (settles : op.Unites w.register.qudits → op.collapses = true →
      op.Settles (w.cells.log w.register.log) (routes (DenseState ℝ)))
    (done : apply op w = (.ok (), w')) :
    ∃ v n, apply op w.unsplit = (.ok (), v) ∧ v.cells = w'.cells ∧ v.register.merged = .ok n ∧ w'.register.merged = .ok n := by
  have full := reached.each DenseState.durable_full
  have sound : ∀ h t, w.register.slots.get? h = some t → Sound t := fun h t here =>
    ⟨(full.get h t here).1, (full.get h t here).2, unit t ((Slots.mem_live _ t).mpr ⟨h, here⟩)⟩
  obtain ⟨m, unsplit, whole | ⟨acts, joint, divided⟩⟩ := apply_unsplit done
  · have after : Reached s w' := by
      have next := Reached.apply w op reached
      rwa [done] at next
    obtain ⟨n, merged, -⟩ := DenseState.merges_full.merged after.arena (after.each DenseState.durable_full).get
    subst whole
    exact ⟨w'.unsplit, n, unsplit, rfl, (merged_unsplit w'.register).trans merged, merged⟩
  · obtain ⟨n, before, after⟩ := divided.merged reached sound names (settles ⟨acts, joint, names⟩ divided.collapses)
    exact ⟨m.unsplit, n, unsplit, by rw [divided.parted]; rfl, (merged_unsplit m.register).trans before, after⟩

/-! Two qubits in the same superposed value. -/

theorem DenseState.run_gate (g : Gate ℝ) (acts : g.isIdentity = false) {ψ : DenseState ℝ} (sound : Sound ψ)
    (names : Names ψ.frame.qudits g.targets) (fits : Operator.checkSquare g.targets (g.matrix : Operator ℝ) = .ok ())
    (rows : (g.matrix : Operator ℝ).rows = size (Qudit.dims g.targets)) (c : Cells) :
    ∃ φ, run (perform g.operation) ψ c = (.ok (), φ, c) ∧ Sound φ ∧ Multiplied g.targets g.matrix ψ φ := by
  obtain ⟨φ, applied⟩ := applyMatrix_done ψ g.targets g.matrix sound.exact names.once names.inside fits
  have multiplied := multiplied_of ψ φ _ _ sound.exact sound.positive sound.full applied
  refine ⟨φ, ?_, multiplied.sound sound (Gate.unitary_matrix g) rows, multiplied⟩
  rw [perform, DenseState.performAs_gate, acts]
  exact (DenseState.run_unitary g.operation.name g.targets g.matrix ψ c).trans (by rw [applied])

theorem acted_hadamard (F : Assignment → ℂ) (σ : Assignment) (inside : σ (Qudit.qubit 0) < 2)
    (absent : F (Function.update σ (Qudit.qubit 0) 1) = 0) :
    Dense.acted [Qudit.qubit 0] Gate.hadamard F σ = ((Scalar.invSqrtTwo : ℝ) : ℂ) * F (Function.update σ (Qudit.qubit 0) 0) := by
  have column : ((Gate.hadamard : Operator ℝ).entry (σ (Qudit.qubit 0)) 0).toComplex = ((Scalar.invSqrtTwo : ℝ) : ℂ) := by
    interval_cases σ (Qudit.qubit 0) <;> rfl
  rw [Dense.acted_single, show (Qudit.qubit 0).dim = 2 from rfl, Finset.sum_range_succ, Finset.sum_range_one, absent, mul_zero, add_zero,
    column]

theorem acted_flip (z : ℂ) (σ : Assignment) (low : σ (Qudit.qubit 0) < 2) (high : σ (Qudit.qubit 1) < 2) :
    Dense.acted [Qudit.qubit 0, Qudit.qubit 1] Gate.pauliX.controlled (fun τ => if τ (Qudit.qubit 1) = 0 then z else 0) σ
      = if σ (Qudit.qubit 0) = σ (Qudit.qubit 1) then z else 0 := by
  have entries (i : ℕ) (bound : i < 4) : ((Gate.pauliX.controlled : Operator ℝ).entry i 0).toComplex
      + ((Gate.pauliX.controlled : Operator ℝ).entry i 2).toComplex = if i = 0 ∨ i = 3 then 1 else 0 := by
    rw [Operator.entry_controlled Gate.pauliX i 0 bound (by decide), Operator.entry_controlled Gate.pauliX i 2 bound (by decide)]
    interval_cases i <;> simp [Gate.pauliX, Operator.ofList, Operator.entry, Grid.getD]
  calc Dense.acted [Qudit.qubit 0, Qudit.qubit 1] Gate.pauliX.controlled (fun τ => if τ (Qudit.qubit 1) = 0 then z else 0) σ
      = (((Gate.pauliX.controlled : Operator ℝ).entry (σ (Qudit.qubit 0) * 2 + σ (Qudit.qubit 1)) 0).toComplex
        + ((Gate.pauliX.controlled : Operator ℝ).entry (σ (Qudit.qubit 0) * 2 + σ (Qudit.qubit 1)) 2).toComplex) * z := by
        simp only [Dense.acted, sumOver, Dense.index_pair]
        simp [Finset.sum_range_succ, Qudit.qubit, add_mul]
    _ = if σ (Qudit.qubit 0) = σ (Qudit.qubit 1) then z else 0 := by
        rw [entries _ (by omega), ite_mul, one_mul, zero_mul]
        exact if_congr (by omega) rfl rfl

noncomputable def entangle : List (Operation ℝ) :=
  [(Gate.h (Qudit.qubit 0)).operation, (Gate.cx (Qudit.qubit 0) (Qudit.qubit 1)).operation]

theorem DenseState.entangled (Ψ : DenseState ℝ) (valid : Sound Ψ) (listed : Ψ.frame.qudits = [Qudit.qubit 0, Qudit.qubit 1])
    (start : ∀ σ, Within Ψ.frame.qudits σ → Ψ.wave σ = if index [Qudit.qubit 0, Qudit.qubit 1] σ = 0 then 1 else 0) (c : Cells) :
    ∃ Φ, Ψ.runAll entangle c = (.ok (), Φ, c) ∧ ∀ σ, Within Ψ.frame.qudits σ →
      Φ.wave σ = if σ (Qudit.qubit 0) = σ (Qudit.qubit 1) then ((Scalar.invSqrtTwo : ℝ) : ℂ) else 0 := by
  obtain ⟨φ, turned, sound, one⟩ := run_gate (Gate.h (Qudit.qubit 0)) rfl valid ⟨by decide, by rw [listed]; decide⟩ (by
      simp [Gate.targets, Operator.checkSquare, Gate.matrix, Gate.hadamard, Operator.ofList, Qudit.jointDim, Qudit.dims, Qudit.qubit,
        size, wordSize]) rfl c
  obtain ⟨Φ, flipped, -, two⟩ := run_gate (Gate.cx (Qudit.qubit 0) (Qudit.qubit 1)) rfl sound
    ⟨by decide, by rw [one.frame, listed]; decide⟩ (by
      simp [Gate.targets, Operator.checkSquare, Gate.matrix, Gate.pauliX, Operator.controlled, Operator.ofList, Qudit.jointDim,
        Qudit.dims, Qudit.qubit, size, wordSize, Grid.tabulate]) rfl c
  refine ⟨Φ, ?_, fun σ within => ?_⟩
  · rw [entangle, runAll, turned]
    dsimp only
    rw [runAll, flipped]
    rfl
  have superposed : ∀ τ, Within Ψ.frame.qudits τ → φ.wave τ = if τ (Qudit.qubit 1) = 0 then ((Scalar.invSqrtTwo : ℝ) : ℂ) else 0 := by
    intro τ within
    have value (v : ℕ) (bound : v < 2) :
        Ψ.wave (Function.update τ (Qudit.qubit 0) v) = if v = 0 ∧ τ (Qudit.qubit 1) = 0 then 1 else 0 := by
      rw [start _ (within_update _ _ _ _ bound within), Dense.index_pair, Function.update_self, Function.update_of_ne (by decide)]
      exact if_congr (by simp [Qudit.qubit]) rfl rfl
    have turned := acted_hadamard Ψ.wave τ (within _ (by rw [listed]; decide)) ((value 1 Nat.one_lt_two).trans (by simp))
    rw [value 0 Nat.two_pos] at turned
    rw [wave, one.frame]
    exact (one.wave τ within).trans (turned.trans (by simp))
  have low : σ (Qudit.qubit 0) < 2 := within _ (by rw [listed]; decide)
  have high : σ (Qudit.qubit 1) < 2 := within _ (by rw [listed]; decide)
  have later := two.wave σ (by rwa [one.frame])
  have summed := Dense.acted_congr Ψ.frame.qudits [Qudit.qubit 0, Qudit.qubit 1] (Gate.pauliX.controlled : Operator ℝ) _ _ (by decide)
    superposed σ within
  rw [wave, two.frame]
  exact later.trans (summed.trans (acted_flip _ σ low high))

-- The same amplitude at equal values, and none at different ones, is not a product of one for each qubit.
theorem product_vanishes (z : ℂ) (f : ℕ → ℂ) (g : Assignment → ℂ) (free : ∀ σ v, g (Function.update σ (Qudit.qubit 0) v) = g σ)
    (product : ∀ σ, Within [Qudit.qubit 0, Qudit.qubit 1] σ →
      (if σ (Qudit.qubit 0) = σ (Qudit.qubit 1) then z else 0) = f (σ (Qudit.qubit 0)) * g σ) : z = 0 := by
  have value (a b : ℕ) (first : a < 2) (second : b < 2) : (if a = b then z else 0) = f a * g fun _ => b := by
    have joint := product (Function.update (fun _ => b) (Qudit.qubit 0) a)
      (List.forall_mem_cons.mpr ⟨first, List.forall_mem_singleton.mpr second⟩)
    rw [Function.update_self, Function.update_of_ne (by decide), free] at joint
    exact joint
  have low : z = f 0 * g fun _ => 0 := (if_pos rfl).symm.trans (value 0 0 Nat.two_pos Nat.two_pos)
  have high : z = f 1 * g fun _ => 1 := (if_pos rfl).symm.trans (value 1 1 Nat.one_lt_two Nat.one_lt_two)
  have apart : 0 = f 0 * g fun _ => 1 := (if_neg Nat.zero_ne_one).symm.trans (value 0 1 Nat.two_pos Nat.one_lt_two)
  refine mul_self_eq_zero.mp ?_
  calc z * z = (f 0 * g fun _ => 0) * (f 1 * g fun _ => 1) := congrArg₂ (· * ·) low high
    _ = (f 0 * g fun _ => 1) * (f 1 * g fun _ => 0) := by ring
    _ = 0 := by rw [← apart, zero_mul]

theorem Register.Joint.unit {s : Settings ℝ} {r : Register ℝ (DenseState ℝ)} {Φ : DenseState ℝ} (joint : Joint s r Φ) :
    ∀ t ∈ r.states, t.normSq = 1 := by
  intro t member
  obtain ⟨h, here⟩ := (Slots.mem_live _ t).mp member
  exact (joint.sound h t here).norm

theorem bell_reached : ∃ (r : Register ℝ (DenseState ℝ)) (Φ : DenseState ℝ), Reached pairSettings ⟨r, {}⟩
    ∧ Joint pairSettings r Φ ∧ r.qudits = [Qudit.qubit 0, Qudit.qubit 1]
    ∧ ∀ σ, Within r.qudits σ → Φ.wave σ = if σ (Qudit.qubit 0) = σ (Qudit.qubit 1) then ((Scalar.invSqrtTwo : ℝ) : ℂ) else 0 := by
  obtain ⟨r, Ψ, c, new, fresh, order, joint⟩ := new_joint pairSettings _ {} pair_validated (by decide)
  have listed : Ψ.frame.qudits = [Qudit.qubit 0, Qudit.qubit 1] := joint.order.trans order
  have start : ∀ σ, Within Ψ.frame.qudits σ → Ψ.wave σ = if index [Qudit.qubit 0, Qudit.qubit 1] σ = 0 then 1 else 0 := by
    obtain ⟨Ω, made, same⟩ := SimError.bind_ok fresh
    cases same
    obtain ⟨ψ, made', -, -, -, -, basis⟩ := DenseState.basisState_sound [Qudit.qubit 0, Qudit.qubit 1] 0 _ _ (by decide) (by decide)
      (by decide) (by decide)
    cases made.symm.trans made'
    exact listed ▸ basis
  obtain ⟨Φ, ran, bell⟩ := Ψ.entangled joint.whole listed start c
  have built : ∀ op ∈ entangle, Operation.Built r.qudits op := by
    rw [order]
    exact List.forall_mem_cons.mpr ⟨.gate _ ⟨by decide, by decide⟩, List.forall_mem_singleton.mpr (.gate _ ⟨by decide, by decide⟩)⟩
  have level : ∀ op ∈ entangle, op.Level :=
    List.forall_mem_cons.mpr ⟨fun swaps => absurd swaps Bool.false_ne_true, List.forall_mem_cons.mpr
      ⟨fun swaps => absurd swaps Bool.false_ne_true, List.forall_mem_nil _⟩⟩
  obtain ⟨r', applied, after⟩ := joint.applyAll c entangle built level Φ c ran
  have kept := joint.arena.qudits_kept after.arena
  have reached := Reached.meanwhile _ {} (Reached.applyAll ⟨r, c⟩ entangle (.new r {} c new))
  rw [applied] at reached
  exact ⟨r', Φ, reached, after, kept.trans order, fun σ within => bell σ (by rwa [joint.order, ← kept])⟩

theorem split_keeps_joint_state_pair : ∃ (w w' v : Workspace ℝ (DenseState ℝ)) (n : DenseState ℝ), Reached pairSettings w
    ∧ apply (Operation.reset [Qudit.qubit 0]) w = (.ok (), w') ∧ apply (Operation.reset [Qudit.qubit 0]) w.unsplit = (.ok (), v)
    ∧ v.register.merged = .ok n ∧ w'.register.merged = .ok n := by
  obtain ⟨r, Φ, reached, joint, order, -⟩ := bell_reached
  have names : Names r.qudits [Qudit.qubit 0] := by
    rw [order]
    exact ⟨by decide, by decide⟩
  have built : Operation.Built r.qudits (Operation.reset [Qudit.qubit 0]) := .reset _ names
  have small : size Φ.frame.dims < wordSize := by
    rw [Frame.dims, joint.order]
    exact joint.small
  have owned : Qudit.qubit 0 ∈ Φ.frame.qudits := joint.order ▸ names.inside List.mem_cons_self
  obtain ⟨k, Ω, -, -, -, done, -⟩ := DenseState.resetOne_done ⟨joint.whole, small⟩ owned (bench Φ {}) rfl
  have performed := (DenseState.reset_single (Qudit.qubit 0) (bench Φ {}) joint.whole.exact owned).trans done
  rw [← DenseState.perform_reset] at performed
  have ran := Representation.run_of _ Φ {} _ _ performed
  obtain ⟨r', applied, -⟩ := joint.apply {} built (fun swaps => absurd swaps Bool.false_ne_true) _ _ ran
  obtain ⟨v, n, unsplit, -, before, after⟩ :=
    split_keeps_joint_state reached joint.unit names (fun _ collapses => built.settles collapses _ _) applied
  exact ⟨_, _, v, n, reached, applied, unsplit, before, after⟩

/-! A collapse that is promised and does not happen. -/

def heldReset : Operation ℝ :=
  { name := "held", qudits := [Qudit.qubit 0], isReset := true, control := some ("k", Operation.reset [Qudit.qubit 0]) }

theorem heldReset_idle (t : DenseState ℝ) : (perform heldReset) (bench t {}) = (.ok (), bench t {}) :=
  Representation.performAs_unsatisfied "held" [Qudit.qubit 0] heldReset (Operation.reset [Qudit.qubit 0]) "k" rfl (bench t {}) rfl

theorem Register.Joint.work_idle {s : Settings ℝ} {r : Register ℝ (DenseState ℝ)} {Φ : DenseState ℝ} (joint : Joint s r Φ) (c : Cells)
    (op : Operation ℝ) (inside : op.qudits ⊆ r.qudits) (idle : ∀ t : DenseState ℝ, perform op (bench t c) = (.ok (), bench t c)) :
    ∃ m, work op ⟨r, c⟩ = (.ok (), m) ∧ Joint s m.register Φ := by
  obtain ⟨h, r₁, t, merged, united, here, -⟩ := joint.merge op.qudits inside
  have ran := runOn_stepped h (perform op) ⟨r₁, c⟩ united.arena t here _ _ (idle t)
  have worked : work op ⟨r, c⟩ = Register.runOn h (perform op) ⟨r₁, c⟩ := by rw [work, act_bind_apply, change, merged]
  exact ⟨_, worked.trans ran, united.put h t t Φ here (united.aside h t here).2⟩

-- The operation is skipped, and the first qubit is split off a state that is not a product.
theorem split_without_collapse : ∃ (w w' v : Workspace ℝ (DenseState ℝ)) (m n : DenseState ℝ), Reached pairSettings w
    ∧ w.register.split = true ∧ (∀ t ∈ w.register.states, t.normSq = 1) ∧ Names w.register.qudits heldReset.qudits
    ∧ apply heldReset w = (.ok (), w') ∧ apply heldReset w.unsplit = (.ok (), v)
    ∧ w'.register.merged = .ok m ∧ v.register.merged = .ok n ∧ m.amplitudes ≠ n.amplitudes := by
  obtain ⟨r, Φ, reached, joint, order, bell⟩ := bell_reached
  have names : Names r.qudits heldReset.qudits := by
    rw [order]
    exact ⟨by decide, by decide⟩
  have unites : heldReset.Unites r.qudits := ⟨rfl, fun swaps => absurd swaps Bool.false_ne_true, names⟩
  have split : r.split = true := joint.arena.mode
  obtain ⟨⟨r₁, c⟩, worked, still⟩ := joint.work_idle {} heldReset names.inside heldReset_idle
  obtain ⟨_, _, worked', valid, full, -⟩ := joint.arena.work_between (w := ⟨r, {}⟩) DenseState.merges_full.toJoins
    DenseState.durable_full (reached.each DenseState.durable_full) names.inside
  cases worked.symm.trans worked'
  have kept : r₁.qudits = r.qudits := joint.arena.qudits_kept still.arena
  have parted : (r₁.splitAll heldReset.qudits).1 = .ok () := valid.splitAll_firm valid.mode full fun q listed => by
    obtain ⟨k, u, -, live, own⟩ := valid.owner_found q (kept ▸ names.inside listed)
    exact ⟨k, u, live, own, still.sound k u live⟩
  have applied : apply heldReset ⟨r, {}⟩ = (.ok (), ⟨(r₁.splitAll heldReset.qudits).2, c⟩) := by
    have both : (r₁.split && Representation.allowsFactoring (DenseState ℝ)) = true := by rw [still.arena.mode]; rfl
    rw [joint.arena.apply_merged (w := ⟨r, {}⟩) unites, applyMerged_work, act_bind_apply, worked]
    exact (separate_on heldReset.qudits ⟨r₁, c⟩ both).trans (by rw [parted])
  have unsplit : apply heldReset (Workspace.unsplit ⟨r, {}⟩) = (.ok (), Workspace.unsplit ⟨r₁, c⟩) := by
    have checked := (blind_check heldReset.qudits).done (joint.arena.checked (w := ⟨r, {}⟩) names)
    rw [apply_united unites.acts unites.joint, act_bind_apply, checked]
    exact work_unsplit worked
  have after := Reached.apply ⟨r, {}⟩ heldReset reached
  have alone := (reached.regrouped_dense unites).alone
  rw [applied] at after alone
  replace alone := alone rfl ⟨split, rfl⟩ (Qudit.qubit 0) List.mem_cons_self
  obtain ⟨n, before, -, whole⟩ := still.merged
  obtain ⟨m, parts, -, ordered, -⟩ := DenseState.merges_full.merged after.arena (after.each DenseState.durable_full).get
  have whole' : (Workspace.unsplit ⟨r₁, c⟩).register.merged = .ok n := (merged_unsplit r₁).trans before
  refine ⟨⟨r, {}⟩, _, _, m, n, reached, split, joint.unit, names, applied, unsplit, parts, whole', fun same => ?_⟩
  -- The first qubit is alone now, so that the amplitudes of the superposed value would be a product.
  have order' : (r₁.splitAll heldReset.qudits).2.qudits = [Qudit.qubit 0, Qudit.qubit 1] :=
    (joint.arena.qudits_kept after.arena).trans order
  obtain ⟨f, g, free, product⟩ := after.arena.merged_alone (after.each DenseState.durable_full) alone parts
  replace ordered : m.frame.qudits = [Qudit.qubit 0, Qudit.qubit 1] := Eq.trans ordered order'
  rw [order'] at product
  have root : ((Scalar.invSqrtTwo : ℝ) : ℂ) ≠ 0 := fun zero => by simpa [zero] using invSqrtTwo_square
  refine root (product_vanishes _ f g free fun σ within => Eq.trans ?_ (product σ within))
  have held : m.wave σ = Φ.wave σ := by
    rw [DenseState.wave, DenseState.wave, same, whole, ordered, still.order, kept, order]
  exact (held.trans (bell σ (by rwa [order]))).symm

end QuantumRegister
