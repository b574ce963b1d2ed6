import QuantumRegister.Proofs.Failure
import QuantumRegister.Proofs.Register.Sampling
import QuantumRegister.Proofs.Register.Web

/-!
What a failed operation leaves of a register. States that it has united stay united, but their product is
the same, and a step that fails on the united state changes nothing of that state. A split does not fail
after work that has been done.
-/

set_option autoImplicit false

namespace QuantumRegister

open QuantumRegister.MixedRadix (wordSize)
open QuantumRegister.Representation (Joins Merges Settles Sparing bench frame perform performAs qudits routes run)

/-! Registers with the same joint state. -/

namespace Register

section Kept

variable {R S X Y M : Type} [Representation R S] [CommMonoid M] {fits fair : S → Prop} {admits : List Qudit → Y → Prop}
  {value : S → Y → M} {shown : S → X} {s : Settings R} {r r' : Register R S}

theorem Kept.merged (kept : Kept fair admits value r r') (merges : Merges fits admits value)
    (settles : Settles fits admits value shown) (weaker : ∀ t, fair t → fits t) (valid : Arena s r) (valid' : Arena s r')
    (each : ∀ h t, r.slots.get? h = some t → fair t) :
    ∃ m m', r.merged = .ok m ∧ r'.merged = .ok m' ∧ shown m' = shown m := by
  obtain ⟨m, merged, fit, order, values⟩ := merges.merged valid fun h t live => weaker t (each h t live)
  obtain ⟨m', merged', fit', order', values'⟩ := merges.merged valid' fun h t live => weaker t (kept.fits h t live)
  rw [kept.qudits] at order' values'
  refine ⟨m, m', merged, merged', settles m' m fit' fit (order'.trans order.symm) fun y admitted => ?_⟩
  rw [order'] at admitted
  rw [values y admitted, values' y admitted, kept.whole y admitted]

end Kept

/-! Operations. -/

theorem change_failed {R S α : Type} {f : Register R S → Except (SimError R) (α × Register R S)} {w w' : Workspace R S}
    {e : SimError R} (failed : change f w = (.error e, w')) : w' = w := by
  rw [change] at failed
  split at failed
  · cases failed
  · cases failed
    rfl

structure Unharmed {R S X : Type} [Representation R S] (shown : S → X) (e : SimError R) (w w' : Workspace R S) : Prop where
  merged : ∃ m m', w.register.merged = .ok m ∧ w'.register.merged = .ok m' ∧ shown m' = shown m
  cells : Cells.Spared e w.cells w'.cells

section Operations

variable {R S X Z Y M : Type} [Scalar R] [Representation R S] [CommMonoid M] {fits fair : S → Prop}
  {admits : List Qudit → Y → Prop} {value : S → Y → M} {mark : S → Z} {shown : S → X} {s : Settings R} {r : Register R S}
  {w w' m : Workspace R S} {op : Operation R} {e : SimError R} {qs : List Qudit}

omit [Scalar R] [Representation R S] in
theorem owners_refused (failed : r.ownersOf qs = .error e) : e.Misnamed := by
  have each : qs.mapM r.owner = .error e := by
    rw [ownersOf] at failed
    cases asked : qs.mapM r.owner with
    | ok hs =>
        rw [asked] at failed
        cases failed
    | error e' =>
        rw [asked] at failed
        cases failed
        rfl
  clear failed
  induction qs with
  | nil => cases each
  | cons q qs ih =>
      rw [List.mapM_cons] at each
      cases found : r.owner q with
      | error e' =>
          rw [found] at each
          cases each
          rw [owner] at found
          split at found
          · cases found
          · cases found
            exact Or.inr rfl
      | ok h =>
          refine ih ?_
          rw [found] at each
          cases later : qs.mapM r.owner with
          | error e' =>
              rw [later] at each
              cases each
              rfl
          | ok hs =>
              rw [later] at each
              cases each

omit [Scalar R] [Representation R S] in
theorem targets_refused (failed : r.checkTargets qs = .error e) : e.Misnamed := by
  rw [checkTargets] at failed
  cases found : r.ownersOf qs with
  | error e' =>
      rw [found] at failed
      cases failed
      exact owners_refused found
  | ok hs =>
      simp only [found, bind, Except.bind] at failed
      split at failed
      · cases failed
        exact Or.inl rfl
      · cases failed

theorem Arena.apply_misnamed (valid : Arena s w.register) (acts : op.isIdentity = false)
    (unowned : ¬Names w.register.qudits op.qudits) :
    ∃ e, e.Misnamed ∧ Register.apply op w = (.error e, w) := by
  obtain ⟨e, refused, still⟩ := valid.apply_rejected acts unowned
  exact ⟨e, targets_refused refused, still⟩

variable [LawfulRepresentation R S]

structure Worked (s : Settings R) (fair : S → Prop) (admits : List Qudit → Y → Prop) (value : S → Y → M) (op : Operation R)
    (w : Workspace R S) (r : Register R S) (h : ℕ) (t : S) (e : Except (SimError R) Unit) (b : Bench S) : Prop where
  kept : Kept fair admits value w.register r
  live : r.slots.get? h = some t
  log : (bench t w.cells).log = w.cells.log w.register.log
  stepped : perform op (bench t w.cells) = (e, b)
  ran : work op w = (e, ⟨{ r with slots := r.slots.put h b.state },
    (w.cells.setSource (frame t).source b.source).setLog (frame t).log b.log⟩)
  arena : Arena s { r with slots := r.slots.put h b.state }

theorem Arena.worked (valid : Arena s w.register) (joins : Joins fair admits value)
    (each : ∀ h t, w.register.slots.get? h = some t → fair t) (inside : op.qudits ⊆ w.register.qudits) :
    ∃ r h t e b, Worked s fair admits value op w r h t e b := by
  obtain ⟨h, r, t, merged, live, kept⟩ := valid.merge_done joins each inside
  obtain ⟨after, -⟩ := (valid.merge op.qudits).2 (h, r) merged
  obtain ⟨source, log⟩ := after.wired h t live
  cases stepped : perform op (bench t w.cells) with
  | mk e b =>
      have ran := runOn_stepped h (perform op) { w with register := r } after t live e b stepped
      have arena := (meets_runOn h (perform op) (fun _ => Representation.keeps_performAs _ _ op) { w with register := r }
        ⟨after, t, live⟩).1
      rw [ran] at arena
      refine ⟨r, h, t, e, b, kept, live, congrArg w.cells.log (log.trans kept.log), stepped, ?_, arena⟩
      have changed : change (·.merge op.qudits) w = (.ok h, { w with register := r }) := by rw [change, merged]
      rw [work, act_bind_apply, changed, source, log]
      exact ran

/-- What is known of a representation in which failures are atomic. `fair` states have norm one; `mark` is what an
action that fails leaves of a state, and settles its values. -/
structure Shielding (fair fits : S → Prop) (admits : List Qudit → Y → Prop) (value : S → Y → M) (mark : S → Z)
    (shown : S → X) : Prop where
  joins : Joins fair admits value
  merges : Merges fits admits value
  settles : Settles fits admits value shown
  weaker : ∀ t, fair t → fits t
  sparing : Sparing (R := R) fair mark
  marked : ∀ t u, fair t → frame u = frame t → mark u = mark t → fair u ∧ ∀ y, value u y = value t y

variable (shielding : Shielding (R := R) fair fits admits value mark shown) (valid : Arena s w.register)
  (each : ∀ h t, w.register.slots.get? h = some t → fair t)

include shielding valid each

omit [Scalar R] [LawfulRepresentation R S] in
theorem Unharmed.refl (e : SimError R) : Unharmed shown e w w := by
  obtain ⟨m, merged, -⟩ := shielding.merges.merged valid fun h t live => shielding.weaker t (each h t live)
  exact ⟨⟨m, m, merged, merged, rfl⟩, rfl, fun _ => rfl⟩

theorem Arena.work_failed (inside : op.qudits ⊆ w.register.qudits) (failed : work op w = (.error e, w'))
    (atomic : Resolution.Atomic e (op.resolve (w.cells.log w.register.log) (routes S))) : Unharmed shown e w w' := by
  obtain ⟨r, h, t, e', b, worked⟩ := valid.worked shielding.joins each inside
  cases failed.symm.trans worked.ran
  have fit := worked.kept.fits h t worked.live
  rw [← worked.log] at atomic
  have spared := shielding.sparing.performAs fit atomic worked.stepped
  obtain ⟨fair, same⟩ := shielding.marked t b.state fit spared.framed spared.shown
  have kept := worked.kept.trans (.put worked.kept.fits t b.state worked.live fair same)
  exact ⟨kept.merged shielding.merges shielding.settles shielding.weaker valid worked.arena each, spared.cells⟩

-- Where a split does not fail, what fails is a check, an exchange of labels, or the work on the united state.
theorem Arena.apply_failed (failed : Register.apply op w = (.error e, w'))
    (firm : ∀ m, Names w.register.qudits op.qudits → work op w = (.ok (), m) →
      ((if op.collapses then separate op.qudits else pure () : Act R S Unit) m).1 = .ok ())
    (atomic : Resolution.Atomic e (op.resolve (w.cells.log w.register.log) (routes S))) : Unharmed shown e w w' := by
  have still (same : w' = w) : Unharmed shown e w w' := same ▸ .refl shielding valid each e
  obtain idle | ⟨a, b, exchanges⟩ | ⟨acts, joint⟩ := apply_forms (S := S) op
  · rw [idle] at failed
    cases failed
  · rw [exchanges, act_bind_apply] at failed
    cases checked : check op.qudits w with
    | mk x m =>
        rw [checked] at failed
        cases x with
        | error e' =>
            cases failed
            exact still (change_failed checked)
        | ok u => exact still ((change_failed failed).trans (check_done checked))
  · by_cases names : Names w.register.qudits op.qudits
    · rw [valid.apply_merged ⟨acts, joint, names⟩, applyMerged_work, act_bind_apply] at failed
      cases worked : work op w with
      | mk x m =>
          rw [worked] at failed
          cases x with
          | error e' =>
              cases failed
              exact valid.work_failed shielding each names.inside worked atomic
          | ok u =>
              have fails := congrArg Prod.fst failed
              rw [firm m names worked] at fails
              cases fails
    · obtain ⟨e', -, rejected⟩ := valid.apply_misnamed acts names
      cases rejected.symm.trans failed
      exact still rfl

end Operations

/-! Dense states. -/

section Dense

variable {s : Settings ℝ} {w m : Workspace ℝ (DenseState ℝ)} {op : Operation ℝ}

theorem shielding_dense : Shielding DenseState.Counted Readable.Full Assignment.Within DenseState.wave DenseState.amplitudes
    fun ψ : DenseState ℝ => (ψ.frame.qudits, ψ.amplitudes) where
  joins := {
    narrow := fun subset within q listed => within q (subset listed)
    joined := fun t u first second once => by
      obtain ⟨v, joined, sound, listed, values⟩ := DenseState.kronecker_sound t u first.toSound second.toSound once
      refine ⟨v, joined, ⟨sound, fun q owns => ?_⟩, listed, values⟩
      rcases List.mem_append.mp (listed ▸ owns) with left | right
      · exact first.levels q left
      · exact second.levels q right }
  merges := DenseState.merges_full
  settles := DenseState.settles_full
  weaker t counted := ⟨counted.exact, counted.full⟩
  sparing := DenseState.sparing_counted
  marked t u counted framed same := by
    have framed : u.frame = t.frame := framed
    refine ⟨⟨⟨framed ▸ counted.exact, ?_, same ▸ counted.norm⟩, framed ▸ counted.levels⟩, fun σ => ?_⟩
    · rw [same, framed]
      exact counted.full
    · rw [DenseState.wave, DenseState.wave, same, framed]

theorem Arena.work_firm (valid : Arena s w.register) (each : ∀ h t, w.register.slots.get? h = some t → t.Counted)
    (regular : Resolution.Regular op.qudits (op.resolve (w.cells.log w.register.log) (routes (DenseState ℝ))))
    (whole : ∀ ops, op.resolve (w.cells.log w.register.log) (routes (DenseState ℝ)) ≠ some (.parts ops))
    (names : Names w.register.qudits op.qudits) (done : work op w = (.ok (), m)) :
    ((if op.collapses then separate op.qudits else pure () : Act ℝ (DenseState ℝ) Unit) m).1 = .ok () := by
  obtain ⟨r, h, t, e, b, worked⟩ := valid.worked shielding_dense.joins each names.inside
  cases done.symm.trans worked.ran
  rw [← worked.log] at regular whole
  have after := (worked.kept.fits h t worked.live).performed regular whole worked.stepped
  have inside := Slots.get?_inside _ _ _ worked.live
  have sound : ∀ k u, (r.slots.put h b.state).get? k = some u → u.Sound := fun k u here => by
    rw [Slots.get?_put _ _ _ _ inside] at here
    split at here
    · cases here
      exact after.toSound
    · exact (worked.kept.fits k u here).toSound
  split
  · by_cases both : (r.split && Representation.allowsFactoring (DenseState ℝ)) = true
    · rw [separate_on op.qudits _ both]
      refine worked.arena.splitAll_firm (Bool.and_eq_true_iff.mp both).1 (fun u member => ?_) fun q listed => ?_
      · obtain ⟨k, found⟩ := List.mem_iff_getElem?.mp member
        have known := sound k u (by rw [Slots.get?, found]; rfl)
        exact ⟨known.exact, known.full⟩
      · obtain ⟨k, u, -, live, owns⟩ := worked.arena.owner_found q (worked.kept.qudits.symm ▸ names.inside listed)
        exact ⟨k, u, live, owns, sound k u live⟩
    · rw [separate_off op.qudits _ both]
  · rfl

theorem Reached.levels (reached : Reached s w) : ∀ q ∈ w.register.qudits, q.dim < wordSize := by
  refine reached.begun fun qs index source log ψ made q owns => ?_
  rw [show Representation.basisState qs index source log = DenseState.basisState qs index source log from rfl,
    DenseState.basisState] at made
  split at made
  · cases made
  rename_i f framed
  split at made
  · cases made
  rename_i size counted
  split at made
  · cases made
  rename_i inside
  cases made
  obtain ⟨product, small⟩ := MixedRadix.checkedSize_some 1 f.dims size (by decide) counted
  have total : size = MixedRadix.size f.dims := product.trans (Nat.one_mul _)
  have divides : q.dim ∣ MixedRadix.size f.dims := List.dvd_prod (List.mem_map_of_mem owns)
  exact (Nat.le_of_dvd (total ▸ Nat.zero_lt_of_lt (not_le.mp inside)) divides).trans_lt (total ▸ small)

theorem Reached.counted (reached : Reached s w) (unit : ∀ t ∈ w.register.states, t.normSq = 1) (h : ℕ) (t : DenseState ℝ)
    (live : w.register.slots.get? h = some t) : t.Counted := by
  obtain ⟨exact, full⟩ := (reached.each DenseState.durable_full).get h t live
  exact ⟨⟨exact, full, unit t ((Slots.mem_live _ t).mpr ⟨h, live⟩)⟩, fun q owns =>
    reached.levels q (reached.arena.listed q h t live owns)⟩

end Dense

/-! Stabilizer states. -/

theorem shielding_stabilizer : Shielding StabilizerState.Sound StabilizerState.Sound (fun _ _ => True) StabilizerState.wave
    StabilizerState.form fun φ : StabilizerState ℝ => (φ.frame.qudits, φ.form.amplitude?) where
  joins := StabilizerState.merges_wave.toJoins
  merges := StabilizerState.merges_wave
  settles := StabilizerState.settles_sound
  weaker _ sound := sound
  sparing := StabilizerState.sparing _
  marked t u sound framed same := by
    have equal : u = t := StabilizerState.mk.injEq .. ▸ ⟨framed, same⟩
    exact ⟨equal ▸ sound, fun _ => equal ▸ rfl⟩

end Register

open Register

/-- Operations on states, and on registers of them, that fail. `shown` is what is compared of two states, for
a register of its joint state. -/
structure FailsAtomically {S X : Type} [Representation ℝ S] (fits unit : S → Prop) (shown : S → X) : Prop where
  states : ∀ (op : Operation ℝ) (t u : S) (c d : Cells) (e : SimError ℝ), fits t →
    Resolution.Atomic e (op.resolve (c.log (frame t).log) (routes S)) → run (perform op) t c = (.error e, u, d) →
      shown u = shown t ∧ Cells.Spared e c d
  registers : ∀ (s : Settings ℝ) (op : Operation ℝ) (w w' : Workspace ℝ S) (e : SimError ℝ), Reached s w →
    (∀ t ∈ w.register.states, unit t) →
    Resolution.Regular op.qudits (op.resolve (w.cells.log w.register.log) (routes S)) →
    Resolution.Atomic e (op.resolve (w.cells.log w.register.log) (routes S)) → Register.apply op w = (.error e, w') →
      Unharmed shown e w w'
  targets : ∀ (s : Settings ℝ) (op : Operation ℝ) (w : Workspace ℝ S), Reached s w → op.isIdentity = false →
    ¬Names w.register.qudits op.qudits → ∃ e, e.Misnamed ∧ Register.apply op w = (.error e, w)

theorem failures_atomic :
    FailsAtomically DenseState.Counted (fun ψ => ψ.normSq = 1) (fun ψ : DenseState ℝ => (ψ.frame.qudits, ψ.amplitudes))
      ∧ FailsAtomically (fun _ => True) (fun _ => True)
        (fun φ : StabilizerState ℝ => (φ.frame.qudits, φ.form.amplitude?)) := by
  constructor
  · refine ⟨fun op t u c d e counted atomic failed => ?_, fun s op w w' e reached unit regular atomic failed => ?_,
      fun s op w reached acts unowned => reached.arena.apply_misnamed acts unowned⟩
    · obtain ⟨framed, same, cells⟩ := DenseState.sparing_counted.run counted atomic failed
      exact ⟨Prod.ext (congrArg Frame.qudits framed) same, cells⟩
    · have valid := reached.arena
      have each := reached.counted unit
      refine valid.apply_failed shielding_dense each failed (fun m names worked => ?_) atomic
      exact valid.work_firm each regular (fun ops parts => by rw [parts] at atomic; exact atomic) names worked
  · refine ⟨fun op t u c d e _ atomic failed => ?_, fun s op w w' e reached _ _ atomic failed => ?_,
      fun s op w reached acts unowned => reached.arena.apply_misnamed acts unowned⟩
    · obtain ⟨framed, same, cells⟩ := (StabilizerState.sparing fun _ => True).run trivial atomic failed
      have form : u.form = t.form := same
      exact ⟨Prod.ext (congrArg Frame.qudits framed) (congrArg Form.amplitude? form), cells⟩
    · refine reached.arena.apply_failed shielding_stabilizer (reached.each StabilizerState.durable_sound).get failed
        (fun m names worked => ?_) atomic
      split
      · rw [separate_off op.qudits m fun both => Bool.false_ne_true (Bool.and_eq_true_iff.mp both).2]
      · rfl

-- The matrix of one qubit, put on two.
noncomputable def narrow : Operation ℝ :=
  { name := "narrow", qudits := [Qudit.qubit 0, Qudit.qubit 1], unitary := some Gate.pauliX }

theorem narrow_misfits : Operator.checkSquare [Qudit.qubit 0, Qudit.qubit 1] (Gate.pauliX : Operator ℝ)
    = .error (.shapeMismatch [4, 4] [2, 2]) := by
  simp [Operator.checkSquare, Gate.pauliX, Operator.ofList, Qudit.jointDim, Qudit.dims, Qudit.qubit, MixedRadix.size, wordSize]

theorem narrow_refused (b : Bench (DenseState ℝ)) : perform narrow b = (.error (.shapeMismatch [4, 4] [2, 2]), b) := by
  have refused : b.state.applyMatrix [Qudit.qubit 0, Qudit.qubit 1] Gate.pauliX
      = .error (.shapeMismatch [4, 4] [2, 2]) := by
    rw [DenseState.applyMatrix, narrow_misfits]
  have read : perform narrow b = (Step.ofExcept (b.state.applyMatrix [Qudit.qubit 0, Qudit.qubit 1] Gate.pauliX) >>= fun φ =>
      Step.setState φ : Step ℝ (DenseState ℝ) Unit) b := by
    rw [perform, Representation.performAs_resolve]
    rfl
  rw [read, refused]
  rfl

theorem failures_atomic_pair :
    (∃ (w w' : Workspace ℝ (DenseState ℝ)), Reached pairSettings w
        ∧ Register.apply narrow w = (.error (.shapeMismatch [4, 4] [2, 2]), w') ∧ w'.cells = w.cells
        ∧ ∃ m m', w.register.merged = .ok m ∧ w'.register.merged = .ok m' ∧ m'.amplitudes = m.amplitudes)
      ∧ (∃ (w w' : Workspace ℝ (StabilizerState ℝ)), Reached pairSettings w
        ∧ Register.apply narrow w = (.error (.unsupported "narrow"), w')
        ∧ w.register.groups = [[Qudit.qubit 0], [Qudit.qubit 1], []]
        ∧ w'.register.groups = [[Qudit.qubit 0, Qudit.qubit 1], []] ∧ w'.cells = w.cells
        ∧ ∃ m m', w.register.merged = .ok m ∧ w'.register.merged = .ok m' ∧ m'.form.amplitude? = m.form.amplitude?)
      ∧ ∃ (w : Workspace ℝ (StabilizerState ℝ)) (e : SimError ℝ), Reached pairSettings w ∧ e.Misnamed
        ∧ Register.apply (Operation.reset [Qudit.qubit 1, Qudit.qubit 1]) w = (.error e, w) := by
  obtain ⟨dense, stabilizer⟩ := failures_atomic
  have reached : Reached pairSettings ⟨pairRegister, pairCells⟩ := .new _ {} _ pairRegister_new
  refine ⟨?_, ?_, ?_⟩
  · obtain ⟨r, c, made⟩ := pair_dense
    have reached : Reached pairSettings ⟨r, c⟩ := .new r {} c made
    have unit : ∀ t ∈ r.states, t.normSq = 1 := Register.new_each (fun qs index source log t begun => by
      obtain ⟨exact, full⟩ := DenseState.durable_full.begun qs index source log t begun
      exact (Dense.normSq_weight _ _ exact.distinct full).trans
        (DenseState.basisState_unit qs index source log t begun)) made
    have unites : narrow.Unites r.qudits := by
      rw [(Option.some.inj reached.arena.order).symm]
      exact ⟨rfl, fun swaps => absurd swaps Bool.false_ne_true, by decide, by decide⟩
    obtain ⟨r', h, t, e, b, worked⟩ := reached.arena.worked shielding_dense.joins (reached.counted unit) unites.names.inside
    cases worked.stepped.symm.trans (narrow_refused _)
    obtain ⟨w', failed⟩ :
        ∃ w', Register.apply narrow ⟨r, c⟩ = (.error (.shapeMismatch [4, 4] [2, 2]), w') := by
      rw [reached.arena.apply_merged unites, applyMerged_work, act_bind_apply, worked.ran]
      exact ⟨_, rfl⟩
    obtain ⟨⟨m, m', merged, merged', same⟩, cells⟩ := dense.registers _ narrow _ w' _ reached unit
      (fun fits => by cases narrow_misfits.symm.trans fits) trivial failed
    exact ⟨_, w', reached, failed, cells.early (Or.inr (Or.inl rfl)), m, m', merged, merged', congrArg Prod.snd same⟩
  · have failed : ∃ w', Register.apply narrow ⟨pairRegister, pairCells⟩ = (.error (.unsupported "narrow"), w')
        ∧ w'.register.groups = [[Qudit.qubit 0, Qudit.qubit 1], []] := ⟨_, rfl, rfl⟩
    obtain ⟨w', failed, groups⟩ := failed
    obtain ⟨⟨m, m', merged, merged', same⟩, cells⟩ :=
      stabilizer.registers _ narrow _ w' _ reached (fun _ _ => trivial) trivial trivial failed
    exact ⟨_, w', reached, failed, rfl, groups, cells.early (Or.inr (Or.inr rfl)), m, m', merged, merged',
      congrArg Prod.snd same⟩
  · obtain ⟨e, misnamed, failed⟩ := stabilizer.targets pairSettings (Operation.reset [Qudit.qubit 1, Qudit.qubit 1]) _ reached rfl
      fun names => absurd names.once (by decide)
    exact ⟨_, e, reached, misnamed, failed⟩

end QuantumRegister
