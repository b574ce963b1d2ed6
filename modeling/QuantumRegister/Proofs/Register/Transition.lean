import QuantumRegister.Proofs.Register.Grouping
import QuantumRegister.Proofs.Register.Mirror

/-!
What an operation does to the groups of a register. States are united whether or not the operation then
succeeds. A collapse that succeeds leaves each of its qudits alone; one that fails splits nothing off.
-/

set_option autoImplicit false

namespace QuantumRegister

open QuantumRegister.DenseState (Sound)
open QuantumRegister.Readable (Full)
open QuantumRegister.Representation (Joins perform)

structure Operation.Unites {R : Type} (Q : List Qudit) (op : Operation R) : Prop where
  acts : op.isIdentity = false
  joint : op.isSwap = true → op.qudits.length ≠ 2
  names : Names Q op.qudits

/-! Factoring a dense state. -/

namespace DenseState

variable {ψ single rest : DenseState ℝ} {q : Qudit} {tolerance : ℝ}

theorem factor_sound (full : Full ψ) (owns : q ∈ ψ.frame.qudits) (done : ψ.factor [q] false tolerance = .ok (single, rest)) :
    Sound single ∧ Sound rest := by
  obtain ⟨E, M, t, cut⟩ := cut ψ full.1 full.2 [q] (List.nodup_singleton q) (List.cons_subset.mpr ⟨owns, List.nil_subset _⟩)
  obtain ⟨pivot, found, rfl, rfl, -⟩ := cut.parts done
  exact cut.sound pivot found

theorem factor_found (sound : Sound ψ) (owns : q ∈ ψ.frame.qudits) :
    ∃ parts, ψ.factor [q] false tolerance = .ok parts := by
  obtain ⟨E, M, t, cut⟩ := cut ψ sound.exact sound.full [q] (List.nodup_singleton q) (List.cons_subset.mpr ⟨owns, List.nil_subset _⟩)
  obtain ⟨pivot, found⟩ := pivot_found t (cut.norm.trans sound.norm)
  rw [cut.factor, found]
  exact ⟨_, rfl⟩

end DenseState

namespace Register

section Dense

variable {s : Settings ℝ} {r r' : Register ℝ (DenseState ℝ)} {qs : List Qudit} {p q : Qudit}

def Firm (r : Register ℝ (DenseState ℝ)) (q : Qudit) : Prop :=
  ∃ h t, r.slots.get? h = some t ∧ q ∈ Representation.qudits t ∧ Sound t

theorem Arena.splitOff_firm (valid : Arena s r) (firm : r.Firm q) : ∃ r', r.splitOff q = .ok r' := by
  obtain ⟨h, t, here, owns, sound⟩ := firm
  have owner : r.owner q = .ok h := by rw [Register.owner, (valid.owned q h).mpr ⟨t, here, owns⟩]
  simp only [Register.splitOff, bind, Except.bind, owner, state_of_live r h t here]
  split
  · exact ⟨r, rfl⟩
  · obtain ⟨parts, factored⟩ : ∃ parts, Representation.factor t [q] false r.tolerance = .ok parts := DenseState.factor_found sound owns
    rw [factored]
    exact ⟨_, rfl⟩

-- Both parts of a factored state have norm one, whatever the state had.
theorem Arena.detached_firm (valid : Arena s r) (detached : Detached r r' q) (full : ∀ h t, r.slots.get? h = some t → Full t) :
    (∀ p, r.Firm p → r'.Firm p) ∧ (r' = r ∨ ∀ p, r.Together q p → r'.Firm p) := by
  cases detached with
  | alone h t here only same => exact ⟨fun p firm => same ▸ firm, Or.inl same⟩
  | parted h x t single rest here owns vacant factored first second length read =>
      obtain ⟨soundSingle, soundRest⟩ := DenseState.factor_sound (full h t here) owns factored
      have apart : h ≠ x := by
        rintro rfl
        rw [vacant] at here
        cases here
      have mates (p : Qudit) (member : p ∈ Representation.qudits t) : r'.Firm p := by
        by_cases isOwn : p = q
        · exact ⟨x, single, by rw [read, if_pos rfl], by rw [first, isOwn]; exact List.mem_cons_self, soundSingle⟩
        · exact ⟨h, rest, by rw [read, if_neg apart, if_pos rfl], (second p).mpr ⟨member, isOwn⟩, soundRest⟩
      refine ⟨fun p ⟨k, u, there, member, sound⟩ => ?_, Or.inr fun p near => ?_⟩
      · by_cases atOld : k = h
        · subst atOld
          rw [here] at there
          cases there
          exact mates p member
        · refine ⟨k, u, ?_, member, sound⟩
          rw [read, if_neg atOld, if_neg (vacant_ne r.slots k x u there vacant).symm, there]
      · obtain ⟨k, own, other⟩ := together_iff.mp near
        rw [valid.one_holder own ((mem_holdings r h q).mpr ⟨t, here, owns⟩), holdings_of_live r h t here] at other
        exact mates p other

theorem Arena.splitAll_firm (valid : Arena s r) (split : r.split = true) (full : r.slots.Each Full) (firm : ∀ q ∈ qs, r.Firm q) :
    (r.splitAll qs).1 = .ok () := by
  induction qs generalizing r with
  | nil => rfl
  | cons q qs ih =>
      obtain ⟨r', done⟩ := valid.splitOff_firm (firm q List.mem_cons_self)
      have after := (valid.splitOff split q).2 r' done
      have still : r'.split = true := after.mode.trans (valid.mode.symm.trans split)
      have kept := (valid.detached_firm (valid.splitOff_detached split done) full.get).1
      rw [Register.splitAll, done]
      exact ih after still (each_splitOff DenseState.durable_full full q done) fun p member =>
        kept p (firm p (List.mem_cons_of_mem q member))

-- Only the first of some qudits of one state can fail to be split off, and then nothing has been done.
theorem Arena.splitAll_failed (valid : Arena s r) (split : r.split = true) (full : r.slots.Each Full) (once : qs.Nodup)
    (near : ∀ p ∈ qs, ∀ q ∈ qs, r.Together p q) (e : SimError ℝ) (failed : (r.splitAll qs).1 = .error e) :
    (r.splitAll qs).2 = r := by
  cases qs with
  | nil => rfl
  | cons q qs =>
      rw [Register.splitAll] at failed ⊢
      cases first : r.splitOff q with
      | error e => rfl
      | ok r' =>
          rw [first] at failed
          have after := (valid.splitOff split q).2 r' first
          have still : r'.split = true := after.mode.trans (valid.mode.symm.trans split)
          have full' := each_splitOff DenseState.durable_full full q first
          obtain same | firm := (valid.detached_firm (valid.splitOff_detached split first) full.get).2
          · cases qs with
            | nil => cases failed
            | cons p rest =>
                have together := near q List.mem_cons_self p (List.mem_cons_of_mem q List.mem_cons_self)
                rw [← same] at together
                have alone : p = q := ((valid.splitOff_together split first).mp together).2.mp rfl
                exact absurd (alone ▸ List.mem_cons_self) (List.nodup_cons.mp once).1
          · have done := after.splitAll_firm still full' fun p member =>
              firm p (near q List.mem_cons_self p (List.mem_cons_of_mem q member))
            rw [done] at failed
            cases failed

end Dense

/-! Whole operations. -/

section Operations

variable {R S : Type} [Scalar R] [Representation R S] {s : Settings R} {w m : Workspace R S} {op : Operation R}

/-- All that an operation does before its qudits are split off: on the united state of all of them. -/
def work (op : Operation R) : Act R S Unit := do
  let h ← change (·.merge op.qudits)
  runOn h (perform op)

theorem applyMerged_work (op : Operation R) (w : Workspace R S) :
    applyMerged op w = (work op >>= fun _ => if op.collapses then separate op.qudits else pure () : Act R S Unit) w := by
  rw [applyMerged, work, act_bind_apply, act_bind_apply, act_bind_apply]
  generalize change (·.merge op.qudits) w = outcome
  obtain ⟨e, m⟩ := outcome
  cases e with
  | ok h => exact act_bind_apply _ _ m
  | error e => rfl

theorem applyMerged_worked {e : Except (SimError R) Unit} (worked : work op w = (e, m)) : (∃ e, applyMerged op w = (.error e, m))
    ∨ applyMerged op w = (if op.collapses then separate op.qudits else pure () : Act R S Unit) m := by
  rw [applyMerged_work, act_bind_apply, worked]
  cases e with
  | ok u => exact Or.inr rfl
  | error e => exact Or.inl ⟨e, rfl⟩

def check (qs : List Qudit) : Act R S Unit := change fun r => do
  r.checkTargets qs
  return ((), r)

omit [Scalar R] [Representation R S] in
theorem check_done {qs : List Qudit} {w' : Workspace R S} {u : Unit} (done : check qs w = (.ok u, w')) : w' = w := by
  obtain ⟨r, asked, rfl⟩ := change_done done
  obtain ⟨-, -, same⟩ := SimError.bind_ok asked
  cases same
  rfl

omit [Scalar R] in
theorem Arena.checked (valid : Arena s w.register) {qs : List Qudit} (names : Names w.register.qudits qs) :
    check qs w = (.ok (), w) := by
  rw [check, change, valid.checkTargets_done qs names]
  rfl

-- An operation is nothing, an exchange of two labels, or work on a united state.
theorem apply_forms (op : Operation R) : (apply op : Act R S Unit) = pure ()
    ∨ (∃ a b, (apply op : Act R S Unit) = check op.qudits >>= fun _ => change fun r => do return ((), ← r.exchange a b))
    ∨ op.isIdentity = false ∧ (op.isSwap = true → op.qudits.length ≠ 2) := by
  rw [Register.apply]
  split
  · exact Or.inl rfl
  · rename_i acts
    split
    · exact Or.inr (Or.inl ⟨_, _, rfl⟩)
    · rename_i other
      refine Or.inr (Or.inr ⟨Bool.eq_false_iff.mpr acts, fun swaps two => ?_⟩)
      obtain ⟨a, b, listed⟩ := List.length_eq_two.mp two
      exact other a b swaps listed

theorem apply_united (acts : op.isIdentity = false) (joint : op.isSwap = true → op.qudits.length ≠ 2) :
    (apply op : Act R S Unit) = check op.qudits >>= fun _ => applyMerged op := by
  rw [Register.apply, acts]
  simp only [Bool.false_eq_true, if_false]
  split
  · rename_i a b swaps listed
    exact absurd (congrArg List.length listed) (joint swaps)
  · rfl

theorem Arena.apply_merged (valid : Arena s w.register) (unites : op.Unites w.register.qudits) : apply op w = applyMerged op w := by
  rw [apply_united unites.acts unites.joint, act_bind_apply, valid.checked unites.names]

variable [LawfulRepresentation R S]

structure Between (op : Operation R) (w m : Workspace R S) : Prop where
  split : m.register.split = w.register.split
  together : ∀ a b, m.register.Together a b ↔ w.register.United op.qudits a b

theorem Arena.work_between {Y M : Type} [CommMonoid M] {fits : S → Prop} {admits : List Qudit → Y → Prop} {value : S → Y → M}
    (joins : Joins fits admits value) (durable : Durable fits) (valid : Arena s w.register) (each : w.register.slots.Each fits)
    (inside : op.qudits ⊆ w.register.qudits) :
    ∃ e m, work op w = (e, m) ∧ Arena s m.register ∧ m.register.slots.Each fits ∧ Between op w m := by
  obtain ⟨h, r, -, merged, -⟩ := valid.merge_done joins each.get inside
  obtain ⟨after, t, here, -⟩ := (valid.merge op.qudits).2 (h, r) merged
  have changed : change (·.merge op.qudits) w = (.ok h, { w with register := r }) := by rw [change, merged]
  have keeps : ∀ f, Step.Keeps f (perform op : Step R S Unit) := fun f => Representation.keeps_performAs op.name op.qudits op
  have done := meets_runOn h (perform op) keeps { w with register := r } ⟨after, t, here⟩
  have held := upholds_runOn h (perform op) (durable.performed op) { w with register := r } (each_merge durable each op.qudits h merged)
  have labels := runOn_holdings h (perform op) keeps { w with register := r }
  have ran : work op w = runOn h (perform op) { w with register := r } := by rw [work, act_bind_apply, changed]
  generalize runOn h (perform op) { w with register := r } = outcome at done held labels ran
  obtain ⟨e, m⟩ := outcome
  refine ⟨e, m, ran, done.1, held, done.1.mode.trans valid.mode.symm, fun a b => ?_⟩
  rw [← valid.merge_together merged, together_iff, together_iff]
  simp only [labels]

/-- The groups after an operation are the old ones with those that it touches united. If it splits and
succeeds, each of its qudits is then alone, and the others stay together. -/
structure Regrouped (splits : Prop) (op : Operation R) (w : Workspace R S) : Prop where
  together : ∀ a b, (apply op w).2.register.Together a b ↔ w.register.United op.qudits a b
    ∧ ((apply op w).1 = .ok () → splits → ∀ q ∈ op.qudits, (a = q ↔ b = q))
  alone : (apply op w).1 = .ok () → splits → ∀ q ∈ op.qudits, [q] ∈ (apply op w).2.register.groups

theorem Arena.regrouped {splits : Prop} (valid : Arena s w.register) (inside : op.qudits ⊆ w.register.qudits)
    (together : ∀ a b, (apply op w).2.register.Together a b ↔ w.register.United op.qudits a b
      ∧ ((apply op w).1 = .ok () → splits → ∀ q ∈ op.qudits, (a = q ↔ b = q))) : Regrouped splits op w := by
  refine ⟨together, fun done divides q listed => ?_⟩
  have after := (meets_apply op w valid).1
  refine after.alone (valid.qudits_kept after ▸ inside listed) fun p near => ?_
  exact (((together q p).mp near).2 done divides q listed).mp rfl

omit [LawfulRepresentation R S] in
theorem Between.kept {splits : Prop} {e : Except (SimError R) Unit} (between : Between op w m)
    (applied : apply op w = (e, m)) (whole : e = .ok () → ¬splits) (a b : Qudit) :
    (apply op w).2.register.Together a b ↔ w.register.United op.qudits a b
      ∧ ((apply op w).1 = .ok () → splits → ∀ q ∈ op.qudits, (a = q ↔ b = q)) := by
  rw [applied, between.together]
  exact (and_iff_left fun done divides => absurd divides (whole done)).symm

end Operations

theorem Reached.regrouped_dense {s : Settings ℝ} {w : Workspace ℝ (DenseState ℝ)} {op : Operation ℝ} (reached : Reached s w)
    (unites : op.Unites w.register.qudits) : Regrouped (w.register.split = true ∧ op.collapses = true) op w := by
  have valid := reached.arena
  have inside := unites.names.inside
  obtain ⟨_, m, worked, after, full, between⟩ := valid.work_between DenseState.merges_full.toJoins DenseState.durable_full
    (reached.each DenseState.durable_full) inside
  have near : ∀ p ∈ op.qudits, ∀ q ∈ op.qudits, m.register.Together p q := by
    intro p first q second
    have touched (r : Qudit) (listed : r ∈ op.qudits) : w.register.Touched op.qudits r :=
      ⟨r, listed, valid.together_self (inside listed)⟩
    exact (between.together p q).mpr (Or.inr ⟨touched p first, touched q second⟩)
  refine valid.regrouped inside ?_
  obtain ⟨e, failed⟩ | ran := applyMerged_worked worked
  · exact between.kept ((valid.apply_merged unites).trans failed) fun done => by cases done
  · have applied := (valid.apply_merged unites).trans ran
    by_cases collapses : op.collapses = true
    · rw [if_pos collapses] at applied
      by_cases split : m.register.split = true
      · have both : (m.register.split && Representation.allowsFactoring (DenseState ℝ)) = true := by rw [split]; rfl
        rw [separate_on op.qudits m both] at applied
        cases outcome : (m.register.splitAll op.qudits).1 with
        | error e =>
            rw [outcome, after.splitAll_failed split full unites.names.once near e outcome] at applied
            exact between.kept applied fun done => by cases done
        | ok u =>
            intro a b
            rw [applied, after.splitAll_together split outcome, between.together]
            have divides : w.register.split = true ∧ op.collapses = true := ⟨between.split.symm.trans split, collapses⟩
            exact and_congr_right fun _ => ⟨fun each _ _ => each, fun each => each outcome divides⟩
      · rw [separate_off op.qudits m fun both => split (Bool.and_eq_true_iff.mp both).1] at applied
        exact between.kept applied fun _ divides => split (between.split.trans divides.1)
    · rw [if_neg collapses] at applied
      exact between.kept applied fun _ divides => collapses divides.2

theorem Reached.regrouped_stabilizer {s : Settings ℝ} {w : Workspace ℝ (StabilizerState ℝ)} {op : Operation ℝ} (reached : Reached s w)
    (unites : op.Unites w.register.qudits) : Regrouped False op w := by
  have valid := reached.arena
  have inside := unites.names.inside
  obtain ⟨_, m, worked, after, -, between⟩ := valid.work_between StabilizerState.merges_signal.toJoins StabilizerState.durable_sound
    (reached.each StabilizerState.durable_sound) inside
  refine valid.regrouped inside ?_
  obtain ⟨e, failed⟩ | ran := applyMerged_worked worked
  · exact between.kept ((valid.apply_merged unites).trans failed) fun done => by cases done
  · have applied := (valid.apply_merged unites).trans ran
    have whole : (if op.collapses then separate op.qudits else pure () : Act ℝ (StabilizerState ℝ) Unit) m = (.ok (), m) := by
      split
      · exact separate_off op.qudits m fun both => Bool.false_ne_true (Bool.and_eq_true_iff.mp both).2
      · rfl
    exact between.kept (applied.trans whole) fun _ => id

end Register

end QuantumRegister
