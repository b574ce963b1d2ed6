import QuantumRegister.Log
import QuantumRegister.Proofs.Assoc

/-!
The logs that any sequence of writes leads to, of which some may be refused. A log holds under each key
what was accepted there, in order, and nothing else.
-/

set_option autoImplicit false

namespace QuantumRegister

namespace Log

def recordsOf (log : Log) (key : String) : List (List ℕ) := (log.records? key).getD []

def branchesOf (log : Log) (key : String) : List ℕ := (log.branches? key).getD []

theorem beq_iff (a b : Log) : (a == b) = true ↔ a.keys = b.keys ∧ (∀ key, a.qudits? key = b.qudits? key)
    ∧ (∀ key, a.records? key = b.records? key) ∧ ∀ key, a.branches? key = b.branches? key := by
  change (a.keys == b.keys && Assoc.same a.qudits b.qudits && Assoc.same a.records b.records
    && Assoc.same a.branches b.branches) = true ↔ _
  simp only [Bool.and_eq_true, beq_iff_eq, Assoc.same_iff, and_assoc]
  rfl

/-! The four collections. -/

section Collections

variable (log : Log) (key k : String) (qudits : List Qudit) (values : List ℕ) (index : ℕ)

theorem keys_touch : (touch key log).keys = if key ∈ log.keys then log.keys else log.keys ++ [key] := by
  by_cases known : key ∈ log.keys <;> simp [touch, known]

@[simp] theorem qudits?_touch : (touch key log).qudits? k = log.qudits? k := by
  rw [touch]
  split <;> rfl

@[simp] theorem records?_touch : (touch key log).records? k = log.records? k := by
  rw [touch]
  split <;> rfl

@[simp] theorem branches?_touch : (touch key log).branches? k = log.branches? k := by
  rw [touch]
  split <;> rfl

@[simp] theorem keys_keepQudits : (keepQudits key qudits log).keys = log.keys := rfl

@[simp] theorem qudits?_keepQudits : (keepQudits key qudits log).qudits? k = if k = key then some qudits else log.qudits? k :=
  Assoc.find?_insert key k qudits log.qudits

@[simp] theorem records?_keepQudits : (keepQudits key qudits log).records? k = log.records? k := rfl

@[simp] theorem branches?_keepQudits : (keepQudits key qudits log).branches? k = log.branches? k := rfl

@[simp] theorem keys_pushRecord : (pushRecord key values log).keys = log.keys := rfl

@[simp] theorem qudits?_pushRecord : (pushRecord key values log).qudits? k = log.qudits? k := rfl

@[simp] theorem records?_pushRecord : (pushRecord key values log).records? k
    = if k = key then some (log.recordsOf key ++ [values]) else log.records? k := Assoc.find?_push key k values log.records

@[simp] theorem branches?_pushRecord : (pushRecord key values log).branches? k = log.branches? k := rfl

@[simp] theorem keys_pushBranch : (pushBranch key index log).keys = log.keys := rfl

@[simp] theorem qudits?_pushBranch : (pushBranch key index log).qudits? k = log.qudits? k := rfl

@[simp] theorem records?_pushBranch : (pushBranch key index log).records? k = log.records? k := rfl

@[simp] theorem branches?_pushBranch : (pushBranch key index log).branches? k
    = if k = key then some (log.branchesOf key ++ [index]) else log.branches? k := Assoc.find?_push key k index log.branches

end Collections

/-! Writes. -/

def measured (key : String) (qudits : List Qudit) (log : Log) : Log :=
  if (log.qudits? key).isSome then log else keepQudits key qudits log

section Measured

variable (log : Log) (key k : String) (qudits : List Qudit)

@[simp] theorem keys_measured : (measured key qudits log).keys = log.keys := by
  rw [measured]
  split <;> rfl

@[simp] theorem qudits?_measured : (measured key qudits log).qudits? k
    = (log.qudits? k).or (if k = key then some qudits else none) := by
  rw [measured]
  cases known : log.qudits? key with
  | none => by_cases same : k = key <;> simp [known, same]
  | some first => by_cases same : k = key <;> simp [known, same]

@[simp] theorem records?_measured : (measured key qudits log).records? k = log.records? k := by
  rw [measured]
  split <;> rfl

@[simp] theorem branches?_measured : (measured key qudits log).branches? k = log.branches? k := by
  rw [measured]
  split <;> rfl

end Measured

theorem recordMeasurement_apply {R : Type} (key : String) (qudits : List Qudit) (values : List ℕ) (log : Log) :
    (recordMeasurement key qudits values : Edit R Unit) log =
      if values.length ≠ qudits.length then (.error (.shapeMismatch [qudits.length] [values.length]), log)
      else match log.qudits? key with
        | some first =>
          if first.length ≠ qudits.length then (.error (.shapeMismatch [first.length] [qudits.length]), log)
          else (.ok (), pushRecord key values (touch key (measured key qudits log)))
        | none => (.ok (), pushRecord key values (touch key (measured key qudits log))) := by
  have read (next : Log → Edit R Unit) : (get >>= next) log = next log log := rfl
  rw [recordMeasurement]
  by_cases each : values.length = qudits.length
  · rw [if_neg (not_not.mpr each), if_neg (not_not.mpr each)]
    refine (read _).trans ?_
    cases known : log.qudits? key with
    | none =>
        have first : measured key qudits log = keepQudits key qudits log := if_neg (by simp [known])
        rw [first]
        rfl
    | some first =>
        have later : measured key qudits log = log := if_pos (by simp [known])
        rw [later]
        by_cases same : first.length = qudits.length
        · simp only [same, ne_eq, not_true_eq_false, if_false]
          rfl
        · simp only [same, ne_eq, not_false_eq_true, if_true]
          rfl
  · rw [if_pos each, if_pos each]
    rfl

inductive Write where
  | measurement (key : String) (qudits : List Qudit) (values : List ℕ)
  | branch (key : String) (index : ℕ)

namespace Write

def key : Write → String
  | measurement key _ _ => key
  | branch key _ => key

def isMeasurement : Write → Bool
  | measurement _ _ _ => true
  | branch _ _ => false

def recordsUnder (key : String) : Write → List (List ℕ)
  | measurement k _ values => if key = k then [values] else []
  | branch _ _ => []

def branchesUnder (key : String) : Write → List ℕ
  | measurement _ _ _ => []
  | branch k index => if key = k then [index] else []

def quditsUnder (key : String) : Write → Option (List Qudit)
  | measurement k qudits _ => if key = k then some qudits else none
  | branch _ _ => none

def attempt (R : Type) : Write → Edit R Unit
  | measurement key qudits values => recordMeasurement key qudits values
  | branch key index => modify fun log => log.recordBranch key index

def Fits (log : Log) : Write → Prop
  | measurement key qudits values => values.length = qudits.length
    ∧ ∀ first, log.qudits? key = some first → first.length = qudits.length
  | branch _ _ => True

def enter (log : Log) : Write → Log
  | measurement key qudits values => pushRecord key values (touch key (measured key qudits log))
  | branch key index => log.recordBranch key index

variable (R : Type) (log : Log) (w : Write)

theorem attempt_fits (fits : w.Fits log) : w.attempt R log = (.ok (), w.enter log) := by
  cases w with
  | branch key index => rfl
  | measurement key qudits values =>
      obtain ⟨each, before⟩ := fits
      rw [attempt, recordMeasurement_apply, if_neg (not_not.mpr each), enter]
      cases known : log.qudits? key with
      | none => rfl
      | some first => exact if_neg (not_not.mpr (before first known))

theorem attempt_refused (unfit : ¬w.Fits log) : ∃ e, w.attempt R log = (.error e, log) := by
  cases w with
  | branch key index => exact absurd trivial unfit
  | measurement key qudits values =>
      rw [attempt, recordMeasurement_apply]
      by_cases each : values.length = qudits.length
      · rw [if_neg (not_not.mpr each)]
        cases known : log.qudits? key with
        | none =>
            refine absurd ⟨each, fun first found => ?_⟩ unfit
            rw [known] at found
            cases found
        | some first =>
            have other : first.length ≠ qudits.length := fun same => unfit ⟨each, fun other found => by
              rw [known] at found
              exact Option.some.inj found ▸ same⟩
            exact ⟨_, if_pos other⟩
      · exact ⟨_, if_pos each⟩

theorem attempt_ok : (w.attempt R log).1 = .ok () ↔ w.Fits log := by
  by_cases fits : w.Fits log
  · exact ⟨fun _ => fits, fun _ => congrArg Prod.fst (attempt_fits R log w fits)⟩
  · obtain ⟨e, refused⟩ := attempt_refused R log w fits
    rw [refused]
    exact ⟨nofun, fun accepted => absurd accepted fits⟩

/-! What is written is what is read. -/

theorem keys_enter : (w.enter log).keys = if w.key ∈ log.keys then log.keys else log.keys ++ [w.key] := by
  cases w with
  | branch key index => exact keys_touch log key
  | measurement key qudits values =>
      rw [enter, keys_pushRecord, keys_touch, keys_measured]
      rfl

theorem qudits?_enter (key : String) : (w.enter log).qudits? key = (log.qudits? key).or (w.quditsUnder key) := by
  cases w with
  | branch k index => simp [enter, recordBranch, quditsUnder]
  | measurement k qudits values => simp [enter, quditsUnder]

theorem records?_enter (key : String) : (w.enter log).records? key
    = if w.recordsUnder key = [] then log.records? key else some (log.recordsOf key ++ w.recordsUnder key) := by
  cases w with
  | branch k index => simp [enter, recordBranch, recordsUnder]
  | measurement k qudits values => by_cases same : key = k <;> simp [enter, recordsUnder, recordsOf, same]

theorem branches?_enter (key : String) : (w.enter log).branches? key
    = if w.branchesUnder key = [] then log.branches? key else some (log.branchesOf key ++ w.branchesUnder key) := by
  cases w with
  | branch k index => by_cases same : key = k <;> simp [enter, recordBranch, branchesUnder, branchesOf, same]
  | measurement k qudits values => simp [enter, branchesUnder]

theorem recordsOf_enter (key : String) : (w.enter log).recordsOf key = log.recordsOf key ++ w.recordsUnder key := by
  rw [recordsOf, records?_enter]
  split
  · rename_i nothing
    rw [nothing, List.append_nil, recordsOf]
  · rfl

theorem branchesOf_enter (key : String) : (w.enter log).branchesOf key = log.branchesOf key ++ w.branchesUnder key := by
  rw [branchesOf, branches?_enter]
  split
  · rename_i nothing
    rw [nothing, List.append_nil, branchesOf]
  · rfl

theorem written_under (key : String) : w.recordsUnder key ≠ [] ∨ w.branchesUnder key ≠ [] ↔ key = w.key := by
  cases w <;> simp [recordsUnder, branchesUnder, Write.key]

theorem measured_under (key : String) : (w.quditsUnder key).isSome ↔ w.recordsUnder key ≠ [] := by
  cases w with
  | measurement k qudits values => by_cases same : key = k <;> simp [quditsUnder, recordsUnder, same]
  | branch k index => simp [quditsUnder, recordsUnder]

variable {log w}

theorem length_under (fits : w.Fits log) (key : String) (values : List ℕ) (listed : values ∈ w.recordsUnder key) :
    ∃ qs, w.quditsUnder key = some qs ∧ values.length = qs.length
      ∧ ∀ first, log.qudits? key = some first → first.length = qs.length := by
  cases w with
  | branch k index => cases listed
  | measurement k qudits found =>
      rw [recordsUnder] at listed
      split at listed
      · rename_i same
        subst same
        obtain rfl := List.mem_singleton.mp listed
        exact ⟨qudits, if_pos rfl, fits.1, fits.2⟩
      · cases listed

end Write

/-! What holds of every log. -/

/-- The four collections are in step: each key is listed once, those with something written there are listed,
and qudits are known for those with records, whose length they give. -/
structure WellFormed (log : Log) : Prop where
  distinct : log.keys.Nodup
  written : ∀ key, key ∈ log.keys ↔ (log.records? key).isSome ∨ (log.branches? key).isSome
  filled : ∀ key, log.records? key ≠ some [] ∧ log.branches? key ≠ some []
  measured : ∀ key, (log.qudits? key).isSome ↔ (log.records? key).isSome
  lengths : ∀ key qs values, log.qudits? key = some qs → values ∈ log.recordsOf key → values.length = qs.length

structure Extends (old new : Log) : Prop where
  keys : old.keys <+: new.keys
  records : ∀ key, old.recordsOf key <+: new.recordsOf key
  branches : ∀ key, old.branchesOf key <+: new.branchesOf key
  qudits : ∀ key qs, old.qudits? key = some qs → new.qudits? key = some qs

variable {log mid log' : Log} {w : Write} {ws ws' : List Write}

theorem Extends.refl (log : Log) : log.Extends log :=
  ⟨List.prefix_refl _, fun _ => List.prefix_refl _, fun _ => List.prefix_refl _, fun _ _ => id⟩

theorem Extends.trans (first : log.Extends mid) (second : mid.Extends log') : log.Extends log' :=
  ⟨first.keys.trans second.keys, fun key => (first.records key).trans (second.records key),
    fun key => (first.branches key).trans (second.branches key), fun key qs known => second.qudits key qs (first.qudits key qs known)⟩

theorem Extends.enter (log : Log) (w : Write) : log.Extends (w.enter log) where
  keys := by
    rw [Write.keys_enter]
    split
    · exact List.prefix_refl _
    · exact List.prefix_append _ _
  records key := by
    rw [Write.recordsOf_enter]
    exact List.prefix_append _ _
  branches key := by
    rw [Write.branchesOf_enter]
    exact List.prefix_append _ _
  qudits key qs known := by rw [Write.qudits?_enter, known, Option.some_or]

theorem wellFormed_empty : Log.empty.WellFormed where
  distinct := List.nodup_nil
  written key := by simp [Log.empty, records?, branches?, Assoc.find?]
  filled key := ⟨nofun, nofun⟩
  measured key := Iff.rfl
  lengths key qs values known := nomatch known

theorem WellFormed.enter (held : log.WellFormed) (fits : w.Fits log) : (w.enter log).WellFormed where
  distinct := by
    rw [Write.keys_enter]
    split
    · exact held.distinct
    · rename_i fresh
      exact List.nodup_append'.mpr ⟨held.distinct, List.nodup_singleton _, List.disjoint_singleton.mpr fresh⟩
  written key := by
    have listed : key ∈ (w.enter log).keys ↔ key ∈ log.keys ∨ key = w.key := by
      rw [Write.keys_enter]
      split
      · exact ⟨Or.inl, fun either => either.elim id fun same => same ▸ ‹w.key ∈ log.keys›⟩
      · simp
    rw [listed, Write.records?_enter, Write.branches?_enter, held.written, ← w.written_under key]
    split <;> split <;> simp_all
  filled key := by
    rw [Write.records?_enter, Write.branches?_enter]
    constructor
    · split
      · exact (held.filled key).1
      · simp_all
    · split
      · exact (held.filled key).2
      · simp_all
  measured key := by
    rw [Write.qudits?_enter, Write.records?_enter, Option.isSome_or, Bool.or_eq_true, held.measured, w.measured_under]
    split <;> simp_all
  lengths key qs values known listed := by
    rw [Write.qudits?_enter] at known
    rw [Write.recordsOf_enter, List.mem_append] at listed
    cases before : log.qudits? key with
    | some first =>
        rw [before, Option.some_or] at known
        obtain rfl := Option.some.inj known
        rcases listed with old | new
        · exact held.lengths key first values before old
        · obtain ⟨qs, -, length, same⟩ := Write.length_under fits key values new
          exact length.trans (same first before).symm
    | none =>
        have unmeasured : log.records? key = none := by
          rw [← Option.not_isSome_iff_eq_none, ← held.measured, before]
          exact Bool.false_ne_true
        rw [before, Option.none_or] at known
        rw [recordsOf, unmeasured] at listed
        rcases listed with old | new
        · cases old
        · obtain ⟨qs', here, length, -⟩ := Write.length_under fits key values new
          exact length.trans (congrArg List.length (Option.some.inj (here.symm.trans known)))

/-! Many writes. -/

inductive Written : Log → List Write → Log → Prop
  | nil (log : Log) : Written log [] log
  | cons (log : Log) (w : Write) (ws : List Write) (log' : Log) (fits : w.Fits log) (rest : Written (w.enter log) ws log') :
      Written log (w :: ws) log'

theorem Written.append (first : Written log ws mid) (second : Written mid ws' log') : Written log (ws ++ ws') log' := by
  induction first with
  | nil log => exact second
  | cons log w ws mid fits rest ih => exact .cons log w _ log' fits (ih second)

theorem Written.wellFormed (written : Written log ws log') (held : log.WellFormed) : log'.WellFormed := by
  induction written with
  | nil log => exact held
  | cons log w ws log' fits rest ih => exact ih (held.enter fits)

theorem Written.records (written : Written log ws log') (key : String) :
    log'.recordsOf key = log.recordsOf key ++ ws.flatMap (Write.recordsUnder key) := by
  induction written with
  | nil log => exact (List.append_nil _).symm
  | cons log w ws log' fits rest ih => rw [ih, Write.recordsOf_enter, List.append_assoc, List.flatMap_cons]

theorem Written.branches (written : Written log ws log') (key : String) :
    log'.branchesOf key = log.branchesOf key ++ ws.flatMap (Write.branchesUnder key) := by
  induction written with
  | nil log => exact (List.append_nil _).symm
  | cons log w ws log' fits rest ih => rw [ih, Write.branchesOf_enter, List.append_assoc, List.flatMap_cons]

theorem Written.qudits (written : Written log ws log') (key : String) :
    log'.qudits? key = (log.qudits? key).or (ws.findSome? (Write.quditsUnder key)) := by
  induction written with
  | nil log => exact (Option.or_none).symm
  | cons log w ws log' fits rest ih =>
      rw [ih, Write.qudits?_enter, Option.or_assoc, List.findSome?_cons]
      cases w.quditsUnder key <;> rfl

def nonempty {α : Type} (xs : List α) : Option (List α) := if xs.isEmpty then none else some xs

theorem nonempty_getD {α : Type} (x : Option (List α)) (filled : x ≠ some []) : nonempty (x.getD []) = x := by
  rcases x with _ | _ | ⟨a, as⟩
  · rfl
  · exact absurd rfl filled
  · rfl

structure Holding (log : Log) (ws : List Write) : Prop where
  wellFormed : log.WellFormed
  records : ∀ key, log.records? key = nonempty (ws.flatMap (Write.recordsUnder key))
  branches : ∀ key, log.branches? key = nonempty (ws.flatMap (Write.branchesUnder key))
  qudits : ∀ key, log.qudits? key = ws.findSome? (Write.quditsUnder key)

theorem Written.holding (written : Written Log.empty ws log) : log.Holding ws where
  wellFormed := written.wellFormed wellFormed_empty
  records key := by
    rw [← nonempty_getD _ ((written.wellFormed wellFormed_empty).filled key).1]
    exact congrArg nonempty (written.records key)
  branches key := by
    rw [← nonempty_getD _ ((written.wellFormed wellFormed_empty).filled key).2]
    exact congrArg nonempty (written.branches key)
  qudits key := written.qudits key

section Attempts

variable (R : Type)

def after (log : Log) (w : Write) : Log := (w.attempt R log).2

def accepted (log : Log) : List Write → List Write
  | [] => []
  | w :: ws =>
    match w.attempt R log with
    | (.ok _, log') => w :: accepted log' ws
    | (.error _, log') => accepted log' ws

theorem written_accepted (log : Log) (ws : List Write) : Written log (accepted R log ws) (ws.foldl (after R) log) := by
  induction ws generalizing log with
  | nil => exact .nil log
  | cons w ws ih =>
      rw [accepted, List.foldl_cons, after]
      by_cases fits : w.Fits log
      · rw [Write.attempt_fits R log w fits]
        exact .cons log w _ _ fits (ih _)
      · obtain ⟨e, refused⟩ := Write.attempt_refused R log w fits
        rw [refused]
        exact ih log

theorem holding_accepted (ws : List Write) : (ws.foldl (after R) Log.empty).Holding (accepted R Log.empty ws) :=
  (written_accepted R Log.empty ws).holding

theorem refused_unchanged {log log' : Log} {w : Write} {e : SimError R} (refused : w.attempt R log = (.error e, log')) :
    log' = log := by
  by_cases fits : w.Fits log
  · rw [Write.attempt_fits R log w fits] at refused
    cases refused
  · obtain ⟨e, failed⟩ := Write.attempt_refused R log w fits
    rw [failed] at refused
    exact (congrArg Prod.snd refused).symm

theorem extends_after (log : Log) (w : Write) : log.Extends (after R log w) := by
  by_cases fits : w.Fits log
  · rw [after, Write.attempt_fits R log w fits]
    exact .enter log w
  · obtain ⟨e, refused⟩ := Write.attempt_refused R log w fits
    rw [after, refused]
    exact .refl log

end Attempts

/-! Writes of which only the measurements are told. -/

/-- The measurements in `ms` were written, and between them any branch indices. -/
def Noted (ms : List Write) (log log' : Log) : Prop := ∃ ws, Written log ws log' ∧ ws.filter Write.isMeasurement = ms

structure Appends (ms : List Write) (old new : Log) : Prop extends old.Extends new where
  kept : old.WellFormed → new.WellFormed
  appended : ∀ key, new.recordsOf key = old.recordsOf key ++ ms.flatMap (Write.recordsUnder key)

variable {ms ms' : List Write}

theorem Noted.refl (log : Log) : Noted [] log log := ⟨[], .nil log, rfl⟩

theorem Noted.trans (first : Noted ms log mid) (second : Noted ms' mid log') : Noted (ms ++ ms') log log' := by
  obtain ⟨ws, written, rfl⟩ := first
  obtain ⟨ws', further, rfl⟩ := second
  exact ⟨ws ++ ws', written.append further, List.filter_append ..⟩

theorem noted_branch (log : Log) (key : String) (index : ℕ) : Noted [] log (log.recordBranch key index) :=
  ⟨[.branch key index], .cons _ _ _ _ trivial (.nil _), rfl⟩

theorem noted_measurement (R : Type) (log : Log) (key : String) (qudits : List Qudit) (values : List ℕ) :
    Noted (accepted R log [.measurement key qudits values]) log ((recordMeasurement key qudits values : Edit R Unit) log).2 := by
  have called : (recordMeasurement key qudits values : Edit R Unit) log = (Write.measurement key qudits values).attempt R log := rfl
  rw [called, accepted]
  by_cases fits : (Write.measurement key qudits values).Fits log
  · rw [Write.attempt_fits R log _ fits]
    exact ⟨[_], .cons _ _ _ _ fits (.nil _), rfl⟩
  · obtain ⟨e, refused⟩ := Write.attempt_refused R log _ fits
    rw [refused]
    exact .refl log

theorem Write.records_filter (key : String) (ws : List Write) :
    (ws.filter isMeasurement).flatMap (recordsUnder key) = ws.flatMap (recordsUnder key) := by
  induction ws with
  | nil => rfl
  | cons w ws ih =>
      cases w with
      | measurement k qudits values => exact congrArg (recordsUnder key (.measurement k qudits values) ++ ·) ih
      | branch k index => exact ih

theorem Noted.appends (noted : Noted ms log log') : Appends ms log log' := by
  obtain ⟨ws, written, rfl⟩ := noted
  refine ⟨?_, written.wellFormed, fun key => ?_⟩
  · induction written with
    | nil log => exact .refl log
    | cons log w ws log' fits rest ih => exact (Extends.enter log w).trans ih
  · rw [written.records, Write.records_filter]

end Log

end QuantumRegister
