import QuantumRegister.Proofs.Assignment
import QuantumRegister.Proofs.Register.Mirror

/-!
A register of stabilizer states and a single form of all its qubits go through the same events: the
generators of the operations, and the outcomes that the register draws. Whatever these are, the joint
state of the register has the amplitudes of the form.
-/

set_option autoImplicit false

namespace QuantumRegister

open QuantumRegister.MixedRadix
open QuantumRegister.Representation (frame perform bench run_of)
open QuantumRegister.StabilizerState (signal Sound)

/-! Basis states. -/

namespace Form

theorem across_basis (L : List Qudit) (index : ℕ) (β : Qudit → ZMod 2) :
    (basis L.length index : Form ℝ).across L β = if L.map β = (bitsOf L.length index).map gf then 1 else 0 := by
  rw [across, wave_basis]
  refine if_congr ?_ rfl rfl
  constructor
  · intro same
    refine List.ext_getElem (by simp [bitsOf]) fun i left right => ?_
    have inside : i < L.length := by simpa using left
    have here := congrFun same ⟨i, inside⟩
    rw [List.getD_eq_getElem _ _ inside] at here
    simpa [bitsOf] using here
  · intro same
    funext i
    have here := congrArg (·[(i : ℕ)]?) same
    rw [List.getD_eq_getElem _ _ i.isLt]
    simpa [bitsOf] using here

theorem across_nothing (index : ℕ) : (basis 0 index : Form ℝ).across [] = 1 := funext fun β =>
  (across_basis [] index β).trans (if_pos rfl)

theorem bitsOf_succ (n index : ℕ) : bitsOf (n + 1) index = index.testBit n :: bitsOf n index := by
  rw [bitsOf, List.range_succ_eq_map, List.map_cons, List.map_map, bitsOf]
  refine congrArg₂ List.cons rfl (List.map_congr_left fun k _ => ?_)
  rw [Function.comp_apply, show n + 1 - 1 - k.succ = n - 1 - k by omega]

end Form

namespace StabilizerState

theorem basisState_done (qs : List Qudit) (index : ℕ) (source : SourceRef) (log : LogRef) (t : StabilizerState ℝ)
    (made : Representation.basisState qs index source log = .ok t) :
    (∀ q ∈ qs, q.dim = 2) ∧ t.frame.qudits = qs ∧ t.form = Form.basis qs.length index := by
  obtain ⟨_, checked, made⟩ := SimError.bind_ok made
  obtain ⟨f, framed, made⟩ := SimError.bind_ok made
  obtain ⟨-, listed, -, -⟩ := Frame.exact_of _ _ _ _ framed
  have two : ∀ q ∈ qs, q.dim = 2 := by
    have checked : checkQubits (R := ℝ) qs = .ok () := checked
    rw [checkQubits] at checked
    split at checked
    · cases checked
    · rename_i none
      simpa using none
  dsimp only at made
  split at made
  · cases made
  · cases made
    exact ⟨two, listed, congrArg (Form.basis · index) (congrArg List.length listed)⟩

theorem basisState_signal (qs : List Qudit) (index : ℕ) (source : SourceRef) (log : LogRef) (t : StabilizerState ℝ)
    (made : Representation.basisState qs index source log = .ok t) :
    Form.Tableau t.frame.qudits.length t.form ∧ t.signal = (Form.basis qs.length index).across qs := by
  obtain ⟨-, listed, form⟩ := basisState_done qs index source log t made
  rw [signal, form, listed]
  exact ⟨Form.tableau_basis qs.length index, rfl⟩

end StabilizerState

namespace Register

/-! The events of an operation. -/

section Scripts

variable {R : Type} [Scalar R]

-- Apart from exchanges, operations act on one state, after the owners of its qudits are united.
def unitedScript (op : Operation R) (w : Workspace R (StabilizerState R)) : List Event :=
  match w.register.merge op.qudits with
  | .ok (h, r) => ((r.slots.get? h).map fun t => StabilizerState.script op (bench t w.cells)).getD []
  | .error _ => []

def script (op : Operation R) (w : Workspace R (StabilizerState R)) : List Event :=
  if op.isIdentity then []
  else
    match op.isSwap, op.qudits with
    | true, [a, b] => exchangeScript a b
    | _, _ => unitedScript op w

def scriptAll : List (Operation R) → Workspace R (StabilizerState R) → List Event
  | [], _ => []
  | op :: ops, w => script op w ++ scriptAll ops (Register.apply op w).2

end Scripts

/-! New registers. -/

theorem singles_signal (source : SourceRef) (log : LogRef) (qs : List Qudit) (index : ℕ) (states : List (StabilizerState ℝ))
    (made : singles source log (qs.zip (digits (Qudit.dims qs) index)) = .ok states) :
    size (Qudit.dims qs) = 2 ^ qs.length ∧ (∀ t ∈ states, Form.Tableau t.frame.qudits.length t.form)
      ∧ (states.map signal).prod = (Form.basis qs.length index).across qs := by
  induction qs generalizing states with
  | nil =>
      cases made
      exact ⟨rfl, fun t member => (List.not_mem_nil member).elim, (Form.across_nothing index).symm⟩
  | cons q qs ih =>
      rw [Qudit.dims_cons, digits_cons, List.zip_cons_cons] at made
      obtain ⟨t, first, made⟩ := SimError.bind_ok made
      obtain ⟨rest, later, made⟩ := SimError.bind_ok made
      cases made
      obtain ⟨count, valid, product⟩ := ih rest later
      obtain ⟨two, -, -⟩ := StabilizerState.basisState_done _ _ _ _ t first
      obtain ⟨own, wave⟩ := StabilizerState.basisState_signal _ _ _ _ t first
      have qubit : q.dim = 2 := two q List.mem_cons_self
      refine ⟨?_, List.forall_mem_cons.mpr ⟨own, valid⟩, funext fun β => ?_⟩
      · rw [Qudit.dims_cons, size_cons, count, qubit, List.length_cons, Nat.pow_succ']
      · -- The digit of the first qubit is the highest bit of the position.
        have high : (index / size (Qudit.dims qs) % q.dim).testBit 0 = index.testBit qs.length := by
          rw [count, qubit, Nat.testBit_zero, Nat.mod_mod, Nat.testBit_eq_decide_div_mod_eq]
        have alone : Form.bitsOf [q].length (index / size (Qudit.dims qs) % q.dim) = [index.testBit qs.length] :=
          congrArg (fun b => [b]) high
        rw [List.map_cons, List.prod_cons, product, wave, Pi.mul_apply, Form.across_basis, Form.across_basis, Form.across_basis,
          alone, List.length_cons, Form.bitsOf_succ]
        by_cases here : β q = Form.gf (index.testBit qs.length)
        · simp [here]
        · simp [here]

variable {s : Settings ℝ} {r r' : Register ℝ (StabilizerState ℝ)} {Φ : Form ℝ}

theorem initialStates_signal (s : Settings ℝ) (qs : List Qudit) (source : SourceRef) (log : LogRef)
    (states : List (StabilizerState ℝ)) (made : initialStates s qs source log = .ok states) :
    (∀ t ∈ states, Form.Tableau t.frame.qudits.length t.form)
      ∧ (states.map signal).prod = (Form.basis qs.length s.initial).across qs := by
  rw [initialStates] at made
  split at made
  · obtain ⟨singles, each, made⟩ := SimError.bind_ok made
    obtain ⟨t, last, made⟩ := SimError.bind_ok made
    cases made
    obtain ⟨-, valid, product⟩ := singles_signal _ _ qs s.initial singles each
    obtain ⟨own, wave⟩ := StabilizerState.basisState_signal _ _ _ _ t last
    have nothing : t.signal = 1 := wave.trans (Form.across_nothing 0)
    refine ⟨fun u member => ?_, ?_⟩
    · rcases List.mem_append.mp member with single | empty
      · exact valid u single
      · exact List.mem_singleton.mp empty ▸ own
    · rw [List.map_append, List.prod_append, product, List.map_singleton, List.prod_singleton, nothing, mul_one]
  · obtain ⟨t, first, made⟩ := SimError.bind_ok made
    cases made
    obtain ⟨own, wave⟩ := StabilizerState.basisState_signal _ _ _ _ t first
    refine ⟨fun u member => List.mem_singleton.mp member ▸ own, ?_⟩
    rw [List.map_singleton, List.prod_singleton, wave]

theorem new_mirrors (c c' : Cells) (made : Register.new s c = .ok (r, c')) :
    Mirrors s r (Form.basis r.qudits.length s.initial) := by
  have arena := new_arena c c' made
  obtain ⟨qs, -, made⟩ := SimError.bind_ok made
  obtain ⟨states, begun, made⟩ := SimError.bind_ok made
  cases made
  obtain ⟨valid, product⟩ := initialStates_signal s qs _ _ states begun
  refine ⟨arena, fun h t live => ?_, Form.tableau_basis _ _, (Slots.whole_ofList states).trans product⟩
  exact valid t (List.mem_of_getElem? ((get?_ofList states h).symm.trans live))

/-! The form goes through the events. -/

structure Advances (s : Settings ℝ) (r : Register ℝ (StabilizerState ℝ)) (Φ : Form ℝ) (es : List Event)
    (r' : Register ℝ (StabilizerState ℝ)) : Prop where
  mirrors : Mirrors s r' (Event.replay r.qudits Φ es)
  ran : es.foldlM (Event.play? r.qudits) Φ = some (Event.replay r.qudits Φ es)

theorem Advances.trans {r'' : Register ℝ (StabilizerState ℝ)} {es es' : List Event} (before : Mirrors s r Φ)
    (first : Advances s r Φ es r') (second : Advances s r' (Event.replay r.qudits Φ es) es' r'') :
    Advances s r Φ (es ++ es') r'' := by
  have same := before.arena.qudits_kept first.mirrors.arena
  obtain ⟨after, ran⟩ := second
  rw [same] at after ran
  have both := Event.replay_append r.qudits Φ es es'
  refine ⟨both ▸ after, ?_⟩
  rw [List.foldlM_append, first.ran, both]
  exact ran

variable {w w' : Workspace ℝ (StabilizerState ℝ)}

theorem Mirrors.applyMerged (mirrors : Mirrors s w.register Φ) (op : Operation ℝ)
    (done : Register.applyMerged op w = (.ok (), w')) : Advances s w.register Φ (unitedScript op w) w'.register := by
  obtain ⟨h, m, united, done⟩ := act_bind_done done
  obtain ⟨r, merged, rfl⟩ := change_done united
  obtain ⟨between, qudits⟩ := mirrors.merge op.qudits h r merged
  obtain ⟨_, m, ran, done⟩ := act_bind_done done
  have last : w' = m := by
    split at done
    · rw [Register.separate, show Representation.allowsFactoring (StabilizerState ℝ) = false from rfl, Bool.and_false] at done
      cases done
      rfl
    · cases done
      rfl
  obtain ⟨t, u, live, stepped, put⟩ := runOn_done ran
  have follows := StabilizerState.performAs_done op.name op.qudits op (bench t w.cells) u (between.arena.exact h t live) stepped
  have events : unitedScript op w = StabilizerState.script op (bench t w.cells) := by
    rw [unitedScript, merged]
    exact congrArg (fun found => (Option.map _ found).getD []) live
  obtain ⟨after, played⟩ := between.follow h t u.state live _ follows.frame follows.form follows.names
  rw [last, put, events]
  exact ⟨qudits ▸ after, qudits ▸ played⟩

theorem Mirrors.apply (mirrors : Mirrors s w.register Φ) (op : Operation ℝ)
    (done : Register.apply op w = (.ok (), w')) : Advances s w.register Φ (script op w) w'.register := by
  rw [Register.apply] at done
  rw [script]
  split at done
  · rename_i identity
    cases done
    rw [if_pos identity]
    exact ⟨mirrors, rfl⟩
  · rename_i acts
    rw [if_neg acts]
    obtain ⟨_, m, checked, done⟩ := act_bind_done done
    obtain ⟨r, passed, rfl⟩ := change_done checked
    obtain ⟨_, targets, same⟩ := SimError.bind_ok passed
    cases same
    have names := mirrors.arena.checkTargets_names op.qudits targets
    generalize listed : op.qudits = qs at done names ⊢
    generalize op.isSwap = isSwap at done ⊢
    cases isSwap with
    | false => exact mirrors.applyMerged op done
    | true =>
        rcases qs with _ | ⟨a, _ | ⟨b, _ | ⟨c, rest⟩⟩⟩
        · exact mirrors.applyMerged op done
        · exact mirrors.applyMerged op done
        · obtain ⟨r', changed, rfl⟩ := change_done done
          obtain ⟨r'', exchanged, same⟩ := SimError.bind_ok changed
          cases same
          obtain ⟨after, played⟩ := mirrors.exchange a b names r' exchanged
          exact ⟨after, played⟩
        · exact mirrors.applyMerged op done

theorem Mirrors.applyAll (mirrors : Mirrors s w.register Φ) (ops : List (Operation ℝ))
    (done : Register.applyAll ops w = (.ok (), w')) : Advances s w.register Φ (scriptAll ops w) w'.register := by
  induction ops generalizing w Φ with
  | nil =>
      cases done
      exact ⟨mirrors, rfl⟩
  | cons op ops ih =>
      obtain ⟨_, m, first, done⟩ := act_bind_done done
      have advances := mirrors.apply op first
      rw [scriptAll, first]
      exact advances.trans mirrors (ih advances.mirrors done)

/-! The joint state of all qudits. -/

theorem Mirrors.merged (mirrors : Mirrors s r Φ) :
    ∃ m, r.merged = .ok m ∧ m.Sound ∧ m.frame.qudits = r.qudits ∧ m.signal = Φ.across r.qudits := by
  obtain ⟨m, merged, sound, order, product⟩ := StabilizerState.merges_signal.merged mirrors.arena mirrors.sound
  refine ⟨m, merged, sound, order, funext fun β => ?_⟩
  rw [product β trivial, ← mirrors.signal, Slots.whole_at]

theorem amplitude_across (L : List Qudit) (once : L.Nodup) (a b : Form ℝ) (left : Form.Tableau L.length a)
    (right : Form.Tableau L.length b) (same : a.across L = b.across L) (bits : List Bool) : a.amplitude? bits = b.amplitude? bits := by
  rw [Form.amplitude?, Form.amplitude?, left.width, right.width]
  refine congrArg (fun z => if bits.length = L.length then some z else none) (Cplx.toComplex_injective ?_)
  rw [Form.amplitude_eq_wave a bits left.width, Form.amplitude_eq_wave b bits right.width]
  obtain ⟨β, read⟩ := Event.read_surjective once fun p : Fin L.length => Form.gf (bits.getD p false)
  rw [← read]
  exact congrFun same β

end Register

open Register

-- The joint state of a register has the amplitudes of one form that goes through the events of the register.
theorem register_follows_form (s : Settings ℝ) (c d d' : Cells) (r r' : Register ℝ (StabilizerState ℝ)) (ops : List (Operation ℝ))
    (made : Register.new s c = .ok (r, d)) (e : Cells) (done : Register.applyAll ops ⟨r, e⟩ = (.ok (), ⟨r', d'⟩)) :
    ∃ m Φ, r'.merged = .ok m ∧ m.frame.qudits = r.qudits
      ∧ (scriptAll ops ⟨r, e⟩).foldlM (Event.play? r.qudits) (Form.basis r.qudits.length s.initial) = some Φ
      ∧ ∀ bits, m.form.amplitude? bits = Φ.amplitude? bits := by
  have mirrors := new_mirrors c d made
  obtain ⟨after, ran⟩ := mirrors.applyAll ops done
  have same := mirrors.arena.qudits_kept after.arena
  obtain ⟨m, merged, sound, order, signal⟩ := after.merged
  refine ⟨m, _, merged, order.trans same, ran, amplitude_across m.frame.qudits sound.exact.distinct _ _ sound.valid ?_ ?_⟩
  · exact order ▸ after.whole
  · exact signal.trans (congrArg (Form.across · _) order.symm)

noncomputable def pairRegister : Register ℝ (StabilizerState ℝ) where
  slots := Slots.ofList [⟨⟨[Qudit.qubit 0], [(Qudit.qubit 0, 0)], ⟨0⟩, ⟨0⟩⟩, Form.basis 1 0⟩,
    ⟨⟨[Qudit.qubit 1], [(Qudit.qubit 1, 0)], ⟨0⟩, ⟨0⟩⟩, Form.basis 1 0⟩, ⟨⟨[], [], ⟨0⟩, ⟨0⟩⟩, Form.basis 0 0⟩]
  owners := [(Qudit.qubit 0, 0), (Qudit.qubit 1, 1)]
  home := 2
  qudits := [Qudit.qubit 0, Qudit.qubit 1]
  split := true
  tolerance := 0
  source := ⟨0⟩
  log := ⟨0⟩

def pairCells : Cells := ⟨#[Random.Source.ofSeed 0], #[Log.empty]⟩

theorem pairRegister_new : Register.new pairSettings {} = .ok (pairRegister, pairCells) := by
  rw [Register.new, pair_validated]
  rfl

noncomputable def pairOperations : List (Operation ℝ) :=
  [(Gate.h (Qudit.qubit 0)).operation, (Gate.cx (Qudit.qubit 0) (Qudit.qubit 1)).operation,
    (Gate.swap (Qudit.qubit 0) (Qudit.qubit 1)).operation, (⟨[Qudit.qubit 0], "m", [], [], true⟩ : Measurement ℝ).operation,
    Operation.reset [Qudit.qubit 1]]

theorem register_follows_form_pair :
    ∃ w m Φ, Register.new pairSettings {} = .ok (pairRegister, pairCells)
      ∧ Register.applyAll pairOperations ⟨pairRegister, pairCells⟩ = (.ok (), w) ∧ w.register.merged = .ok m
      ∧ (scriptAll pairOperations ⟨pairRegister, pairCells⟩).foldlM (Event.play? pairRegister.qudits) (Form.basis 2 0) = some Φ
      ∧ ∀ bits, m.form.amplitude? bits = Φ.amplitude? bits := by
  have succeeds : (Register.applyAll pairOperations ⟨pairRegister, pairCells⟩).1.isOk = true := by decide +kernel
  generalize ran : Register.applyAll pairOperations ⟨pairRegister, pairCells⟩ = outcome at succeeds
  obtain ⟨e, w⟩ := outcome
  cases e with
  | error e => cases succeeds
  | ok u =>
      obtain ⟨m, Φ, merged, -, played, same⟩ := register_follows_form pairSettings {} pairCells w.cells pairRegister w.register
        pairOperations pairRegister_new pairCells ran
      exact ⟨w, m, Φ, pairRegister_new, rfl, merged, played, same⟩

end QuantumRegister
