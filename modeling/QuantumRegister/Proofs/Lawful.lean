import QuantumRegister.Dense.State
import QuantumRegister.Proofs.Representation
import QuantumRegister.Stabilizer.State

/-!
Dense states and stabilizer states obey the laws of representations.
-/

set_option autoImplicit false

namespace QuantumRegister

open QuantumRegister.SimError (Clean)
open QuantumRegister.Step

variable {R : Type} {f : Frame}

theorem Operator.clean_checkSquare (qs : List Qudit) (m : Operator R) : Clean (checkSquare qs m) := by
  intro h
  simp only [checkSquare]
  split <;> simp

theorem Operator.clean_checkAll (qs : List Qudit) (ms : List (Operator R)) : Clean (checkAll qs ms) := by
  induction ms with
  | nil => exact SimError.clean_ok ()
  | cons m ms ih =>
      rw [checkAll]
      split
      · rename_i e failed
        exact SimError.clean_passed _ e (clean_checkSquare qs m) failed
      · exact ih

namespace DenseState

theorem clean_layout (ψ : DenseState R) (qs : List Qudit) : Clean (ψ.layout qs) := by
  rw [layout]
  split
  · rename_i e failed
    exact SimError.clean_passed _ e (Frame.clean_axes ψ.frame qs) failed
  · exact SimError.clean_ok _

variable [Scalar R]

theorem clean_applyMatrix (ψ : DenseState R) (qs : List Qudit) (m : Operator R) : Clean (ψ.applyMatrix qs m) := by
  rw [applyMatrix]
  split
  · rename_i e failed
    exact SimError.clean_passed _ e (Operator.clean_checkSquare qs m) failed
  · split
    · rename_i e failed
      exact SimError.clean_passed _ e (clean_layout ψ qs) failed
    · exact SimError.clean_ok _

theorem frame_applyMatrix (ψ φ : DenseState R) (qs : List Qudit) (m : Operator R) (applied : ψ.applyMatrix qs m = .ok φ) :
    φ.frame = ψ.frame := by
  rw [applyMatrix] at applied
  split at applied
  · cases applied
  · split at applied
    · cases applied
    · cases applied
      rfl

theorem keeps_applied (ψ : DenseState R) (qs : List Qudit) (m : Operator R) (held : ψ.frame = f) :
    Keeps f (Step.ofExcept (ψ.applyMatrix qs m) >>= fun φ => setState φ : Step R (DenseState R) Unit) := by
  cases applied : ψ.applyMatrix qs m with
  | ok φ => exact keeps_setState φ ((frame_applyMatrix ψ φ qs m applied).trans held)
  | error e => exact keeps_throw e (SimError.clean_passed _ e (clean_applyMatrix ψ qs m) applied)

theorem keeps_applyMixture (qs : List Qudit) (branches : List (R × Operator R)) (key : Option String) :
    Keeps f (applyMixture qs branches key) := by
  refine keeps_bind _ _ (keeps_ofExcept _ (Operator.clean_checkAll _ _)) fun _ => keeps_get _ fun b held => ?_
  refine keeps_bind _ _ (keeps_ofExcept _ (clean_layout _ _)) fun l => ?_
  split
  · exact keeps_throw _ fun h => by simp
  · refine keeps_bind _ _ (keeps_draw _) fun k => keeps_get _ fun b held => ?_
    exact keeps_bind _ _ (keeps_setState _ held) fun _ => keeps_recordBranch key k

theorem keeps_applyChannel (qs : List Qudit) (ops : List (Operator R)) (key : Option String) :
    Keeps f (applyChannel qs ops key) := by
  refine keeps_guard _ _ _ (fun h => by simp) ?_
  refine keeps_bind _ _ (keeps_ofExcept _ (Operator.clean_checkAll _ _)) fun _ => keeps_get _ fun b held => ?_
  refine keeps_bind _ _ (keeps_ofExcept _ (clean_layout _ _)) fun l => keeps_bind _ _ (keeps_draw _) fun p => ?_
  refine keeps_get _ fun b held => keeps_bind _ _ (keeps_setState _ held) fun _ => ?_
  refine keeps_guard _ _ _ (fun h => by simp) ?_
  exact keeps_bind _ _ (keeps_setState _ held) fun _ => keeps_recordBranch key _

theorem keeps_enact (name : String) (qs : List Qudit) (r : Resolution R) : Keeps f (enact name qs r) := by
  have unsupported : Keeps f (throw (.unsupported name) : Step R (DenseState R) Unit) := keeps_throw _ fun h => by simp
  cases r with
  | unitary m => exact keeps_get _ fun b held => keeps_applied _ qs m held
  | mixture branches key => exact keeps_applyMixture qs branches key
  | channel ops key => exact keeps_applyChannel qs ops key
  | skip => exact unsupported
  | measure m => exact unsupported
  | reset targets => exact unsupported
  | stabilizer gates => exact unsupported
  | parts ops => exact unsupported

theorem keeps_observe (qs : List Qudit) : Keeps f (observe qs : Step R (DenseState R) (List ℕ)) := by
  refine keeps_get _ fun b held => keeps_bind _ _ (keeps_ofExcept _ (Frame.clean_axes _ _)) fun axes => ?_
  exact keeps_bind _ _ (keeps_draw _) fun k => keeps_bind _ _ (keeps_setState _ held) fun _ => keeps_pure _

theorem keeps_resetOne (q : Qudit) : Keeps f (resetOne q : Step R (DenseState R) Unit) := by
  refine keeps_bind _ _ (keeps_observe [q]) fun values => ?_
  dsimp only
  split
  · exact keeps_get _ fun b held => keeps_applied _ _ _ held
  · exact keeps_pure ()

theorem keeps_reset (qs : List Qudit) : Keeps f (reset qs : Step R (DenseState R) Unit) := by
  have each : ∀ qs : List Qudit, Keeps f (qs.forM resetOne : Step R (DenseState R) Unit) := by
    intro qs
    induction qs with
    | nil => exact keeps_pure ()
    | cons q qs ih => exact keeps_bind _ _ (keeps_resetOne q) fun _ => ih
  refine keeps_get _ fun b held => keeps_bind _ _ (keeps_ofExcept _ (Frame.clean_axes _ _)) fun _ => each qs

instance : LawfulRepresentation R (DenseState R) where
  frame_setFrame := fun _ _ => rfl
  setFrame_setFrame := fun _ _ _ => rfl
  frame_basisState := by
    intro qs index source log ψ built
    simp only [Representation.basisState, basisState] at built
    cases framed : Frame.of (R := R) qs source log with
    | error e => simp [framed] at built
    | ok f =>
        simp only [framed] at built
        split at built
        · cases built
        · split at built
          · cases built
          · cases built
            rfl
  frame_kronecker := by
    intro ψ φ χ built
    simp only [Representation.kronecker, kronecker] at built
    split at built
    · cases built
    · rename_i framed
      cases built
      exact framed
  frame_factor := by
    intro ψ qs validate tolerance single rest factored
    obtain ⟨axes, found, factored⟩ := SimError.bind_ok factored
    obtain ⟨extFrame, extBuilt, factored⟩ := SimError.bind_ok factored
    obtain ⟨remFrame, remBuilt, factored⟩ := SimError.bind_ok factored
    refine ⟨axes, found, ?_⟩
    dsimp only at factored
    split at factored
    · cases factored
    · split at factored
      · cases factored
      · cases factored
        exact ⟨extBuilt, remBuilt⟩
  clean_kronecker := by
    intro ψ φ
    simp only [Representation.kronecker, kronecker]
    split
    · rename_i e failed
      exact SimError.clean_passed _ e (Frame.clean_of _ _ _) failed
    · exact SimError.clean_ok _
  clean_factor := by
    intro ψ qs validate tolerance
    refine SimError.clean_bind _ _ (Frame.clean_axes _ _) fun axes _ => ?_
    refine SimError.clean_bind _ _ (Frame.clean_of _ _ _) fun extFrame _ => ?_
    refine SimError.clean_bind _ _ (Frame.clean_of _ _ _) fun remFrame _ => ?_
    intro h
    dsimp only
    split
    · simp
    · split <;> simp
  clean_transposed := by
    intro ψ order
    refine SimError.clean_bind _ _ (Frame.clean_permutation _ _) fun axes _ => ?_
    exact SimError.clean_bind _ _ (Frame.clean_of _ _ _) fun f _ => SimError.clean_ok _
  clean_sampler := by
    intro ψ qs
    simp only [Representation.sampler, sampler]
    split
    · rename_i e failed
      exact SimError.clean_passed _ e (Frame.clean_axes _ _) failed
    · exact SimError.clean_ok _
  keeps_enact := fun _ => keeps_enact
  keeps_observe := fun _ => keeps_observe
  keeps_reset := fun _ => keeps_reset

end DenseState

namespace StabilizerState

theorem clean_checkQubits (qs : List Qudit) : Clean (checkQubits (R := R) qs) := by
  intro h
  rw [checkQubits]
  split <;> simp

theorem clean_onAxes (f : Frame) (k : Generator Qudit) : Clean (onAxes (R := R) f k) := by
  have pair : ∀ a b, Clean (axisPair (R := R) f a b) := by
    intro a b
    rw [axisPair]
    split
    · exact fun h => by simp
    · refine SimError.clean_bind _ _ (Frame.clean_axis f a) fun j _ => ?_
      exact SimError.clean_bind _ _ (Frame.clean_axis f b) fun k _ => SimError.clean_ok _
  cases k with
  | h q => exact SimError.clean_map _ _ (Frame.clean_axis f q)
  | s q => exact SimError.clean_map _ _ (Frame.clean_axis f q)
  | x q => exact SimError.clean_map _ _ (Frame.clean_axis f q)
  | y q => exact SimError.clean_map _ _ (Frame.clean_axis f q)
  | z q => exact SimError.clean_map _ _ (Frame.clean_axis f q)
  | cx a b => exact SimError.clean_map _ _ (pair a b)
  | cz a b => exact SimError.clean_map _ _ (pair a b)

theorem clean_allOnAxes (f : Frame) (ks : List (Generator Qudit)) : Clean (allOnAxes (R := R) f ks) := by
  induction ks with
  | nil => exact SimError.clean_ok []
  | cons k ks ih =>
      refine SimError.clean_bind _ _ (clean_onAxes f k) fun j _ => ?_
      exact SimError.clean_bind _ _ ih fun js _ => SimError.clean_ok _

variable [Scalar R]

theorem keeps_enact (name : String) (qs : List Qudit) (r : Resolution R) :
    Keeps f (enact name qs r : Step R (StabilizerState R) Unit) := by
  have unsupported : Keeps f (throw (.unsupported name) : Step R (StabilizerState R) Unit) :=
    keeps_throw _ fun h => by simp
  cases r with
  | stabilizer gates =>
      refine keeps_bind _ _ (keeps_ofExcept _ (clean_checkQubits qs)) fun _ => keeps_get _ fun b held => ?_
      exact keeps_bind _ _ (keeps_ofExcept _ (clean_allOnAxes _ gates)) fun ks => keeps_setState _ held
  | unitary m => exact unsupported
  | mixture branches key => exact unsupported
  | channel ops key => exact unsupported
  | skip => exact unsupported
  | measure m => exact unsupported
  | reset targets => exact unsupported
  | parts ops => exact unsupported

theorem keeps_observe (qs : List Qudit) : Keeps f (observe qs : Step R (StabilizerState R) (List ℕ)) := by
  refine keeps_get _ fun b held => keeps_bind _ _ (keeps_ofExcept _ (Frame.clean_axes _ _)) fun axes => ?_
  exact keeps_bind _ _ (keeps_draw _) fun found => keeps_bind _ _ (keeps_setState _ held) fun _ => keeps_pure _

theorem keeps_reset (qs : List Qudit) : Keeps f (reset qs : Step R (StabilizerState R) Unit) := by
  refine keeps_get _ fun b held => keeps_bind _ _ (keeps_ofExcept _ (Frame.clean_axes _ _)) fun axes => ?_
  exact keeps_bind _ _ (keeps_draw _) fun c => keeps_setState _ held

instance : LawfulRepresentation R (StabilizerState R) where
  frame_setFrame := fun _ _ => rfl
  setFrame_setFrame := fun _ _ _ => rfl
  frame_basisState := by
    intro qs index source log φ built
    obtain ⟨_, -, built⟩ := SimError.bind_ok built
    obtain ⟨f, framed, built⟩ := SimError.bind_ok built
    dsimp only at built
    split at built
    · cases built
    · cases built
      exact framed
  frame_kronecker := by
    intro φ χ ψ built
    simp only [Representation.kronecker, kronecker] at built
    split at built
    · cases built
    · rename_i framed
      cases built
      exact framed
  frame_factor := by
    intro φ qs validate tolerance single rest factored
    cases factored
  clean_kronecker := by
    intro φ χ
    simp only [Representation.kronecker, kronecker]
    split
    · rename_i e failed
      exact SimError.clean_passed _ e (Frame.clean_of _ _ _) failed
    · exact SimError.clean_ok _
  clean_factor := by
    intro φ qs validate tolerance h
    simp [Representation.factor, factor]
  clean_transposed := by
    intro φ order
    refine SimError.clean_bind _ _ (Frame.clean_permutation _ _) fun axes _ => ?_
    exact SimError.clean_bind _ _ (Frame.clean_of _ _ _) fun f _ => SimError.clean_ok _
  clean_sampler := by
    intro φ qs
    simp only [Representation.sampler, sampler]
    split
    · rename_i e failed
      exact SimError.clean_passed _ e (Frame.clean_axes _ _) failed
    · exact SimError.clean_ok _
  keeps_enact := fun _ => keeps_enact
  keeps_observe := fun _ => keeps_observe
  keeps_reset := fun _ => keeps_reset

end StabilizerState

end QuantumRegister
