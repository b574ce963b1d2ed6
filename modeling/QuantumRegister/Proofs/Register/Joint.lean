import QuantumRegister.Proofs.Dense.Sound
import QuantumRegister.Proofs.Lawful
import QuantumRegister.Proofs.Register.Merged

/-!
The joint wave function of a register: the product of those of its states. A state of the register is
a factor of any single state with that wave function.
-/

set_option autoImplicit false

namespace QuantumRegister

open QuantumRegister.MixedRadix
open QuantumRegister.Assignment
open QuantumRegister.Dense
open QuantumRegister.DenseState (Sound Aside Fragment)
open QuantumRegister.Readable (Full)
open QuantumRegister.Representation (Joins Merges)

namespace Slots

noncomputable def share (a : Slots (DenseState ℝ)) (h : ℕ) (σ : Assignment) : ℂ := ((a.get? h).map fun t => t.wave σ).getD 1

noncomputable def joint (a : Slots (DenseState ℝ)) (σ : Assignment) : ℂ := ∏ h ∈ Finset.range a.cells.length, a.share h σ

theorem share_live (a : Slots (DenseState ℝ)) (h : ℕ) (t : DenseState ℝ) (live : a.get? h = some t) (σ : Assignment) :
    a.share h σ = t.wave σ := part_live a h t live

theorem share_vacant (a : Slots (DenseState ℝ)) (h : ℕ) (vacant : a.get? h = none) (σ : Assignment) : a.share h σ = 1 :=
  part_vacant a h vacant

end Slots

namespace DenseState

theorem joins_sound : Joins Sound Within DenseState.wave where
  narrow subset within := fun q listed => within q (subset listed)
  joined := kronecker_sound

theorem merges_full : Merges Full Within DenseState.wave where
  narrow subset within := fun q listed => within q (subset listed)
  joined t u first second once := by
    obtain ⟨v, joined, full, listed, -, wave⟩ := kronecker_full t u first second once
    exact ⟨v, joined, full, listed, wave⟩
  turned t order full perm := by
    obtain ⟨u, turned, framed, listed, size, same⟩ := transposed_sound t order full.1 perm
    refine ⟨u, turned, ⟨(Frame.exact_of _ _ _ _ framed).1, size.trans (congrArg (fun L => MixedRadix.size (Qudit.dims L)) listed.symm)⟩,
      listed, fun σ within => ?_⟩
    rw [wave, listed]
    exact same σ within

end DenseState

namespace Register

variable {s : Settings ℝ} {r : Register ℝ (DenseState ℝ)} {Ψ : DenseState ℝ}

structure Joint (s : Settings ℝ) (r : Register ℝ (DenseState ℝ)) (Ψ : DenseState ℝ) : Prop where
  arena : Arena s r
  positive : ∀ q ∈ r.qudits, 0 < q.dim
  small : size (Qudit.dims r.qudits) < wordSize
  sound : ∀ h t, r.slots.get? h = some t → t.Sound
  whole : Ψ.Sound
  order : Ψ.frame.qudits = r.qudits
  wired : Ψ.frame.source = r.source ∧ Ψ.frame.log = r.log
  wave : ∀ σ, Within r.qudits σ → Ψ.wave σ = r.slots.joint σ

noncomputable def rest (r : Register ℝ (DenseState ℝ)) (h : ℕ) (σ : Assignment) : ℂ :=
  ∏ k ∈ (Finset.range r.slots.cells.length).erase h, r.slots.share k σ

theorem joint_split (r : Register ℝ (DenseState ℝ)) (h : ℕ) (t : DenseState ℝ) (live : r.slots.get? h = some t) (σ : Assignment) :
    r.slots.joint σ = t.wave σ * r.rest h σ := Slots.whole_split r.slots h t live

theorem Arena.rest_depends (valid : Arena s r) (h : ℕ) (t : DenseState ℝ) (live : r.slots.get? h = some t) :
    DependsOn (Dense.others r.qudits t.frame.qudits) (r.rest h) := by
  intro σ τ same
  refine Finset.prod_congr rfl fun k member => ?_
  cases found : r.slots.get? k with
  | none => rw [Slots.share_vacant _ k found, Slots.share_vacant _ k found]
  | some u =>
      rw [Slots.share_live _ k u found, Slots.share_live _ k u found]
      refine DenseState.wave_depends u σ τ fun q owns => same q ?_
      refine (mem_others _ _ q).mpr ⟨valid.listed q k u found owns, fun also => ?_⟩
      exact (Finset.mem_erase.mp member).1 (valid.once q k h u t found live owns also)

namespace Joint

variable (joint : Joint s r Ψ)

include joint

theorem split (h : ℕ) (t : DenseState ℝ) (live : r.slots.get? h = some t) (σ : Assignment) (within : Within r.qudits σ) :
    Ψ.wave σ = t.wave σ * r.rest h σ := by
  rw [joint.wave σ within, joint_split r h t live]

theorem aside (h : ℕ) (t : DenseState ℝ) (live : r.slots.get? h = some t) :
    Aside t.frame Ψ.frame (r.rest h) ∧ Fragment t.frame Ψ.frame (r.rest h) t Ψ := by
  have sound := joint.sound h t live
  have order := joint.order
  have inside : t.frame.qudits ⊆ Ψ.frame.qudits := fun q owns => order ▸ joint.arena.listed q h t live owns
  have split : ∀ σ, Within Ψ.frame.qudits σ → Ψ.wave σ = t.wave σ * r.rest h σ := fun σ within =>
    joint.split h t live σ (order ▸ within)
  have apart : DependsOn (Dense.others Ψ.frame.qudits t.frame.qudits) (r.rest h) := order ▸ joint.arena.rest_depends h t live
  have distinct := joint.whole.exact.distinct
  have unit : Dense.weight (Dense.others Ψ.frame.qudits t.frame.qudits) (r.rest h) = 1 := by
    have whole := normSq_weight Ψ.frame.qudits Ψ.amplitudes distinct joint.whole.full
    have near := normSq_weight t.frame.qudits t.amplitudes sound.exact.distinct sound.full
    have product := weight_product Ψ.frame.qudits t.frame.qudits t.wave (r.rest h) distinct sound.exact.distinct inside
      (DenseState.wave_depends t) apart
    rw [← weight_congr _ _ _ distinct split] at product
    have weights : Amplitudes.normSq Ψ.amplitudes = Amplitudes.normSq t.amplitudes * Dense.weight (Dense.others Ψ.frame.qudits t.frame.qudits) (r.rest h) := by
      rw [whole, near]
      exact product
    rw [joint.whole.norm, sound.norm, one_mul] at weights
    exact weights.symm
  refine ⟨⟨sound.exact, joint.whole.exact, ⟨sound.exact.distinct, distinct, inside, ?_, ?_, apart, unit⟩⟩,
    ⟨rfl, rfl, ⟨sound.full, joint.whole.full, split⟩, sound.norm⟩⟩
  · exact order ▸ joint.positive
  · exact order ▸ joint.small

theorem put (h : ℕ) (t u : DenseState ℝ) (Φ : DenseState ℝ) (live : r.slots.get? h = some t)
    (fragment : Fragment t.frame Ψ.frame (r.rest h) u Φ) : Joint s { r with slots := r.slots.put h u } Φ := by
  have spectator := (joint.aside h t live).1.spectator
  have exact := (joint.sound h t live).exact
  have inside := Slots.get?_inside _ _ _ live
  have read := fun j => Slots.get?_put r.slots h j u inside
  have sound : u.Sound := by
    obtain ⟨near, -, joined, norm⟩ := fragment
    exact ⟨near ▸ exact, by rw [near]; exact joined.near, norm⟩
  have whole : Φ.Sound := by
    obtain ⟨-, far, joined, norm⟩ := fragment
    exact ⟨far ▸ joint.whole.exact, by rw [far]; exact joined.far, (joined.normSq spectator).trans norm⟩
  have arena := joint.arena.put h t u live sound.exact (congrArg Frame.source fragment.near) (congrArg Frame.log fragment.near)
    fun q => iff_of_eq (congrArg (fun f : Frame => q ∈ f.qudits) fragment.near)
  refine ⟨arena, joint.positive, joint.small, fun k v here => ?_, whole, ?_, ?_, fun σ within => ?_⟩
  · rw [read] at here
    split at here
    · cases here
      exact sound
    · exact joint.sound k v here
  · exact (congrArg Frame.qudits fragment.far).trans joint.order
  · rw [fragment.far]
    exact joint.wired
  · have others : rest { r with slots := r.slots.put h u } h σ = r.rest h σ := Slots.rest_put r.slots h t u live
    rw [joint_split { r with slots := r.slots.put h u } h u ((read h).trans (if_pos rfl)), others, DenseState.wave, DenseState.wave,
      fragment.near, fragment.far]
    exact fragment.joined.product σ (joint.order ▸ within)

theorem regroup (r' : Register ℝ (DenseState ℝ)) (arena : Arena s r') (qudits : r'.qudits = r.qudits)
    (source : r'.source = r.source) (log : r'.log = r.log) (sound : ∀ h t, r'.slots.get? h = some t → t.Sound)
    (same : ∀ σ, Within r.qudits σ → r'.slots.joint σ = r.slots.joint σ) : Joint s r' Ψ := by
  refine ⟨arena, qudits ▸ joint.positive, qudits ▸ joint.small, sound, joint.whole, joint.order.trans qudits.symm, ?_,
    fun σ within => ?_⟩
  · rw [source, log]
    exact joint.wired
  · rw [qudits] at within
    rw [joint.wave σ within, same σ within]

end Joint

end Register

end QuantumRegister
