import QuantumRegister.Dense.State
import QuantumRegister.Proofs.Dense.Weight
import QuantumRegister.Proofs.Frame

/-!
A state next to a larger one of which it is a factor: whatever is done to the qudits of the smaller
state has the same chances in both, and leaves a factor again.
-/

set_option autoImplicit false

namespace QuantumRegister

open QuantumRegister.MixedRadix
open QuantumRegister.Assignment
open QuantumRegister.Dense

theorem Frame.Exact.picks {f : Frame} (valid : f.Exact) (qs : List Qudit) (axes : List ℕ)
    (found : f.axes (R := ℝ) qs = .ok axes) : Picks f.qudits qs axes := by
  obtain ⟨places, once⟩ := (valid.axes_iff qs axes).mp found
  refine ⟨valid.distinct, once, fun k member => ?_, ?_⟩
  · obtain ⟨q, -, place⟩ := (valid.axes_mem qs axes found k).mp member
    exact (List.getElem?_eq_some_iff.mp place).1
  · clear found once
    induction places with
    | nil => rfl
    | cons here _ ih => rw [List.map_cons, ih, List.getD_eq_getElem?_getD, here, Option.getD_some]

namespace Dense

-- The qudits `L` among all qudits `Q`, and the wave function `ρ` of the others.
structure Spectator (L Q : List Qudit) (ρ : Assignment → ℂ) : Prop where
  near : L.Nodup
  far : Q.Nodup
  inside : L ⊆ Q
  positive : ∀ q ∈ Q, 0 < q.dim
  small : size (Qudit.dims Q) < wordSize
  apart : DependsOn (others Q L) ρ
  unit : weight (others Q L) ρ = 1

structure Joined (L Q : List Qudit) (ρ : Assignment → ℂ) (a A : Amplitudes ℝ) : Prop where
  near : a.size = size (Qudit.dims L)
  far : A.size = size (Qudit.dims Q)
  product : ∀ σ, Within Q σ → wave Q A σ = wave L a σ * ρ σ

variable {L Q : List Qudit} {ρ : Assignment → ℂ}

theorem Spectator.weight (spectator : Spectator L Q ρ) (g : Assignment → ℂ) (depends : DependsOn L g) :
    Dense.weight Q (fun σ => g σ * ρ σ) = Dense.weight L g := by
  rw [weight_product Q L g ρ spectator.far spectator.near spectator.inside depends spectator.apart, spectator.unit, mul_one]

theorem Spectator.still (spectator : Spectator L Q ρ) (qs : List Qudit) (inside : qs ⊆ L) (σ τ : Assignment)
    (same : ∀ q, q ∉ qs → τ q = σ q) : ρ τ = ρ σ :=
  spectator.apart τ σ fun q member => same q fun listed => ((mem_others Q L q).mp member).2 (inside listed)

namespace Joined

variable {a A : Amplitudes ℝ} (spectator : Spectator L Q ρ) (joined : Joined L Q ρ a A)

include spectator joined

theorem normSq : A.normSq = a.normSq := by
  rw [normSq_weight Q A spectator.far joined.far, normSq_weight L a spectator.near joined.near,
    weight_congr Q _ _ spectator.far joined.product, spectator.weight _ (wave_depends L a)]

theorem marginal {qs : List Qudit} {axes Axes : List ℕ} (near : Picks L qs axes) (far : Picks Q qs Axes) :
    Amplitudes.marginal (Qudit.dims Q) Axes A = Amplitudes.marginal (Qudit.dims L) axes a := by
  rw [marginal_eq near a joined.near, marginal_eq far A joined.far]
  refine List.map_congr_left fun j _ => ?_
  have depends : DependsOn L fun σ => if index qs σ = j then wave L a σ else 0 := by
    intro σ τ same
    dsimp only
    rw [index_depends qs σ τ fun q listed => same q (near.subset listed), wave_depends L a σ τ same]
  rw [← spectator.weight _ depends]
  refine weight_congr Q _ _ spectator.far fun σ within => ?_
  by_cases here : index qs σ = j
  · rw [if_pos here, if_pos here, joined.product σ within]
  · rw [if_neg here, if_neg here, zero_mul]

theorem contract {qs : List Qudit} {axes Axes : List ℕ} (near : Picks L qs axes) (far : Picks Q qs Axes) (m : Operator ℝ)
    (dst Dst : Amplitudes ℝ) (nearFull : dst.size = size (Qudit.dims L)) (farFull : Dst.size = size (Qudit.dims Q)) :
    Joined L Q ρ ((Layout.of (Qudit.dims L) axes).contract m a dst) ((Layout.of (Qudit.dims Q) Axes).contract m A Dst) := by
  have nearPositive : ∀ q ∈ L, 0 < q.dim := fun q listed => spectator.positive q (spectator.inside listed)
  refine ⟨?_, ?_, fun σ within => ?_⟩
  · rw [Layout.contract_size, nearFull]
  · rw [Layout.contract_size, farFull]
  · rw [wave_contract far spectator.positive m A Dst farFull σ within,
      wave_contract near nearPositive m a dst nearFull σ fun q listed => within q (spectator.inside listed)]
    have swapped := acted_congr Q qs m _ _ near.nodup joined.product σ within
    exact swapped.trans (acted_mul qs m _ ρ near.nodup σ fun τ same => spectator.still qs near.subset σ τ same)

theorem project {qs : List Qudit} {axes Axes : List ℕ} (near : Picks L qs axes) (far : Picks Q qs Axes) (values : List ℕ)
    (length : values.length = qs.length) (chance : ℝ) :
    Joined L Q ρ (Amplitudes.project (Qudit.dims L) axes values chance a) (Amplitudes.project (Qudit.dims Q) Axes values chance A) := by
  refine ⟨Array.size_ofFn.trans joined.near, Array.size_ofFn.trans joined.far, fun σ within => ?_⟩
  rw [wave_project far values chance A joined.far length σ within,
    wave_project near values chance a joined.near length σ fun q listed => within q (spectator.inside listed)]
  by_cases agrees : qs.map σ = values
  · rw [if_pos agrees, if_pos agrees, joined.product σ within]
    ring
  · rw [if_neg agrees, if_neg agrees, zero_mul]

omit spectator in
theorem rescale (x : ℝ) : Joined L Q ρ (a.map fun z => z.scale x) (A.map fun z => z.scale x) := by
  refine ⟨by rw [Array.size_map, joined.near], by rw [Array.size_map, joined.far], fun σ within => ?_⟩
  rw [wave_rescale, wave_rescale, joined.product σ within]
  ring

end Joined

end Dense

end QuantumRegister
