import QuantumRegister.Proofs.Register.Joint

/-!
Uniting the owners of qudits, and splitting off qudits that have one value left, changes nothing in
the single state that a register stands for.
-/

set_option autoImplicit false

namespace QuantumRegister.Register

open QuantumRegister.MixedRadix
open QuantumRegister.Assignment
open QuantumRegister.Dense
open QuantumRegister.DenseState (Sound)

variable {s : Settings ℝ} {r : Register ℝ (DenseState ℝ)} {Ψ : DenseState ℝ}

-- One of two factors stays behind the handle, the other one gets a handle that was free.
theorem detached_joint (a b : Slots (DenseState ℝ)) (h x : ℕ) (t single rest : DenseState ℝ) (live : a.get? h = some t)
    (vacant : a.get? x = none) (length : b.cells.length = a.cells.length)
    (read : ∀ j, b.get? j = if j = x then some single else if j = h then some rest else a.get? j) (σ : Assignment)
    (wave : t.wave σ = single.wave σ * rest.wave σ) : b.joint σ = a.joint σ := by
  have apart : h ≠ x := by
    rintro rfl
    rw [vacant] at live
    cases live
  have first : b.get? x = some single := by rw [read, if_pos rfl]
  refine Slots.whole_congr (f := fun t => t.wave σ) _ _ {h, x} length (fun j member => ?_) (fun j other => ?_) ?_
  · rcases Finset.mem_insert.mp member with rfl | isNew
    · exact Slots.get?_inside _ _ _ live
    · rw [Finset.mem_singleton.mp isNew, ← length]
      exact Slots.get?_inside _ _ _ first
  · rw [Finset.mem_insert, Finset.mem_singleton, not_or] at other
    rw [read, if_neg other.2, if_neg other.1]
  · rw [Finset.prod_pair apart, Finset.prod_pair apart, Slots.part_live a h t live, Slots.part_vacant a x vacant,
      Slots.part_live _ x single first, Slots.part_live _ h rest (by rw [read, if_neg apart, if_pos rfl]), wave, mul_one, mul_comm]

namespace Joint

variable (joint : Joint s r Ψ)

include joint

theorem merge (qs : List Qudit) (inside : qs ⊆ r.qudits) :
    ∃ h r' t, r.merge qs = .ok (h, r') ∧ Joint s r' Ψ ∧ r'.slots.get? h = some t ∧ qs ⊆ t.frame.qudits := by
  obtain ⟨h, r', -, done, -, kept⟩ := joint.arena.merge_done DenseState.joins_sound joint.sound inside
  obtain ⟨arena, t, here, owns⟩ := (joint.arena.merge qs).2 (h, r') done
  exact ⟨h, r', t, done, joint.regroup r' arena kept.qudits kept.source kept.log kept.fits kept.whole, here, owns⟩

/-! Splitting off. -/

-- The other states do not vanish, so that a state shows whatever is known of its qudits.
theorem pinned (h : ℕ) (t : DenseState ℝ) (live : r.slots.get? h = some t) (q : Qudit) (owns : q ∈ t.frame.qudits)
    (whole : Pinned r.qudits Ψ.wave q) : Pinned t.frame.qudits t.wave q := by
  have spectator := (joint.aside h t live).1.spectator
  have distinct := others_nodup _ t.frame.qudits spectator.far
  have some := weight_support _ _ distinct (spectator.unit.trans_ne one_ne_zero)
  refine whole.factor (joint.split h t live) (fun p listed => ?_) (fun p member => ((mem_others _ _ p).mp member).2)
    (DenseState.wave_depends t) spectator.apart owns some
  by_cases mine : p ∈ t.frame.qudits
  · exact Or.inl mine
  · exact Or.inr ((mem_others Ψ.frame.qudits t.frame.qudits p).mpr ⟨joint.order ▸ listed, mine⟩)

theorem splitOff (split : r.split = true) (q : Qudit) (listed : q ∈ r.qudits) (whole : Pinned r.qudits Ψ.wave q) :
    ∃ r', r.splitOff q = .ok r' ∧ Joint s r' Ψ ∧ r'.split = true ∧ r'.qudits = r.qudits := by
  obtain ⟨h, t, owner, live, owns⟩ := joint.arena.owner_found q listed
  have state := state_of_live r h t live
  by_cases alone : (Representation.qudits t).length ≤ 1
  · refine ⟨r, ?_, joint, split, rfl⟩
    simp only [Register.splitOff, bind, Except.bind, owner, state, if_pos alone]
    rfl
  · have crowded : 2 ≤ (Representation.qudits t).length := not_le.mp alone
    obtain ⟨single, rest, factored, soundSingle, soundRest, wave⟩ :=
      DenseState.factor_pinned t (joint.sound h t live) q owns (joint.pinned h t live q owns whole) r.tolerance
    obtain ⟨x, free, spare⟩ := List.exists_cons_of_ne_nil (joint.arena.room h t live split crowded)
    have vacant := (joint.arena.vacant x).mp (spare ▸ List.mem_cons_self)
    have read := Slots.get?_detached r.slots h x free rest single spare (Slots.get?_inside _ _ _ live) vacant.1
    let r' : Register ℝ (DenseState ℝ) := { r with slots := ((r.slots.put h rest).alloc single).2 }.assign [q]
      ((r.slots.put h rest).alloc single).1
    have done : r.splitOff q = .ok r' := by
      have parts : Representation.factor t [q] false r.tolerance = .ok (single, rest) := factored
      simp only [Register.splitOff, bind, Except.bind, owner, state, if_neg alone, parts]
      rfl
    have arena := (joint.arena.splitOff split q).2 r' done
    refine ⟨r', done, joint.regroup r' arena rfl rfl rfl (fun j u here => ?_) fun σ within => ?_, split, rfl⟩
    · rw [show r'.slots.get? j = _ from read j] at here
      split at here
      · cases here
        exact soundSingle
      · split at here
        · cases here
          exact soundRest
        · exact joint.sound j u here
    · have part : Within t.frame.qudits σ := fun p member => within p (joint.arena.listed p h t live member)
      have length : r'.slots.cells.length = r.slots.cells.length :=
        (Slots.alloc_length (r.slots.put h rest) x free single spare).trans List.length_set
      exact detached_joint r.slots r'.slots h x t single rest live vacant.2 length read σ (wave σ part)

theorem splitAll (split : r.split = true) (qs : List Qudit) (inside : qs ⊆ r.qudits)
    (whole : ∀ q ∈ qs, Pinned r.qudits Ψ.wave q) : ∃ r', r.splitAll qs = (.ok (), r') ∧ Joint s r' Ψ := by
  induction qs generalizing r with
  | nil => exact ⟨r, rfl, joint⟩
  | cons q qs ih =>
      obtain ⟨listed, later⟩ := List.cons_subset.mp inside
      obtain ⟨r₁, done, between, still, same⟩ := joint.splitOff split q listed (whole q List.mem_cons_self)
      rw [Register.splitAll, done]
      refine ih between still (by rwa [same]) fun p member => ?_
      rw [same]
      exact whole p (List.mem_cons_of_mem q member)

end Joint

end QuantumRegister.Register
