import QuantumRegister.Proofs.Dense.Norm

/-!
Multiplying matrices into the axes of a state respects their algebra: products on the same qudits,
Kronecker products on different ones, and other orders of the qudits.
-/

set_option autoImplicit false

namespace QuantumRegister

open Matrix
open QuantumRegister.MixedRadix
open QuantumRegister.Assignment
open QuantumRegister.Dense

/-! Operators as matrices. -/

namespace Operator

noncomputable def matrix (d : ℕ) (m : Operator ℝ) : Matrix (Fin d) (Fin d) ℂ := fun i j => (m.entry i j).toComplex

noncomputable def ofMatrix {d : ℕ} (x : Matrix (Fin d) (Fin d) ℂ) : Operator ℝ :=
  Grid.tabulate d d fun i j =>
    if inside : i < d ∧ j < d then ⟨(x ⟨i, inside.1⟩ ⟨j, inside.2⟩).re, (x ⟨i, inside.1⟩ ⟨j, inside.2⟩).im⟩ else 0

theorem matrix_ofMatrix {d : ℕ} (x : Matrix (Fin d) (Fin d) ℂ) : (ofMatrix x).matrix d = x := by
  funext i j
  rw [matrix, ofMatrix, entry_tabulate _ _ _ _ _ i.isLt j.isLt, dif_pos ⟨i.isLt, j.isLt⟩]
  rfl

noncomputable def tensor (d e : ℕ) (a b : Operator ℝ) : Operator ℝ :=
  ofMatrix ((Matrix.kronecker (a.matrix d) (b.matrix e)).submatrix finProdFinEquiv.symm finProdFinEquiv.symm)

theorem entry_tensor (d e : ℕ) (a b : Operator ℝ) (i k j l : ℕ) (iInside : i < d) (kInside : k < d) (jInside : j < e)
    (lInside : l < e) : ((tensor d e a b).entry (i * e + j) (k * e + l)).toComplex
      = (a.entry i k).toComplex * (b.entry j l).toComplex := by
  let row : Fin (d * e) := finProdFinEquiv (⟨i, iInside⟩, ⟨j, jInside⟩)
  let column : Fin (d * e) := finProdFinEquiv (⟨k, kInside⟩, ⟨l, lInside⟩)
  have rowPlace : i * e + j = row := by
    simp only [row, finProdFinEquiv_apply_val]
    ring
  have columnPlace : k * e + l = column := by
    simp only [column, finProdFinEquiv_apply_val]
    ring
  have entries := congrFun (congrFun (matrix_ofMatrix
    ((Matrix.kronecker (a.matrix d) (b.matrix e)).submatrix finProdFinEquiv.symm finProdFinEquiv.symm)) row) column
  rw [submatrix_apply, Equiv.symm_apply_apply, Equiv.symm_apply_apply] at entries
  rw [rowPlace, columnPlace]
  exact entries

-- A matrix on `qs`, on the same qudits in the order of `rs`.
noncomputable def reordered (qs rs : List Qudit) (a : Operator ℝ) : Operator ℝ :=
  Grid.tabulate (size (Qudit.dims rs)) (size (Qudit.dims rs)) fun i j => a.entry (reread qs rs i) (reread qs rs j)

structure Acts (qs : List Qudit) (m : Operator ℝ) : Prop where
  rows : m.rows = size (Qudit.dims qs)
  cols : m.cols = size (Qudit.dims qs)

theorem Acts.square {qs : List Qudit} {m : Operator ℝ} (acts : Acts qs m) (joint : Qudit.jointDim qs = size (Qudit.dims qs)) :
    checkSquare qs m = .ok () :=
  (checkSquare_ok qs m).mpr ⟨acts.rows.trans joint.symm, acts.cols.trans joint.symm⟩

theorem acts_ofMatrix (qs : List Qudit) (x : Matrix (Fin (size (Qudit.dims qs))) (Fin (size (Qudit.dims qs))) ℂ) :
    Acts qs (ofMatrix x) := ⟨rfl, rfl⟩

theorem acts_tensor (qs rs : List Qudit) (a b : Operator ℝ) :
    Acts (qs ++ rs) (tensor (size (Qudit.dims qs)) (size (Qudit.dims rs)) a b) := by
  have joint : size (Qudit.dims qs) * size (Qudit.dims rs) = size (Qudit.dims (qs ++ rs)) := by
    rw [Qudit.dims_append, size_append]
  exact ⟨joint, joint⟩

end Operator

/-! Actions, composed. -/

namespace Dense

open Operator (matrix ofMatrix tensor reordered matrix_ofMatrix entry_tensor)

variable (qs rs : List Qudit) (a b : Operator ℝ) (F : Assignment → ℂ) (σ : Assignment)

theorem acted_mulVec (once : qs.Nodup) : (fun i : Fin (size (Qudit.dims qs)) => acted qs a F (spread qs σ i))
    = a.matrix (size (Qudit.dims qs)) *ᵥ fun j => F (spread qs σ j) := by
  funext i
  rw [acted_spread qs a F σ once i i.isLt, Finset.sum_range]
  rfl

theorem acted_product (once : qs.Nodup) (within : Within qs σ) : acted qs b (acted qs a F) σ
    = acted qs (ofMatrix (b.matrix (size (Qudit.dims qs)) * a.matrix (size (Qudit.dims qs)))) F σ := by
  have columns : (fun i : Fin (size (Qudit.dims qs)) => acted qs b (acted qs a F) (spread qs σ i))
      = fun i : Fin (size (Qudit.dims qs)) =>
          acted qs (ofMatrix (b.matrix (size (Qudit.dims qs)) * a.matrix (size (Qudit.dims qs)))) F (spread qs σ i) := by
    rw [acted_mulVec qs b _ σ once, acted_mulVec qs a F σ once, mulVec_mulVec, acted_mulVec qs _ F σ once, matrix_ofMatrix]
  have here := congrFun columns ⟨index qs σ, index_lt qs σ within⟩
  rwa [spread_index qs σ σ once within fun _ _ => rfl] at here

-- Both actions as one sum over all their qudits.
theorem acted_acted (apart : ∀ q ∈ qs, q ∉ rs) (once : qs.Nodup) (distinct : rs.Nodup) : acted qs a (acted rs b F) σ
    = sumOver (qs ++ rs) (fun τ => (a.entry (index qs σ) (index qs τ)).toComplex
        * ((b.entry (index rs σ) (index rs τ)).toComplex * F τ)) σ := by
  rw [sumOver_append, acted]
  refine sumOver_congr qs _ _ σ once fun τ _ kept => ?_
  rw [acted, ← sumOver_mul_left]
  refine sumOver_congr rs _ _ τ distinct fun υ _ still => ?_
  have first : index qs υ = index qs τ := index_depends qs υ τ fun q listed => still q (apart q listed)
  have second : index rs τ = index rs σ := index_depends rs τ σ fun q listed => kept q fun target => apart q target listed
  rw [first, second]

theorem acted_tensor (once : (qs ++ rs).Nodup) (within : Within (qs ++ rs) σ) :
    acted (qs ++ rs) (tensor (size (Qudit.dims qs)) (size (Qudit.dims rs)) a b) F σ
      = sumOver (qs ++ rs) (fun τ => (a.entry (index qs σ) (index qs τ)).toComplex
          * ((b.entry (index rs σ) (index rs τ)).toComplex * F τ)) σ := by
  have left : ∀ τ, Within (qs ++ rs) τ → index qs τ < size (Qudit.dims qs) := fun τ inside =>
    index_lt qs τ fun q listed => inside q (List.mem_append_left rs listed)
  have right : ∀ τ, Within (qs ++ rs) τ → index rs τ < size (Qudit.dims rs) := fun τ inside =>
    index_lt rs τ fun q listed => inside q (List.mem_append_right qs listed)
  refine sumOver_congr (qs ++ rs) _ _ σ once fun τ inside _ => ?_
  rw [index_append, index_append, entry_tensor _ _ a b _ _ _ _ (left σ within) (left τ inside) (right σ within)
    (right τ inside), mul_assoc]

theorem acted_reordered (perm : rs.Perm qs) (once : rs.Nodup) (within : Within rs σ) :
    acted rs (reordered qs rs a) F σ = acted qs a F σ := by
  rw [acted, acted, ← sumOver_perm rs qs _ σ once perm]
  refine sumOver_congr rs _ _ σ once fun τ inside _ => ?_
  have inside' : qs ⊆ rs := perm.symm.subset
  rw [reordered, Operator.entry_tabulate _ _ _ _ _ (index_lt rs σ within) (index_lt rs τ inside),
    reread_index once inside' σ within, reread_index once inside' τ inside]

end Dense

/-! Matrices applied one after the other. -/

namespace DenseState

open Operator (Acts ofMatrix tensor reordered matrix acts_ofMatrix acts_tensor)

def Same (r s : Except (SimError ℝ) (DenseState ℝ)) : Prop :=
  ∃ φ χ, r = .ok φ ∧ s = .ok χ ∧ φ.frame = χ.frame ∧ φ.amplitudes = χ.amplitudes

def Leads (ψ : DenseState ℝ) (r : Except (SimError ℝ) (DenseState ℝ)) (G : Assignment → ℂ) : Prop :=
  ∃ φ, r = .ok φ ∧ φ.frame = ψ.frame ∧ φ.amplitudes.size = size ψ.frame.dims
    ∧ ∀ σ, Within ψ.frame.qudits σ → Dense.wave ψ.frame.qudits φ.amplitudes σ = G σ

theorem Leads.congr {ψ : DenseState ℝ} {r : Except (SimError ℝ) (DenseState ℝ)} {G H : Assignment → ℂ} (leads : Leads ψ r G)
    (same : ∀ σ, Within ψ.frame.qudits σ → G σ = H σ) : Leads ψ r H := by
  obtain ⟨φ, done, frame, full, wave⟩ := leads
  exact ⟨φ, done, frame, full, fun σ within => (wave σ within).trans (same σ within)⟩

section Applied

variable {ψ : DenseState ℝ} (fits : Fits ψ) (some : 0 < ψ.amplitudes.size)

include fits some

theorem positive_qudits : ∀ q ∈ ψ.frame.qudits, 0 < q.dim := by
  rw [fits.full] at some
  exact Qudit.positive_of_dims _ (positive_of_size _ some)

theorem same_of_leads {r s : Except (SimError ℝ) (DenseState ℝ)} {G H : Assignment → ℂ} (first : Leads ψ r G)
    (second : Leads ψ s H) (equal : ∀ σ, Within ψ.frame.qudits σ → G σ = H σ) : Same r s := by
  obtain ⟨φ, left, frame, full, wave⟩ := first
  obtain ⟨χ, right, frame', full', wave'⟩ := second
  refine ⟨φ, χ, left, right, frame.trans frame'.symm, ?_⟩
  refine wave_injective ψ.frame.qudits _ _ fits.exact.distinct (positive_qudits fits some) full full' fun σ within => ?_
  rw [wave σ within, wave' σ within, equal σ within]

theorem leads_apply (qs : List Qudit) (once : qs.Nodup) (inside : qs ⊆ ψ.frame.qudits) (m : Operator ℝ) (acts : Acts qs m) :
    Leads ψ (ψ.applyMatrix qs m) (acted qs m (Dense.wave ψ.frame.qudits ψ.amplitudes)) := by
  have positive := positive_qudits fits some
  have joint := jointDim_eq ψ.frame.qudits qs fits.exact.distinct once inside positive fits.small
  obtain ⟨φ, applied⟩ := applyMatrix_done ψ qs m fits.exact once inside (acts.square joint)
  have multiplied := multiplied_of ψ φ qs m fits.exact positive fits.full applied
  exact ⟨φ, applied, multiplied.frame, multiplied.full, multiplied.wave⟩

theorem leads_bind {r : Except (SimError ℝ) (DenseState ℝ)} {G H : Assignment → ℂ} (first : Leads ψ r G)
    (next : DenseState ℝ → Except (SimError ℝ) (DenseState ℝ)) (rest : ∀ φ, Fits φ → 0 < φ.amplitudes.size → φ.frame = ψ.frame →
      (∀ σ, Within ψ.frame.qudits σ → Dense.wave ψ.frame.qudits φ.amplitudes σ = G σ) → Leads φ (next φ) H) :
    Leads ψ (r >>= next) H := by
  obtain ⟨φ, rfl, frame, full, wave⟩ := first
  have held : Fits φ := ⟨frame ▸ fits.exact, by rw [full, frame], frame ▸ fits.small⟩
  have still : 0 < φ.amplitudes.size := by rwa [full, ← fits.full]
  have further := rest φ held still frame wave
  rwa [Leads, frame] at further

theorem leads_twice (qs rs : List Qudit) (once : qs.Nodup) (inside : qs ⊆ ψ.frame.qudits) (distinct : rs.Nodup)
    (owned : rs ⊆ ψ.frame.qudits) (a b : Operator ℝ) (first : Acts qs a) (second : Acts rs b) :
    Leads ψ (ψ.applyMatrix qs a >>= fun φ => φ.applyMatrix rs b)
      (acted rs b (acted qs a (Dense.wave ψ.frame.qudits ψ.amplitudes))) := by
  refine leads_bind fits some (leads_apply fits some qs once inside a first) _ fun φ held still frame wave => ?_
  refine (leads_apply held still rs distinct (by rwa [frame]) b second).congr fun σ within => ?_
  rw [frame] at within ⊢
  exact acted_congr ψ.frame.qudits rs b _ _ distinct wave σ within

variable {qs : List Qudit} (once : qs.Nodup) (inside : qs ⊆ ψ.frame.qudits) {a : Operator ℝ} (acts : Acts qs a)

include once inside acts

theorem applied_mulVec : ∃ φ, ψ.applyMatrix qs a = .ok φ ∧ φ.frame = ψ.frame ∧ ∀ σ, Within ψ.frame.qudits σ →
    (fun i : Fin (size (Qudit.dims qs)) => φ.wave (spread qs σ i))
      = a.matrix (size (Qudit.dims qs)) *ᵥ fun j => ψ.wave (spread qs σ j) := by
  obtain ⟨φ, applied, frame, -, wave⟩ := leads_apply fits some qs once inside a acts
  refine ⟨φ, applied, frame, fun σ within => ?_⟩
  rw [DenseState.wave, DenseState.wave, frame, ← acted_mulVec qs a _ σ once]
  have positive : ∀ q ∈ qs, 0 < q.dim := fun q listed => positive_qudits fits some q (inside listed)
  exact funext fun i => wave _ (spread_within ψ.frame.qudits qs σ i once positive within)

theorem applied_product (b : Operator ℝ) (second : Acts qs b) : Same (ψ.applyMatrix qs a >>= fun φ => φ.applyMatrix qs b)
    (ψ.applyMatrix qs (ofMatrix (b.matrix (size (Qudit.dims qs)) * a.matrix (size (Qudit.dims qs))))) := by
  have twice := leads_twice fits some qs qs once inside once inside a b acts second
  have product := leads_apply fits some qs once inside _ (acts_ofMatrix qs (b.matrix _ * a.matrix _))
  exact same_of_leads fits some twice product fun σ within =>
    acted_product qs a b _ σ once fun q listed => within q (inside listed)

theorem applied_reordered (rs : List Qudit) (perm : rs.Perm qs) :
    Same (ψ.applyMatrix rs (reordered qs rs a)) (ψ.applyMatrix qs a) := by
  have rsOnce := perm.nodup_iff.mpr once
  have owned : rs ⊆ ψ.frame.qudits := fun q listed => inside (perm.mem_iff.mp listed)
  have moved := leads_apply fits some rs rsOnce owned (reordered qs rs a) ⟨rfl, rfl⟩
  exact same_of_leads fits some moved (leads_apply fits some qs once inside a acts) fun σ within =>
    acted_reordered qs rs a _ σ perm rsOnce fun q listed => within q (owned listed)

omit once in
theorem applied_tensor {rs : List Qudit} (distinct : (qs ++ rs).Nodup) (owned : rs ⊆ ψ.frame.qudits) (b : Operator ℝ)
    (second : Acts rs b) : Same (ψ.applyMatrix qs a >>= fun φ => φ.applyMatrix rs b)
          (ψ.applyMatrix (qs ++ rs) (tensor (size (Qudit.dims qs)) (size (Qudit.dims rs)) a b))
        ∧ Same (ψ.applyMatrix rs b >>= fun φ => φ.applyMatrix qs a)
          (ψ.applyMatrix (qs ++ rs) (tensor (size (Qudit.dims qs)) (size (Qudit.dims rs)) a b)) := by
  obtain ⟨once, rsOnce, apart⟩ := List.nodup_append.mp distinct
  have qsApart : ∀ q ∈ qs, q ∉ rs := fun q first second => apart q first q second rfl
  have rsApart : ∀ q ∈ rs, q ∉ qs := fun q second first => apart q first q second rfl
  have both := List.append_subset.mpr ⟨inside, owned⟩
  have joint := leads_apply fits some (qs ++ rs) distinct both _ (acts_tensor qs rs a b)
  have forward := leads_twice fits some qs rs once inside rsOnce owned a b acts second
  have backward := leads_twice fits some rs qs rsOnce owned once inside b a second acts
  refine ⟨same_of_leads fits some forward joint fun σ within => ?_, same_of_leads fits some backward joint fun σ within => ?_⟩
  · rw [acted_tensor qs rs a b _ σ distinct fun q listed => within q (both listed),
      acted_acted rs qs b a _ σ rsApart rsOnce once, sumOver_perm (qs ++ rs) (rs ++ qs) _ σ distinct List.perm_append_comm]
    exact congrArg (fun G => sumOver (rs ++ qs) G σ) (funext fun τ => mul_left_comm _ _ _)
  · rw [acted_tensor qs rs a b _ σ distinct fun q listed => within q (both listed),
      acted_acted qs rs a b _ σ qsApart once rsOnce]

end Applied

theorem applyMatrix_homomorphism (ψ : DenseState ℝ) (fits : Fits ψ) (some : 0 < ψ.amplitudes.size) (qs : List Qudit)
    (once : qs.Nodup) (inside : qs ⊆ ψ.frame.qudits) (a : Operator ℝ) (acts : Acts qs a) :
    (∃ φ, ψ.applyMatrix qs a = .ok φ ∧ φ.frame = ψ.frame ∧ ∀ σ, Within ψ.frame.qudits σ →
        (fun i : Fin (size (Qudit.dims qs)) => φ.wave (spread qs σ i))
          = a.matrix (size (Qudit.dims qs)) *ᵥ fun j => ψ.wave (spread qs σ j))
      ∧ (∀ b, Acts qs b → Same (ψ.applyMatrix qs a >>= fun φ => φ.applyMatrix qs b)
        (ψ.applyMatrix qs (ofMatrix (b.matrix (size (Qudit.dims qs)) * a.matrix (size (Qudit.dims qs))))))
      ∧ (∀ rs b, (qs ++ rs).Nodup → rs ⊆ ψ.frame.qudits → Acts rs b →
          Same (ψ.applyMatrix qs a >>= fun φ => φ.applyMatrix rs b)
              (ψ.applyMatrix (qs ++ rs) (tensor (size (Qudit.dims qs)) (size (Qudit.dims rs)) a b))
            ∧ Same (ψ.applyMatrix rs b >>= fun φ => φ.applyMatrix qs a)
              (ψ.applyMatrix (qs ++ rs) (tensor (size (Qudit.dims qs)) (size (Qudit.dims rs)) a b)))
      ∧ ∀ rs, rs.Perm qs → Set.BijOn (reread qs rs) (Set.Iio (size (Qudit.dims rs))) (Set.Iio (size (Qudit.dims qs)))
          ∧ Same (ψ.applyMatrix rs (reordered qs rs a)) (ψ.applyMatrix qs a) := by
  have positive := positive_qudits fits some
  refine ⟨applied_mulVec fits some once inside acts, applied_product fits some once inside acts,
    fun rs b distinct owned second => ?_, fun rs perm => ⟨?_, ?_⟩⟩
  · exact applied_tensor fits some inside acts distinct owned b second
  · exact reread_bijective (perm.nodup_iff.mpr once) perm fun q listed => positive q (inside (perm.mem_iff.mp listed))
  · exact applied_reordered fits some once inside acts rs perm

theorem applyMatrix_homomorphism_pair : ∃ ψ : DenseState ℝ, basisState [Qudit.qubit 0, ⟨1, 3⟩] 0 ⟨0⟩ ⟨0⟩ = .ok ψ
    ∧ ∀ b, Acts [⟨1, 3⟩] b →
      Same (ψ.applyMatrix [Qudit.qubit 0] Gate.hadamard >>= fun φ => φ.applyMatrix [⟨1, 3⟩] b)
          (ψ.applyMatrix [Qudit.qubit 0, ⟨1, 3⟩] (tensor 2 3 Gate.hadamard b))
        ∧ Same (ψ.applyMatrix [⟨1, 3⟩] b >>= fun φ => φ.applyMatrix [Qudit.qubit 0] Gate.hadamard)
          (ψ.applyMatrix [Qudit.qubit 0, ⟨1, 3⟩] (tensor 2 3 Gate.hadamard b)) := by
  obtain ⟨ψ, made, sound, named, -⟩ :=
    basisState_sound [Qudit.qubit 0, ⟨1, 3⟩] 0 ⟨0⟩ ⟨0⟩ (by decide) (by decide) (by decide) (by decide)
  have small : size ψ.frame.dims < wordSize := by rw [Frame.dims, named]; decide
  have some : 0 < ψ.amplitudes.size := by rw [sound.full, Frame.dims, named]; decide
  have laws := applyMatrix_homomorphism ψ ⟨sound.exact, sound.full, small⟩ some [Qudit.qubit 0] (by decide)
    (by rw [named]; decide) Gate.hadamard ⟨rfl, rfl⟩
  exact ⟨ψ, made, fun b acts => laws.2.2.1 [⟨1, 3⟩] b (by decide) (by rw [named]; decide) acts⟩

end DenseState

end QuantumRegister
