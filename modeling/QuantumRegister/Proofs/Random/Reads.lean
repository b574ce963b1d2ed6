import Mathlib
import QuantumRegister.Dense.Amplitudes
import QuantumRegister.Measurement
import QuantumRegister.Stabilizer.Readout

/-!
Draws move along a source: whatever they give, they leave the sequence of words as it is, and the
position where the next draw goes on.
-/

set_option autoImplicit false

namespace QuantumRegister

namespace Random

def Source.skip (s : Source) (n : ℕ) : Source := { s with position := s.position + n }

theorem Source.skip_skip (s : Source) (m n : ℕ) : (s.skip m).skip n = s.skip (m + n) := by
  simp only [skip, Nat.add_assoc]

variable {R α β : Type}

def Reads (d : Draw α) : Prop := ∀ s, ∃ n, (d s).2 = s.skip n

theorem reads_pure (a : α) : Reads (pure a : Draw α) := fun _ => ⟨0, rfl⟩

theorem reads_bind (d : Draw α) (next : α → Draw β) (first : Reads d) (rest : ∀ a, Reads (next a)) : Reads (d >>= next) := by
  intro s
  obtain ⟨m, moved⟩ := first s
  obtain ⟨n, further⟩ := rest (d s).1 (d s).2
  exact ⟨m + n, further.trans (by rw [moved, Source.skip_skip])⟩

theorem reads_drawWord : Reads drawWord := fun _ => ⟨1, rfl⟩

theorem reads_drawDouble : Reads drawDouble :=
  reads_bind _ _ reads_drawWord fun _ => reads_bind _ _ reads_drawWord fun _ => reads_pure _

theorem reads_drawBit : Reads drawBit := reads_bind _ _ reads_drawWord fun _ => reads_pure _

theorem reads_drawBits (n : ℕ) : Reads (drawBits n) := by
  induction n with
  | zero => exact reads_pure []
  | succ n ih => exact reads_bind _ _ reads_drawBit fun _ => reads_bind _ _ ih fun _ => reads_pure _

def topBit (w : UInt32) : Bool := Nat.pow 2 31 ≤ w.toNat

def Source.coins (s : Source) (k : ℕ) : Fin k → Bool := fun i => topBit (s.word (s.position + i))

-- A source with given bits on top of its words.
def Source.tape {k : ℕ} (r : Fin k → Bool) : Source where
  word i := if inside : i < k then if r ⟨i, inside⟩ then 0x80000000 else 0 else 0
  position := 0

theorem Source.coins_tape {k : ℕ} (r : Fin k → Bool) : (Source.tape r).coins k = r := by
  funext i
  have word : (Source.tape r).word (0 + i) = if r i then 0x80000000 else 0 := by rw [Nat.zero_add]; exact dif_pos i.isLt
  refine (congrArg topBit word).trans ?_
  cases r i <;> rfl

theorem drawBits_eq (k : ℕ) (s : Source) : drawBits k s = (List.ofFn (s.coins k), s.skip k) := by
  induction k generalizing s with
  | zero => rfl
  | succ k ih =>
      have rest := ih (s.skip 1)
      have later : (s.skip 1).coins k = fun i : Fin k => s.coins (k + 1) i.succ := by
        funext i
        refine congrArg (fun p => topBit (s.word p)) ?_
        rw [Source.skip, Fin.val_succ, Nat.add_assoc, Nat.add_comm 1]
      rw [Source.skip_skip, Nat.add_comm 1, later] at rest
      rw [List.ofFn_succ]
      exact congrArg (fun p : List Bool × Source => (s.coins (k + 1) 0 :: p.1, p.2)) rest

theorem reads_drawUnit [Scalar R] : Reads (drawUnit : Draw R) := reads_bind _ _ reads_drawDouble fun _ => reads_pure _

theorem reads_weighted [Scalar R] (d : Weighted R) : Reads d.draw := reads_bind _ _ reads_drawDouble fun _ => reads_pure _

end Random

open QuantumRegister.Random (Draw Reads reads_pure reads_bind)

variable {R : Type} [Scalar R]

theorem Dense.reads_drawPick (chances : List R) : Reads (Dense.drawPick chances) :=
  reads_bind _ _ Random.reads_drawUnit fun _ => reads_pure _

namespace Measurement

theorem reads_confuse (m : Measurement R) (c : Confusion R) (values : List ℕ) : Reads (m.confuse c values) := by
  rw [confuse]
  split
  · exact reads_pure _
  · split
    · exact reads_pure _
    · exact reads_bind _ _ (Random.reads_weighted _) fun _ => reads_pure _

theorem reads_confuseAll (m : Measurement R) (cs : List (Confusion R)) (values : List ℕ) : Reads (m.confuseAll cs values) := by
  induction cs generalizing values with
  | nil => exact reads_pure _
  | cons c cs ih =>
      refine reads_bind _ _ (reads_confuse m c values) fun confused => ?_
      cases confused with
      | error e => exact reads_pure _
      | ok values => exact ih values

theorem reads_correct (m : Measurement R) (raw : List ℕ) : Reads (m.correct raw) :=
  reads_bind _ _ (reads_confuseAll m _ raw) fun _ => reads_pure _

end Measurement

namespace Form

theorem reads_measure (c : Form R) (q : ℕ) : Reads (c.measure q) :=
  reads_bind _ _ (Random.reads_drawBits _) fun _ => reads_pure _

theorem reads_measureAll (c : Form R) (qs : List ℕ) : Reads (c.measureAll qs) := by
  induction qs generalizing c with
  | nil => exact reads_pure ([], c)
  | cons q qs ih => exact reads_bind _ _ (reads_measure c q) fun p => reads_bind _ _ (ih p.2) fun _ => reads_pure _

theorem reads_resetAll (c : Form R) (qs : List ℕ) : Reads (c.resetAll qs) := by
  induction qs generalizing c with
  | nil => exact reads_pure c
  | cons q qs ih => exact reads_bind _ _ (reads_measure c q) fun p => ih _

end Form

end QuantumRegister
