import QuantumRegister.Scalar

/-!
Complex numbers in Cartesian form.
-/

set_option autoImplicit false

namespace QuantumRegister

structure Cplx (R : Type) where
  re : R
  im : R
deriving DecidableEq

namespace Cplx

variable {R : Type} [Scalar R]

def ofReal (x : R) : Cplx R := ⟨x, 0⟩

instance : Zero (Cplx R) := ⟨⟨0, 0⟩⟩
instance : One (Cplx R) := ⟨⟨1, 0⟩⟩
instance : Inhabited (Cplx R) := ⟨0⟩
instance : Add (Cplx R) := ⟨fun z w => ⟨z.re + w.re, z.im + w.im⟩⟩
instance : Sub (Cplx R) := ⟨fun z w => ⟨z.re - w.re, z.im - w.im⟩⟩
instance : Neg (Cplx R) := ⟨fun z => ⟨-z.re, -z.im⟩⟩
instance : Mul (Cplx R) := ⟨fun z w => ⟨z.re * w.re - z.im * w.im, z.re * w.im + z.im * w.re⟩⟩

def i : Cplx R := ⟨0, 1⟩

def conj (z : Cplx R) : Cplx R := ⟨z.re, -z.im⟩

def scale (z : Cplx R) (x : R) : Cplx R := ⟨z.re * x, z.im * x⟩

def unscale (z : Cplx R) (x : R) : Cplx R := ⟨z.re / x, z.im / x⟩

def normSq (z : Cplx R) : R := z.re * z.re + z.im * z.im

def norm (z : Cplx R) : R := Scalar.hypot z.re z.im

instance : Div (Cplx R) := ⟨fun z w =>
  ⟨(z.re * w.re + z.im * w.im) / w.normSq, (z.im * w.re - z.re * w.im) / w.normSq⟩⟩

def cis (angle : R) : Cplx R := ⟨Scalar.cos angle, Scalar.sin angle⟩

def ipow (k : Nat) : Cplx R :=
  match k % 4 with
  | 0 => ⟨1, 0⟩
  | 1 => ⟨0, 1⟩
  | 2 => ⟨-1, 0⟩
  | _ => ⟨0, -1⟩

end Cplx

end QuantumRegister
