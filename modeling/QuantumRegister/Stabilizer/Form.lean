import QuantumRegister.Cplx
import QuantumRegister.Gate.Generator
import QuantumRegister.Grid

/-!
Stabilizer states in CH form, `ω · U_C · U_H |s⟩`: a scalar, a circuit of phase and controlled gates,
a layer of Hadamard gates, and a basis state. The circuit is known by what it does to the Pauli
operators of each qubit `p`: it carries `Z_p` to the product of `Z_j` over `g p j`, and `X_p` to
`i ^ γ p` times the product of `X_j` over `f p j` and `Z_j` over `m p j`.
-/

set_option autoImplicit false

namespace QuantumRegister

/-- `v` marks the Hadamard layer, `s` the basis state; `gamma` counts modulo four. -/
structure Form (R : Type) where
  n : Nat
  g : Grid Bool
  f : Grid Bool
  m : Grid Bool
  gamma : Array Nat
  v : Array Bool
  s : Array Bool
  omega : Cplx R

namespace Form

def square (n : Nat) (b : Nat → Nat → Bool) : Grid Bool := Grid.tabulate n n b

def line {α : Type} (n : Nat) (b : Nat → α) : Array α := Array.ofFn fun i : Fin n => b i.val

def bit (t : Grid Bool) (i j : Nat) : Bool := t.getD i j false

def flag (t : Array Bool) (i : Nat) : Bool := t.getD i false

def exponent (t : Array Nat) (i : Nat) : Nat := t.getD i 0

def count (n : Nat) (p : Nat → Bool) : Nat := (List.range n).countP p

variable {R : Type} [Scalar R]

def zero (n : Nat) : Form R where
  n := n
  g := square n fun i j => i == j
  f := square n fun i j => i == j
  m := square n fun _ _ => false
  gamma := line n fun _ => 0
  v := line n fun _ => false
  s := line n fun _ => false
  omega := 1

/-! Gates that act after the circuit. -/

def applyS (c : Form R) (q : Nat) : Form R :=
  { c with
    m := square c.n fun i j => bit c.m i j ^^ (i == q && bit c.g i j)
    gamma := line c.n fun i => if i = q then (exponent c.gamma i + 3) % 4 else exponent c.gamma i }

def applyCZ (c : Form R) (a b : Nat) : Form R :=
  { c with m := square c.n fun i j => bit c.m i j ^^ (i == a && bit c.g b j) ^^ (i == b && bit c.g a j) }

def applyCX (c : Form R) (a b : Nat) : Form R :=
  let parity := count c.n (fun j => bit c.m a j && bit c.f b j) % 2
  { c with
    g := square c.n fun i j => bit c.g i j ^^ (i == b && bit c.g a j)
    f := square c.n fun i j => bit c.f i j ^^ (i == a && bit c.f b j)
    m := square c.n fun i j => bit c.m i j ^^ (i == a && bit c.m b j)
    gamma := line c.n fun i =>
      if i = a then (exponent c.gamma a + exponent c.gamma b + 2 * parity) % 4 else exponent c.gamma i }

/-! Gates put between the circuit and the Hadamard layer. -/

def rightS (c : Form R) (q : Nat) : Form R :=
  { c with
    m := square c.n fun i j => bit c.m i j ^^ (j == q && bit c.f i q)
    gamma := line c.n fun i =>
      if bit c.f i q then (exponent c.gamma i + 3) % 4 else exponent c.gamma i }

def rightCZ (c : Form R) (q r : Nat) : Form R :=
  { c with
    m := square c.n fun i j => bit c.m i j ^^ (j == q && bit c.f i r) ^^ (j == r && bit c.f i q)
    gamma := line c.n fun i =>
      if bit c.f i q && bit c.f i r then (exponent c.gamma i + 2) % 4 else exponent c.gamma i }

def rightCX (c : Form R) (q r : Nat) : Form R :=
  { c with
    g := square c.n fun i j => bit c.g i j ^^ (j == q && bit c.g i r)
    f := square c.n fun i j => bit c.f i j ^^ (j == r && bit c.f i q)
    m := square c.n fun i j => bit c.m i j ^^ (j == q && bit c.m i r) }

/-- A sum of two basis states of one qubit, as a scalar times a phase gate, a Hadamard gate and a
basis state. -/
structure Reduced (R : Type) where
  scalar : Cplx R
  phase : Bool
  hadamard : Bool
  value : Bool

/-- Reduces `(H^v |y⟩ + i^delta H^v |1 - y⟩) / √2`. -/
def reduce (v y : Bool) (delta : Nat) : Reduced R :=
  let scalar : Cplx R := if y then Cplx.ipow delta else 1
  let delta := if y then (4 - delta % 4) % 4 else delta % 4
  if !v then ⟨scalar, delta % 2 == 1, true, delta / 2 % 2 == 1⟩
  else
    match delta with
    | 0 => ⟨scalar, false, false, false⟩
    | 2 => ⟨scalar, false, false, true⟩
    | 1 => ⟨scalar * Cplx.cis Scalar.eighthTurn, true, true, true⟩
    | _ => ⟨scalar * Cplx.cis (-Scalar.eighthTurn), true, true, false⟩

/-- Moves the difference of two basis states onto one qubit, the pivot: a place outside the Hadamard
layer if they differ there, else the first place where they differ. -/
def gather (c : Form R) (t u : Array Bool) : Nat × Form R :=
  let differs := (List.range c.n).filter fun i => flag t i != flag u i
  let outside := differs.filter fun i => !flag c.v i
  let inside := differs.filter fun i => flag c.v i
  match outside with
  | q :: rest => (q, inside.foldl (fun c i => c.rightCZ q i) (rest.foldl (fun c i => c.rightCX q i) c))
  | [] => (inside.headD 0, inside.tail.foldl (fun c i => c.rightCX i (inside.headD 0)) c)

/-- Takes `(-1)^alpha (|t⟩ + i^delta |u⟩) / √2` behind the Hadamard layer as the new state. -/
def recombine (c : Form R) (t u : Array Bool) (delta : Nat) (alpha : Bool) : Form R :=
  if t = u then
    { c with s := t, omega := c.omega * ((1 : Cplx R) + Cplx.ipow delta).scale (Scalar.sign alpha * Scalar.invSqrtTwo) }
  else
    let (q, c) := c.gather t u
    let y := if flag t q then line c.n fun i => if i = q then !flag u i else flag u i else t
    let r : Reduced R := reduce (flag c.v q) (flag y q) delta
    let c := { c with
      s := line c.n fun i => if i = q then r.value else flag y i
      omega := c.omega * r.scalar.scale (Scalar.sign alpha) }
    let c := if r.phase then c.rightS q else c
    { c with v := line c.n fun i => if i = q then r.hadamard else flag c.v i }

/-- Pushed through the circuit, a Hadamard gate leaves a sum of two basis states. -/
def applyH (c : Form R) (q : Nat) : Form R :=
  let t := line c.n fun j => flag c.s j ^^ (bit c.g q j && flag c.v j)
  let u := line c.n fun j => flag c.s j ^^ (bit c.f q j && !flag c.v j) ^^ (bit c.m q j && flag c.v j)
  let alpha := count c.n fun j => bit c.g q j && !flag c.v j && flag c.s j
  let beta := count c.n (fun j => bit c.m q j && !flag c.v j && flag c.s j)
    + count c.n (fun j => bit c.f q j && flag c.v j && bit c.m q j)
    + count c.n (fun j => bit c.f q j && flag c.v j && flag c.s j)
  c.recombine t u ((exponent c.gamma q + 2 * (alpha + beta)) % 4) (alpha % 2 == 1)

def applyZ (c : Form R) (q : Nat) : Form R := (c.applyS q).applyS q

def applyX (c : Form R) (q : Nat) : Form R := ((c.applyH q).applyZ q).applyH q

def applyY (c : Form R) (q : Nat) : Form R :=
  let c := (c.applyZ q).applyX q
  { c with omega := c.omega * Cplx.i }

def applySwap (c : Form R) (a b : Nat) : Form R := ((c.applyCX a b).applyCX b a).applyCX a b

def apply (c : Form R) : Generator Nat → Form R
  | .h q => c.applyH q
  | .s q => c.applyS q
  | .x q => c.applyX q
  | .y q => c.applyY q
  | .z q => c.applyZ q
  | .cx a b => c.applyCX a b
  | .cz a b => c.applyCZ a b

def basis (n index : Nat) : Form R :=
  (List.range n).foldl (fun c k => if index.testBit (n - 1 - k) then c.applyX k else c) (zero n)

/-- Projects onto one value of a qubit and restores the norm. A value that the state excludes leaves
the zero vector. -/
def project (c : Form R) (q : Nat) (outcome : Bool) : Form R :=
  let u := line c.n fun j => (bit c.g q j && flag c.v j) ^^ flag c.s j
  let ones := count c.n fun j => bit c.g q j && !flag c.v j && flag c.s j
  let delta := (2 * ones + 2 * outcome.toNat) % 4
  let t := line c.n fun j => flag c.s j
  let c := if t = u then { c with omega := c.omega.scale Scalar.invSqrtTwo } else c
  c.recombine t u delta false

def kron (a b : Form R) : Form R :=
  let n := a.n + b.n
  let block (x y : Grid Bool) : Grid Bool := square n fun i j =>
    if i < a.n ∧ j < a.n then bit x i j
    else if a.n ≤ i ∧ a.n ≤ j then bit y (i - a.n) (j - a.n)
    else false
  { n := n
    g := block a.g b.g
    f := block a.f b.f
    m := block a.m b.m
    gamma := a.gamma ++ b.gamma
    v := a.v ++ b.v
    s := a.s ++ b.s
    omega := a.omega * b.omega }

def reindex (c : Form R) (axes : List Nat) : Form R :=
  let old := fun i => axes.getD i 0
  { n := c.n
    g := square c.n fun i j => bit c.g (old i) (old j)
    f := square c.n fun i j => bit c.f (old i) (old j)
    m := square c.n fun i j => bit c.m (old i) (old j)
    gamma := line c.n fun i => exponent c.gamma (old i)
    v := line c.n fun i => flag c.v (old i)
    s := line c.n fun i => flag c.s (old i)
    omega := c.omega }

def same (a b : Form R) : Bool :=
  a.n == b.n && a.g == b.g && a.f == b.f && a.m == b.m && a.gamma == b.gamma && a.v == b.v && a.s == b.s
    && (a.omega.re ≤ b.omega.re && b.omega.re ≤ a.omega.re && a.omega.im ≤ b.omega.im && b.omega.im ≤ a.omega.im)

end Form

end QuantumRegister
