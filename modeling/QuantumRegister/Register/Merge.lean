import QuantumRegister.Register.Basic

/-!
Changes to the partition of a register: uniting the owners of some qudits, splitting qudits off, and
exchanging two labels. Also the joint state of the whole register.
-/

set_option autoImplicit false

namespace QuantumRegister.Register

open QuantumRegister.Representation (factor frame kronecker setFrame transposed)

variable {R S : Type} [Scalar R] [Representation R S]

def product (r : Register R S) (first : S) : List Nat → Except (SimError R) S
  | [] => .ok first
  | h :: hs => do r.product (← kronecker first (← r.state h)) hs

def replace (r : Register R S) (hs : List Nat) (s : S) : Nat × Register R S :=
  let (h, slots) := (hs.foldl Slots.release r.slots).alloc s
  (h, { r with slots := slots }.assign (Representation.qudits s) h)

/-- Unites the owners of some qudits. No qudits are owned by the state at home. -/
def merge (r : Register R S) (qs : List Qudit) : Except (SimError R) (Nat × Register R S) := do
  match ← r.ownersOf qs with
  | [] => return (r.home, r)
  | [h] => return (h, r)
  | h :: hs => return r.replace (h :: hs) (← r.product (← r.state h) hs)

def splitOff (r : Register R S) (q : Qudit) : Except (SimError R) (Register R S) := do
  let h ← r.owner q
  let s ← r.state h
  if (Representation.qudits s).length ≤ 1 then return r
  else
    let (single, rest) ← factor s [q] false r.tolerance
    let (k, slots) := (r.slots.put h rest).alloc single
    return { r with slots := slots }.assign [q] k

/-- Splits off qudits one after the other, up to the first failure; what is done stays done. -/
def splitAll (r : Register R S) : List Qudit → Except (SimError R) Unit × Register R S
  | [] => (.ok (), r)
  | q :: qs =>
    match r.splitOff q with
    | .error e => (.error e, r)
    | .ok r => splitAll r qs

def reframe (r : Register R S) (h : Nat) (change : Frame → Except (SimError R) Frame) :
    Except (SimError R) (Register R S) := do
  let s ← r.state h
  return { r with slots := r.slots.put h (setFrame s (← change (frame s))) }

/-- Exchanges two qudits of one dimension. Amplitudes stay where they are, only labels change. The first
renaming is not kept if the second fails; where both qudits are owned neither does (`Arena.exchange_done`). -/
def exchange (r : Register R S) (a b : Qudit) : Except (SimError R) (Register R S) :=
  if a.dim ≠ b.dim then .error (.shapeMismatch [a.dim] [b.dim])
  else do
    let h ← r.owner a
    let k ← r.owner b
    if h = k then r.reframe h (·.swapLabels a b)
    else
      let r ← r.reframe h (·.rename a b)
      let r ← r.reframe k (·.rename b a)
      return (r.assign [a] k).assign [b] h

def merged (r : Register R S) : Except (SimError R) S := do
  let hs ← r.ownersOf r.qudits
  let first ← r.state r.home
  transposed (← r.product first (hs.filter (· != r.home))) r.qudits

end QuantumRegister.Register
