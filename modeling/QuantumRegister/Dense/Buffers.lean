import QuantumRegister.Dense.Layout

/-!
Two arrays of one size that trade places: the amplitudes of a state, and scratch space for those of
its successor.
-/

set_option autoImplicit false

namespace QuantumRegister.Dense

/-- The scratch array is empty until it is needed. -/
structure Buffers (K : Type) where
  live : Array K
  spare : Array K := #[]

namespace Buffers

variable {K : Type} [Zero K] [Add K] [Mul K]

def scratch (b : Buffers K) : Array K :=
  if b.spare.size = b.live.size then b.spare else Array.replicate b.live.size 0

def prepare (b : Buffers K) (l : Layout) (m : Grid K) : Buffers K :=
  { b with spare := l.contract m b.live b.scratch }

def swap (b : Buffers K) : Buffers K := ⟨b.spare, b.live⟩

end Buffers

end QuantumRegister.Dense
