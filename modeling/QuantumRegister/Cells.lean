import QuantumRegister.Log
import QuantumRegister.Random.Source

/-!
Cells shared between states: random sources and logs, each addressed by a handle. Two states with
the same handle draw from one stream, or write to one log.
-/

set_option autoImplicit false

namespace QuantumRegister

open QuantumRegister.Random (Source)

structure SourceRef where
  id : Nat
deriving DecidableEq

structure LogRef where
  id : Nat
deriving DecidableEq

structure Cells where
  sources : Array Source := #[]
  logs : Array Log := #[]

namespace Cells

def source (c : Cells) (h : SourceRef) : Source := c.sources.getD h.id default

def log (c : Cells) (h : LogRef) : Log := c.logs.getD h.id default

def setSource (c : Cells) (h : SourceRef) (s : Source) : Cells :=
  { c with sources := c.sources.setIfInBounds h.id s }

def setLog (c : Cells) (h : LogRef) (l : Log) : Cells := { c with logs := c.logs.setIfInBounds h.id l }

def newSource (c : Cells) (s : Source) : SourceRef × Cells :=
  (⟨c.sources.size⟩, { c with sources := c.sources.push s })

def newLog (c : Cells) (l : Log) : LogRef × Cells := (⟨c.logs.size⟩, { c with logs := c.logs.push l })

def draw {α : Type} (c : Cells) (h : SourceRef) (d : Random.Draw α) : α × Cells :=
  let (a, s) := d (c.source h)
  (a, c.setSource h s)

end Cells

end QuantumRegister
