import QuantumRegister.Gate.Basic
import QuantumRegister.Log
import QuantumRegister.Measurement

/-!
Operations, known by what they can do. An operation may offer several descriptions of itself: a
matrix, a mixture of unitaries, Kraus operators, generators, a decomposition. A state resolves it
into the first description on its own list of routes.
-/

set_option autoImplicit false

namespace QuantumRegister

/-- Everything that an operation may offer, apart from other operations. All matrices act on
`qudits` in their order. -/
structure Capabilities (R : Type) where
  name : String
  qudits : List Qudit
  unitary : Option (Operator R) := none
  mixture : Option (List (R × Operator R)) := none
  kraus : Option (List (Operator R)) := none
  measurement : Option (Measurement R) := none
  channelKey : Option String := none
  isReset : Bool := false
  isIdentity : Bool := false
  isSwap : Bool := false
  generators : Option (List (Generator Qudit)) := none

/-- With `control`, the operation behind the key takes effect if the record under the key holds a
value other than zero. -/
structure Operation (R : Type) extends Capabilities R where
  parts : Option (List (Operation R)) := none
  control : Option (String × Operation R) := none

inductive Route where
  | unitary
  | mixture
  | channel
  | stabilizer
  | parts
deriving DecidableEq

inductive Resolution (R : Type) where
  | skip
  | measure (m : Measurement R)
  | reset (qudits : List Qudit)
  | unitary (m : Operator R)
  | mixture (branches : List (R × Operator R)) (key : Option String)
  | channel (ops : List (Operator R)) (key : Option String)
  | stabilizer (gates : List (Generator Qudit))
  | parts (ops : List (Operation R))

variable {R : Type}

def Capabilities.onRoute (c : Capabilities R) (parts : Option (List (Operation R))) :
    Route → Option (Resolution R)
  | .unitary => c.unitary.map .unitary
  | .mixture => c.mixture.map (.mixture · c.channelKey)
  | .channel => c.kraus.map (.channel · c.channelKey)
  | .stabilizer => c.generators.map .stabilizer
  | .parts => parts.map .parts

/-- Identity, measurement and reset come first, then the routes in order. -/
def Capabilities.resolve (c : Capabilities R) (parts : Option (List (Operation R)))
    (routes : List Route) : Option (Resolution R) :=
  if c.isIdentity then some .skip
  else
    match c.measurement with
    | some m => some (.measure m)
    | none => if c.isReset then some (.reset c.qudits) else routes.findSome? (c.onRoute parts)

namespace Operation

/-- A classical condition comes before everything else; one that fails leaves nothing to do. -/
def resolve (log : Log) (routes : List Route) : Operation R → Option (Resolution R)
  | ⟨_, _, some (key, inner)⟩ =>
    if log.conditionHolds key then resolve log routes inner else some .skip
  | ⟨c, parts, none⟩ => c.resolve parts routes

def reset (qudits : List Qudit) : Operation R :=
  { name := "Reset(" ++ Qudit.texts qudits ++ ")", qudits := qudits, isReset := true }

def composite (name : String) (ops : List (Operation R)) : Operation R :=
  { name := name, qudits := Qudit.distinct (ops.flatMap fun op => op.qudits), parts := some ops }

def controlled (key : String) (op : Operation R) : Operation R :=
  { name := op.name ++ ".with_condition(" ++ key ++ ")", qudits := op.qudits, control := some (key, op) }

end Operation

def Measurement.operation (m : Measurement R) : Operation R :=
  { name := "Measure[" ++ m.key ++ "](" ++ Qudit.texts m.qudits ++ ")", qudits := m.qudits,
    measurement := some m }

variable [Scalar R]

def Gate.leaf (g : Gate R) : Operation R :=
  { name := g.text, qudits := g.targets, unitary := some g.matrix, isIdentity := g.isIdentity,
    isSwap := g.isSwap, generators := g.generators }

def Gate.operation (g : Gate R) : Operation R :=
  { g.leaf with parts := g.decomposition.map fun gs => gs.map Gate.leaf }

end QuantumRegister
