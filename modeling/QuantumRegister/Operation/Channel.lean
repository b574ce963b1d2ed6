import QuantumRegister.Operation.Basic

/-!
Noisy channels: mixtures of unitaries, and channels given by Kraus operators. Both are checked when
they are built.
-/

set_option autoImplicit false

namespace QuantumRegister

structure Mixture (R : Type) where
  name : String
  qudits : List Qudit
  branches : List (R × Operator R)
  key : Option String := none

structure KrausChannel (R : Type) where
  name : String
  qudits : List Qudit
  ops : List (Operator R)
  key : Option String := none

variable {R : Type} [Scalar R]

def channelTolerance : R := 1e-8

namespace Mixture

def of (name : String) (qudits : List Qudit) (branches : List (R × Operator R)) :
    Except (SimError R) (Mixture R) :=
  if branches.isEmpty then .error (.invalidChannel .noBranches)
  else if branches.any (fun b => !Scalar.isFinite b.1 || decide (b.1 < 0)) then
    .error (.invalidChannel .negativeWeight)
  else
    let total := Scalar.sum (branches.map Prod.fst)
    if channelTolerance < Scalar.magnitude (total - 1) then .error (.invalidChannel (.weightSum total))
    else
      match Operator.checkAll qudits (branches.map Prod.snd) with
      | .error e => .error e
      | .ok () => .ok { name := name, qudits := qudits, branches := branches }

def withKey (m : Mixture R) (key : String) : Mixture R := { m with key := some key }

def nameOf (kind : String) (p : R) (q : Qudit) : String :=
  kind ++ "[" ++ Scalar.plain p ++ "](" ++ q.text ++ ")"

def bitFlip (q : Qudit) (p : R) : Except (SimError R) (Mixture R) :=
  of (nameOf "BitFlip" p q) [q] [(1 - p, Operator.identity q.dim), (p, Gate.pauliX)]

def phaseFlip (q : Qudit) (p : R) : Except (SimError R) (Mixture R) :=
  of (nameOf "PhaseFlip" p q) [q] [(1 - p, Operator.identity q.dim), (p, Gate.pauliZ)]

def depolarize (q : Qudit) (p : R) : Except (SimError R) (Mixture R) :=
  of (nameOf "Depolarize" p q) [q]
    [(1 - p, Operator.identity q.dim), (p / 3.0, Gate.pauliX), (p / 3.0, Gate.pauliY), (p / 3.0, Gate.pauliZ)]

/-- Drawing a branch is drawing among its unitaries, each times the root of its weight. -/
def kraus (m : Mixture R) : List (Operator R) :=
  m.branches.map fun b => b.2.scale (Cplx.ofReal (Scalar.sqrt b.1))

def operation (m : Mixture R) : Operation R :=
  { name := m.name, qudits := m.qudits, mixture := some m.branches, kraus := some m.kraus,
    channelKey := m.key }

end Mixture

namespace KrausChannel

def deviation (d : Nat) (ops : List (Operator R)) : R :=
  let total := (ops.map Operator.gram).foldl Operator.add (Grid.tabulate d d fun _ _ => 0)
  (total.sub (Operator.identity d)).norm

def of (name : String) (qudits : List Qudit) (ops : List (Operator R)) :
    Except (SimError R) (KrausChannel R) :=
  if ops.isEmpty then .error (.invalidChannel .noOperators)
  else
    match Operator.checkAll qudits ops with
    | .error e => .error e
    | .ok () =>
      let err := deviation (Qudit.jointDim qudits) ops
      if Scalar.sqrt channelTolerance < err then .error (.invalidChannel (.incomplete err))
      else .ok { name := name, qudits := qudits, ops := ops }

def withKey (c : KrausChannel R) (key : String) : KrausChannel R := { c with key := some key }

def undisturbed (rate : R) : Operator R :=
  Operator.ofList 2 [Cplx.ofReal 1, 0, 0, Cplx.ofReal (Scalar.sqrt (1 - rate))]

def amplitudeDamp (q : Qudit) (rate : R) : Except (SimError R) (KrausChannel R) :=
  of (Mixture.nameOf "AmplitudeDamp" rate q) [q]
    [undisturbed rate, Operator.ofList 2 [0, Cplx.ofReal (Scalar.sqrt rate), 0, 0]]

def phaseDamp (q : Qudit) (rate : R) : Except (SimError R) (KrausChannel R) :=
  of (Mixture.nameOf "PhaseDamp" rate q) [q]
    [undisturbed rate, Operator.ofList 2 [0, 0, 0, Cplx.ofReal (Scalar.sqrt rate)]]

def reset (q : Qudit) : Except (SimError R) (KrausChannel R) :=
  of ("ResetChannel(" ++ q.text ++ ")") [q] ((List.range q.dim).map fun k => Operator.transition q.dim 0 k)

def operation (c : KrausChannel R) : Operation R :=
  { name := c.name, qudits := c.qudits, kraus := some c.ops, channelKey := c.key }

end KrausChannel

end QuantumRegister
