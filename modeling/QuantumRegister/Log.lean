import QuantumRegister.Assoc
import QuantumRegister.Error

/-!
The classical record of a run. Measured values and sampled branch indices are appended under keys;
nothing is ever overwritten.
-/

set_option autoImplicit false

namespace QuantumRegister

/-- The keys stand in the order in which they were first written. The qudits of a key are those of its
first measurement. -/
structure Log where
  keys : List String := []
  qudits : List (String × List Qudit) := []
  records : List (String × List (List Nat)) := []
  branches : List (String × List Nat) := []
deriving Inhabited

namespace Log

def empty : Log := {}

def isEmpty (log : Log) : Bool := log.keys.isEmpty

def qudits? (log : Log) (key : String) : Option (List Qudit) := Assoc.find? key log.qudits

def records? (log : Log) (key : String) : Option (List (List Nat)) := Assoc.find? key log.records

def branches? (log : Log) (key : String) : Option (List Nat) := Assoc.find? key log.branches

instance : BEq Log where
  beq a b := a.keys == b.keys && Assoc.same a.qudits b.qudits && Assoc.same a.records b.records
    && Assoc.same a.branches b.branches

/-! Writes. -/

abbrev Edit (R α : Type) := ExceptT (SimError R) (StateM Log) α

def touch (key : String) (log : Log) : Log :=
  if log.keys.contains key then log else { log with keys := log.keys ++ [key] }

def keepQudits (key : String) (qudits : List Qudit) (log : Log) : Log :=
  { log with qudits := Assoc.insert key qudits log.qudits }

def pushRecord (key : String) (values : List Nat) (log : Log) : Log :=
  { log with records := Assoc.push key values log.records }

def pushBranch (key : String) (index : Nat) (log : Log) : Log :=
  { log with branches := Assoc.push key index log.branches }

/-- Appends one measured value per qudit. All records of a key have the same length. -/
def recordMeasurement {R : Type} (key : String) (qudits : List Qudit) (values : List Nat) : Edit R Unit := do
  if values.length ≠ qudits.length then throw (.shapeMismatch [qudits.length] [values.length])
  match (← get).qudits? key with
  | some first => if first.length ≠ qudits.length then throw (.shapeMismatch [first.length] [qudits.length])
  | none => modify (keepQudits key qudits)
  modify (touch key)
  modify (pushRecord key values)

def recordBranch (log : Log) (key : String) (index : Nat) : Log := pushBranch key index (touch key log)

/-! Queries. -/

def numRecords (log : Log) (key : String) : Nat := ((log.records? key).getD []).length

def last? (log : Log) (key : String) : Option (List Nat) := (log.records? key).bind List.getLast?

/-- Whether the latest value under a key is not zero. Branch indices count only while there is no
measurement record. -/
def conditionHolds (log : Log) (key : String) : Bool :=
  match log.last? key with
  | some values => values.any (· != 0)
  | none => ((log.branches? key).bind List.getLast?).any (· != 0)

def entryText (log : Log) (key : String) : String :=
  key ++ "=" ++ (match log.records? key with
    | some records => ",".intercalate (records.map fun r => String.join (r.map toString))
    | none => "")
  ++ match log.branches? key with
    | some indices => "[" ++ ",".intercalate (indices.map toString) ++ "]"
    | none => ""

def text (log : Log) : String := " ".intercalate (log.keys.map log.entryText)

end Log

end QuantumRegister
