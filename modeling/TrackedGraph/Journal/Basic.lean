/-
The journal: what was there before.

A journal holds, for every node that was touched, the states its properties had
before each change, in order of time, and beside them the nodes that entered or
left the tracked tree. Nothing is dropped while it is being written; `reduce`
reduces each node's list to the earliest state of each property, which is the
state from before the recording.

A journal counts its own changes (`revision`). Views that cost a walk over the
forest are kept together with the count at which they were taken; they live in
`TrackedGraph.Journal.Views`.
-/
import TrackedGraph.FirstSeen
import TrackedGraph.Forest.Basic

set_option autoImplicit false

namespace TrackedGraph

/-- The state of one property of one node before a change. -/
structure PriorState where
  node : NodeId
  property : PropertyId
  value : Value
  isSet : Bool
deriving DecidableEq, Inhabited

/-- One session of recording. -/
structure Session where
  id : Nat
  /-- The nodes whose contents are tracked. -/
  roots : List NodeId
deriving DecidableEq, Inhabited

/-- A view and the moment at which it was taken: the revision of the journal and
the generation of the document. -/
structure Memo (α : Type) where
  revision : Nat
  generation : Nat
  view : α
deriving Inhabited

structure Journal where
  /-- The prior states of each touched node, nodes in order of first touch. -/
  records : List (NodeId × List PriorState) := []
  /-- The nodes that entered the tracked tree, in order of first entry. -/
  entered : List NodeId := []
  /-- The nodes that left the tracked tree, as often as they did. -/
  left : List NodeId := []
  /-- The nodes that were in the tracked tree from the start. -/
  initial : List NodeId := []
  /-- The running or the latest session. -/
  session : Option Session := none
  recording : Bool := false
  suspended : Bool := false
  /-- The seat that the journal's recorder took when the session was joined. -/
  seat : Option ObserverId := none
  revision : Nat := 0
  deletedMemo : Option (Memo (List NodeId)) := none
  priorPlacesMemo : Option (Memo (List (NodeId × Place))) := none
  /-- Prior states of nodes that were asked for at the revision `expansionsAt`. -/
  expansions : List (NodeId × List PriorState) := []
  expansionsAt : Nat := 0
deriving Inhabited

/-- What a reduction did. -/
structure Reduction where
  /-- The records before. -/
  raw : Nat
  kept : Nat
  /-- The earliest states that were dropped because the property is back at them. -/
  pruned : Nat
  /-- The nodes that still have a record. -/
  nodes : Nat
deriving DecidableEq, Inhabited

namespace Journal

/-! ## Writing -/

def bump (j : Journal) : Journal := { j with revision := j.revision + 1 }

/-- Appends a state to the list of its node. -/
def appendRecord (r : PriorState) :
    List (NodeId × List PriorState) → List (NodeId × List PriorState)
  | [] => [(r.node, [r])]
  | (n, rs) :: rest =>
    if n = r.node then (n, rs ++ [r]) :: rest else (n, rs) :: appendRecord r rest

def record (j : Journal) (r : PriorState) : Journal :=
  { j with records := appendRecord r j.records }.bump

def noteEntry (j : Journal) (n : NodeId) : Journal :=
  { j with entered := FirstSeen.add j.entered n }.bump

def noteExit (j : Journal) (n : NodeId) : Journal :=
  { j with left := j.left ++ [n] }.bump

/-- Starts a session with nothing recorded. -/
def startSession (j : Journal) (session : Session) (initial : List NodeId) : Journal :=
  { j with
    records := []
    entered := []
    left := []
    initial
    suspended := false
    session := some session }.bump

/-- Counts nodes as there from the start. -/
def extendInitial (j : Journal) (nodes : List NodeId) : Journal :=
  { j with initial := FirstSeen.addAll j.initial nodes }.bump

/-- Forgets what was recorded, but not the session. -/
def forget (j : Journal) : Journal :=
  { j with records := [], entered := [], left := [] }.bump

/-! ## Reading -/

/-- The roots of the session, none before the first one. -/
def roots (j : Journal) : List NodeId :=
  match j.session with
  | some s => s.roots
  | none => []

/-- The nodes with at least one record, in order of first touch. -/
def touched (j : Journal) : List NodeId := j.records.map (·.1)

/-- The records of a node, in order of time. -/
def recordsOf (j : Journal) (n : NodeId) : List PriorState := (j.records.lookup n).getD []

def wasInitial (j : Journal) (n : NodeId) : Bool := j.initial.contains n

/-- Whether a node entered the tracked tree and was not there from the start. -/
def isCreated (j : Journal) (n : NodeId) : Bool :=
  j.entered.contains n && !j.wasInitial n

/-- The created nodes, in order of first entry. -/
def created (j : Journal) : List NodeId := j.entered.filter fun n => !j.wasInitial n

/-- The first state of each property, in order of time. -/
def earliest : List PriorState → List PriorState
  | [] => []
  | r :: rs => r :: (earliest rs).filter (·.property != r.property)

/-- The earliest states of one node. -/
def earliestOf (j : Journal) (n : NodeId) : List PriorState := earliest (j.recordsOf n)

/-- The earliest states of all nodes, in order of first touch. -/
def allEarliest (j : Journal) : List PriorState := j.records.flatMap fun (_, rs) => earliest rs

/-! ## Reduction -/

/-- Whether a property is in a recorded state at this moment. -/
def isCurrent (f : Forest) (r : PriorState) : Except Fault Bool := do
  let slot ← f.slot r.node r.property
  return slot.isSet == r.isSet && slot.value.agrees r.value

/-- The earliest states of one node, without those that the live forest is in if
these are to be pruned. -/
def reduceNode (f : Forest) (prune : Bool) (rs : List PriorState) : Except Fault (List PriorState) :=
  (earliest rs).filterM fun r => do
    if prune then return !(← isCurrent f r) else return true

/-- **Reduces the journal to the earliest states.** Nodes without a record
disappear. If the forest cannot be asked about a record, all records are lost. -/
def reduce (f : Forest) (prune : Bool) (j : Journal) : Except Fault Reduction × Journal :=
  let reduced : Except Fault (List (NodeId × List PriorState)) :=
    j.records.mapM fun (n, rs) => do return (n, ← reduceNode f prune rs)
  match reduced with
  | .error fault => (.error fault, { j with records := [] })
  | .ok all =>
    let records := all.filter fun (_, rs) => !rs.isEmpty
    let kept := (records.flatMap (·.2)).length
    let report : Reduction := {
      raw := (j.records.flatMap (·.2)).length
      kept
      pruned := j.allEarliest.length - kept
      nodes := records.length }
    (.ok report, { j with records, expansions := [] }.bump)

end Journal

end TrackedGraph
