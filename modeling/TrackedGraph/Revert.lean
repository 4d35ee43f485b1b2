/-
Reverting: a document back in its state from before a recording.

A reduced journal holds the state that each changed property had before. Properties
that own children come first. All of them are emptied before any of them is filled
again, so that a child which moved between two of them is never claimed by both;
attributes and plain references follow. At the end the tree can be checked
(`Revert.verify`): what was created has to be out of it, and what left it has to be
back.
-/
import TrackedGraph.Document.Edit
import TrackedGraph.Journal.Views
import TrackedGraph.Policy

set_option autoImplicit false

namespace TrackedGraph

namespace Edit

variable {τ α : Type}

/-- Works on a journal, with the forest and its generation at hand. -/
def onJournal (k : Nat) (g : Forest → Nat → ExceptT Fault (StateM Journal) α) : Edit τ α :=
  fun d =>
    let (a, j) := g d.forest d.generation (d.audience.journal k)
    (a, { d with audience := d.audience.setJournal k j })

/-- A journal as it is. -/
def journal (k : Nat) : Edit τ Journal := fun d => (.ok (d.audience.journal k), d)

/-- Changes a journal. -/
def modifyJournal (k : Nat) (g : Journal → Journal) : Edit τ Unit := fun d =>
  (.ok (), { d with audience := d.audience.setJournal k (g (d.audience.journal k)) })

/-- Reduces a journal. -/
def reduceJournal (k : Nat) (prune : Bool) : Edit τ Reduction :=
  onJournal k fun f _ j => Journal.reduce f prune j

end Edit

namespace Revert

/-- What reverting did. -/
structure Report where
  /-- The session that was reverted. -/
  session : Option Nat
  /-- The nodes with a property that was written. -/
  touched : Nat
  /-- The properties with children that were restored. -/
  containment : Nat
  /-- The other properties that were restored. -/
  properties : Nat
  /-- The created nodes that are out of the tree again. -/
  withdrawn : Nat
  warnings : List String
deriving DecidableEq

variable {τ : Type}

/-- Whether a state is of a property that owns children. -/
def isStructural (f : Forest) (r : PriorState) : Except Fault Bool := do
  let feature ← f.feature r.node r.property
  return feature.owns || feature.isMixed

/-- Empties the property of a state. -/
def clear (r : PriorState) : Edit τ Unit := do
  let feature ← Edit.query (·.feature r.node r.property)
  Edit.set r.node r.property feature.restValue

/-- Brings a state back. -/
def restore (r : PriorState) : Edit τ Unit :=
  if r.isSet then Edit.set r.node r.property r.value else Edit.unset r.node r.property

/-! ## The check at the end -/

/-- The created nodes are out of the tree. Counts them. -/
def verifyCreated (f : Forest) (roots : List NodeId) : List NodeId → Except Fault Nat
  | [] => return 0
  | n :: rest => do
    if f.isWithinAny n roots then
      throw (.inconsistent ("created node " ++ n.label ++ " is still attached after undo"))
    return (← verifyCreated f roots rest) + 1

/-- The nodes that left the tree are back in it, as far as they were there from the
start. Warns about those that were not. -/
def verifyLeft (f : Forest) (j : Journal) : List NodeId → Except Fault (List String)
  | [] => return []
  | n :: rest => do
    if j.isCreated n || f.isWithinAny n j.roots then verifyLeft f j rest
    else if j.wasInitial n then
      throw (.inconsistent ("node " ++ n.label ++ " was not restored to the tree"))
    else
      let warning := "node " ++ n.label ++ " left the tree but was never tracked from the start"
      return warning :: (← verifyLeft f j rest)

/-- Checks the tree. Returns the number of created nodes and the warnings. -/
def verify (f : Forest) (j : Journal) : Except Fault (Nat × List String) := do
  let withdrawn ← verifyCreated f j.roots j.created
  return (withdrawn, ← verifyLeft f j j.left)

/-! ## The whole -/

/-- Writes the states back: the properties that own children first. -/
def writeBack (structural plain : List PriorState) : Edit τ Unit := do
  structural.forM clear
  structural.forM restore
  plain.forM restore

/-- **Reverts every change that a journal records**, and clears the journal. A
fault leaves the document as far as it was reverted. -/
def run (policy : Policy) (k : Nat) : Edit τ Report := do
  let _ ← Edit.reduceJournal k policy.prune
  let states := (← Edit.journal k).allEarliest
  let structural ← Edit.query fun f => states.filterM (isStructural f)
  let plain ← Edit.query fun f => states.filterM fun r => return !(← isStructural f r)
  writeBack structural plain
  let j ← Edit.journal k
  let (withdrawn, warnings) ←
    if policy.verify then Edit.query fun f => verify f j else pure (0, [])
  Edit.modifyJournal k (·.forget)
  return {
    session := j.session.map (·.id)
    touched := (FirstSeen.ofList (states.map (·.node))).length
    containment := structural.length
    properties := plain.length
    withdrawn
    warnings }

end Revert

end TrackedGraph
