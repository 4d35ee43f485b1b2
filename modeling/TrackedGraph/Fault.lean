/-
Why an operation is refused.

A fault is a cause with the data of that cause; its wording is in one place,
`Fault.message`. Faults fall into two classes that callers treat apart: a breach
of the recording contract is the caller's own doing and harmless, while after a
fatal fault the document may be half reverted and has to be given up.
-/
import TrackedGraph.Ident

set_option autoImplicit false

namespace TrackedGraph

/-- Why an operation is refused. -/
inductive Fault where
  /-- A recording that is running is asked to start. -/
  | alreadyRunning
  /-- There is no recording to stop, reduce or revert. -/
  | notRunning
  /-- A read-only property of a tracked node is written. -/
  | readOnly (typeName property : String)
  /-- A recording that is running is asked to revert. -/
  | mustStopFirst
  /-- The node is not in the forest. -/
  | noNode (node : NodeId)
  /-- The schema declares no such type. -/
  | noType (name : String)
  /-- The type declares no such property. -/
  | noProperty (typeName property : String)
  /-- The value does not fit the property. -/
  | mismatch (property expected found : String)
  /-- A list operation meets a property that holds no list. -/
  | singleValued (property : String)
  /-- The position is not in the list. -/
  | outOfBounds (index length : Nat)
  /-- A node would come to contain itself. -/
  | circular (parent child : NodeId)
  /-- A member of mixed content is written as if it had a slot. -/
  | derived (property : String)
  /-- The declarations contradict each other. -/
  | flawedSchema (reason : String)
  /-- What was reverted is not what was there before. -/
  | inconsistent (detail : String)
  /-- A text is not of the expected form. -/
  | malformed
  /-- Anything else, in the words of whoever refused. -/
  | other (detail : String)
deriving DecidableEq, Inhabited

namespace Fault

/-- The wording of each cause. -/
def message : Fault → String
  | alreadyRunning => "Already logging"
  | notRunning => "Not currently logging"
  | readOnly t p => "The property '" ++ p ++ "' of type '" ++ t ++ "' is read only"
  | mustStopFirst => "Cannot apply changes while logging is active"
  | noNode n => "Node not found: " ++ n.label
  | noType name => "Unknown type: " ++ name
  | noProperty t p => "Unknown property '" ++ p ++ "' on type '" ++ t ++ "'"
  | mismatch p expected found =>
    "Type mismatch for property '" ++ p ++ "' - expected: " ++ expected ++ ", found: " ++ found
  | singleValued p => "Property '" ++ p ++ "' is not many-valued"
  | outOfBounds i n =>
    "Index " ++ toString i ++ " out of bounds for list of length " ++ toString n
  | circular parent child =>
    "Circular containment: " ++ child.label ++ " cannot be contained by " ++ parent.label
  | derived p =>
    "Property '" ++ p ++ "' is derived from mixed content and cannot be written directly"
  | flawedSchema reason => "Invalid schema: " ++ reason
  | inconsistent detail => "Undo left the graph inconsistent: " ++ detail
  | malformed => "JSON error"
  | other detail => "Internal error: " ++ detail

/-- The wording for the user of an application, with advice where there is any. -/
def advice : Fault → String
  | alreadyRunning =>
    "A change summary is already logging. Call 'end_logging()' before starting a new session."
  | notRunning => "No logging session is active. Call 'begin_logging()' first."
  | mustStopFirst =>
    "Changes cannot be applied while logging. Call 'end_logging()' first or use 'undo_changes()'."
  | inconsistent detail =>
    "Undo aborted with the graph in an undefined state (" ++ detail ++ "). Discard this graph."
  | fault => fault.message

/-- Whether the fault only breaks the contract of recording. -/
def isContractBreach : Fault → Bool
  | alreadyRunning | notRunning | readOnly .. | mustStopFirst => true
  | _ => false

/-- Whether the document has to be given up. -/
def isFatal : Fault → Bool
  | inconsistent _ | other _ => true
  | _ => false

end Fault

end TrackedGraph
