/-
The steps of a scenario, and what they are answered with.

A scenario drives one document with several recordings, with scripts in the
audience and with logs, which are journals that a recorder writes without any
session. A command says what one step does. Most replies are plain values of the
library; the two reports bring together what can be asked about a recording or a
log at one moment.
-/
import TrackedGraph.Document.Mutation
import TrackedGraph.Recording
import TrackedGraph.Scenario.Script

set_option autoImplicit false

namespace TrackedGraph.Scenario

/-- A question about the document. -/
inductive Query where
  | get (n : NodeId) (p : PropertyId)
  | isSet (n : NodeId) (p : PropertyId)
  | slot (n : NodeId) (p : PropertyId)
  | mixedContent (n : NodeId)
  | sequence (n : NodeId) (p : PropertyId)
  | property (p : PropertyId)
  | feature (n : NodeId) (p : PropertyId)
  | typeOf (n : NodeId)
  | place (n : NodeId)
  | children (n : NodeId)
  | contents (n : NodeId)
  | isInTree (n : NodeId)
  | isWithin (n root : NodeId)
  | isWithinAny (n : NodeId) (roots : List NodeId)
  | overview (n : NodeId)

/-- A question about a recording. -/
inductive Inspection where
  | state
  | classify (n : NodeId)
  | created
  | deleted
  | changed
  | priorStates (n : NodeId)
  | priorState (n : NodeId) (p : PropertyId)
  | priorContent (n : NodeId)
  | priorContainer (n : NodeId)
  | priorProperty (n : NodeId)
  | tally
  | report

/-- What one step does. -/
inductive Command where
  | mutate (m : Mutation)
  | query (q : Query)
  | register (b : Script.Behaviour)
  | unregister (o : ObserverId)
  | subscribe (o : ObserverId) (n : NodeId)
  | unsubscribe (o : ObserverId) (n : NodeId)
  /-- Whether an observer is subscribed to a node, and to how many it is. -/
  | subscription (o : ObserverId) (n : NodeId)
  /-- The nodes that an observer is subscribed to. -/
  | subscribed (o : ObserverId)
  /-- A call on the recording of the given number. -/
  | call (recording : Nat) (c : Recording.Call)
  | inspect (recording : Nat) (i : Inspection)
  /-- Opens a log. If it is unheeded, its recorder is never asked about a change,
  and so never records one that it is told of. -/
  | openLog (strict unheeded : Bool)
  | reduceLog (log : Nat) (prune : Bool)
  | reportLog (log : Nat)

/-- What a recording says about one node. -/
structure NodeReport where
  node : NodeId
  isCreated : Bool
  isDeleted : Bool
  isModified : Bool
  priorStates : Except Fault (List PriorState)
  priorPlace : Except Fault (Option Place)
  priorContent : Except Fault (Option MixedContent)

/-- What a recording says at one moment. -/
structure Report where
  policy : Policy
  isRunning : Bool
  isSuspended : Bool
  /-- The session, by the order in which sessions were first shown. -/
  session : Option Nat
  created : List NodeId
  deleted : List NodeId
  changed : List NodeId
  tally : Tally
  nodes : List NodeReport

/-- What a log says about one node. -/
structure LogNodeReport where
  node : NodeId
  records : List PriorState
  earliest : List PriorState
  priorStates : Except Fault (List PriorState)
  isCreated : Bool
  wasInitial : Bool

/-- What a log says at one moment. -/
structure LogReport where
  isRecording : Bool
  hasSession : Bool
  isSuspended : Bool
  revision : Nat
  roots : List NodeId
  touched : List NodeId
  entered : List NodeId
  left : List NodeId
  created : List NodeId
  deleted : List NodeId
  changed : List NodeId
  tally : Tally
  /-- The prior places, by ascending node. -/
  priorPlaces : Except Fault (List (NodeId × Place))
  nodes : List LogNodeReport

/-- What a step is answered with. -/
inductive Reply where
  | done
  | flag (b : Bool)
  | node (n : NodeId)
  | type (t : TypeId)
  | property (p : PropertyId)
  | observer (o : ObserverId)
  | name (s : Option String)
  | value (v : Value)
  | entry (e : Entry Value)
  | slot (s : Slot)
  | mixedContent (c : Option MixedContent)
  | feature (f : Feature)
  | place (p : Option Place)
  | container (n : Option NodeId)
  | containment (p : Option PropertyId)
  | nodes (ns : List NodeId)
  | overview (root : NodeId) (size : Nat) (isEmpty contains : Bool) (types : Nat)
  | subscription (isSubscribed : Bool) (count : Nat)
  | reduced (c : Reduction)
  | reverted (session : Option Nat) (r : Revert.Report)
  | state (isRunning isSuspended : Bool) (session : Option Nat)
  | classified (isCreated isDeleted isModified : Bool)
  | priorState (r : Option PriorState)
  | priorStates (rs : List PriorState)
  | tally (s : Tally)
  | report (r : Report)
  | logReport (r : LogReport)

/-- A property by its number, or by its name on the node that a step is about. -/
inductive PropertyRef where
  | id (p : PropertyId)
  | named (name : String)

/-- One step. The property is looked up before anything else is done. -/
structure Step where
  node : NodeId
  property : PropertyRef
  command : PropertyId → Command

/-- What a step is answered with, and what it left behind. -/
structure Answer where
  outcome : Except Fault Reply
  generation : Nat
  /-- What the scripts were asked and told meanwhile. -/
  events : List Script.Event
  /-- The nodes that are new or not as they were after the step before. -/
  changes : List (NodeId × Node)

end TrackedGraph.Scenario
