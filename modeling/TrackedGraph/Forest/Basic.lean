/-
The forest: every node ever created, with its slots and its place.

Nodes are never freed, so a node that has left the tree can still be looked at
and put back. A node knows at most one place, the container and the property that
hold it; that the container's slot lists it in turn is not part of the type, since
defaults of a schema can break the agreement and edits then have to live with it.

The members of mixed content have slots too, to keep positions aligned with the
schema, but these stay empty: `get` reads a member off the sequence that owns it.
-/
import TrackedGraph.MixedContent
import TrackedGraph.Schema.Basic

set_option autoImplicit false

namespace TrackedGraph

/-- The contents of one property of one node. -/
structure Slot where
  value : Value
  isSet : Bool
deriving DecidableEq, Inhabited

/-- Where a contained node sits: in which node, under which property. -/
structure Place where
  container : NodeId
  property : PropertyId
deriving DecidableEq, Inhabited

structure Node where
  type : TypeId
  slots : List Slot
  place : Option Place
deriving DecidableEq, Inhabited

/-- Every node ever created, in order of creation. -/
structure Forest where
  schema : Schema
  nodes : List Node
deriving Inhabited

namespace Forest

def empty (schema : Schema) : Forest := ⟨schema, []⟩

/-! ## Looking up -/

def contains (f : Forest) (n : NodeId) : Bool := n.index < f.nodes.length

/-- The nodes of the forest, in order of creation. -/
def ids (f : Forest) : List NodeId := (List.range f.nodes.length).map NodeId.mk

def node (f : Forest) (n : NodeId) : Except Fault Node :=
  match f.nodes[n.index]? with
  | some node => .ok node
  | none => .error (.noNode n)

def typeOf (f : Forest) (n : NodeId) : Except Fault TypeId := do
  return (← f.node n).type

def feature (f : Forest) (n : NodeId) (p : PropertyId) : Except Fault Feature := do
  f.schema.feature (← f.typeOf n) p

def propertyNamed (f : Forest) (n : NodeId) (name : String) : Except Fault PropertyId := do
  f.schema.propertyNamed (← f.typeOf n) name

/-- How a property of a node is written in messages. -/
def label (f : Forest) (n : NodeId) (p : PropertyId) : Except Fault String := do
  return f.schema.label (← f.typeOf n) p

/-- The slot itself, which for a member of mixed content is always empty. -/
def slot (f : Forest) (n : NodeId) (p : PropertyId) : Except Fault Slot := do
  let node ← f.node n
  match node.slots[p.index]? with
  | some slot => return slot
  | none => throw (.noProperty (f.schema.nameOf node.type) (toString p.index))

/-- Where the node sits, if it sits anywhere. -/
def place? (f : Forest) (n : NodeId) : Option Place := do
  (← f.nodes[n.index]?).place

/-! ## Reading properties -/

/-- The mixed content that a slot holds. -/
def sequence (f : Forest) (n : NodeId) (p : PropertyId) : Except Fault MixedContent := do
  match (← f.slot n p).value with
  | .mixed entries => return entries
  | other => throw (.mismatch (← f.label n p) "mixed" other.kind)

/-- The mixed content of a node, if its type has any. -/
def mixedContent (f : Forest) (n : NodeId) : Except Fault (Option MixedContent) := do
  match f.schema.mixedOf? (← f.typeOf n) with
  | some mixed => return some (← f.sequence n mixed)
  | none => return none

/-- What a member of mixed content holds, given the sequence: all its values if
it is many-valued, else the first one or the default. -/
def memberValue (feature : Feature) (p : PropertyId) (c : MixedContent) : Value :=
  let values := c.ofMember p
  if feature.many then .list values else values.head?.getD feature.default

/-- The value of a property. -/
def get (f : Forest) (n : NodeId) (p : PropertyId) : Except Fault Value := do
  let feature ← f.feature n p
  match feature.owner with
  | some mixed => return memberValue feature p (← f.sequence n mixed)
  | none => return (← f.slot n p).value

/-- Whether a property is set; a member of mixed content is if it has an entry. -/
def isSet (f : Forest) (n : NodeId) (p : PropertyId) : Except Fault Bool := do
  let feature ← f.feature n p
  match feature.owner with
  | some mixed => return (← f.sequence n mixed).any (·.property == p)
  | none => return (← f.slot n p).isSet

/-! ## Writing -/

/-- A slot as it is in a new node. Nodes that a default names are not linked. -/
def freshSlot (feature : Feature) : Slot :=
  ⟨if feature.owner.isSome then .null else feature.restValue, false⟩

/-- Adds a node that sits nowhere and has nothing set. -/
def create (f : Forest) (t : TypeId) : Except Fault (NodeId × Forest) := do
  let features ← f.schema.features t
  let node : Node := ⟨t, features.map freshSlot, none⟩
  return (⟨f.nodes.length⟩, { f with nodes := f.nodes ++ [node] })

/-- Replaces a node. -/
def modifyNode (f : Forest) (n : NodeId) (g : Node → Node) : Forest :=
  { f with nodes := f.nodes.modify n.index g }

/-- Changes where a node sits, without regard to any slot. -/
def setPlace (f : Forest) (n : NodeId) (place : Option Place) : Forest :=
  f.modifyNode n fun node => { node with place }

/-- Changes what a slot holds, without regard to any place. -/
def setSlot (f : Forest) (n : NodeId) (p : PropertyId) (slot : Slot) : Forest :=
  f.modifyNode n fun node => { node with slots := node.slots.set p.index slot }

end Forest

end TrackedGraph
