/-
Whether an edit may be made, as far as schema and forest can tell.

`Forest.admitValue`, `Forest.admitItem` and `Forest.admitEntry` are all that stands
before a replacement, an insertion into a list and an insertion into mixed content.
They read and do not write, and they return the nodes that would come in as
children. `Forest.whereabouts` says where a node sits, precisely enough to put it
back there.
-/
import TrackedGraph.Forest.Containment
import TrackedGraph.Schema.Conform

set_option autoImplicit false

namespace TrackedGraph

namespace Forest

/-! ## Parts of an admission -/

/-- A node that a property of the type `t` refers to exists and is of the right type. -/
def requireTarget (f : Forest) (t : TypeId) (p : PropertyId) (n : NodeId) : Except Fault Unit := do
  let actual ← f.typeOf n
  let feature ← f.schema.feature t p
  if ← f.schema.mayPointTo t p actual then return ()
  else throw (.mismatch (f.schema.label t p) (feature.targetName.getD "") (f.schema.nameOf actual))

/-- All nodes that a value refers to exist and are of the right type. In mixed
content each entry answers for the property it belongs to. -/
def requireTargets (f : Forest) (n : NodeId) (p : PropertyId) (v : Value) : Except Fault Unit := do
  let t ← f.typeOf n
  match v with
  | .mixed entries => entries.forM fun e =>
      match e.value.node? with
      | some target => f.requireTarget t e.property target
      | none => return ()
  | other =>
    let feature ← f.schema.feature t p
    if feature.role.refers then other.nodes.forM (f.requireTarget t p)
    else return ()

/-- No child occurs twice. -/
def requireDistinct (f : Forest) (n : NodeId) (p : PropertyId) :
    (earlier : List NodeId) → List NodeId → Except Fault Unit
  | _, [] => return ()
  | earlier, child :: rest => do
    if child ∈ earlier then
      throw (.mismatch (← f.label n p) "distinct children" (child.label ++ " twice"))
    f.requireDistinct n p (child :: earlier) rest

/-- The parent is neither the child nor below it. -/
def requireAcyclic (f : Forest) (parent child : NodeId) : Except Fault Unit :=
  if f.isWithin parent child then .error (.circular parent child) else .ok ()

/-- A child may come into the slot of `p`, in which it is not listed yet. -/
def requireNewcomer (f : Forest) (parent : NodeId) (p : PropertyId) (child : NodeId) :
    Except Fault Unit := do
  f.requireAcyclic parent child
  let slot ← f.slot parent p
  if slot.value.nodes.contains child then
    throw (.mismatch (← f.label parent p) "distinct children" (child.label ++ " already present"))

/-- The items of a many-valued property that has a slot of its own. -/
def itemsOf (f : Forest) (n : NodeId) (p : PropertyId) : Except Fault (List Value) := do
  let feature ← f.feature n p
  let label ← f.label n p
  if feature.owner.isSome then throw (.derived label)
  if !feature.many || feature.isMixed then throw (.singleValued label)
  match (← f.slot n p).value with
  | .list items => return items
  | other => throw (.mismatch label "list" other.kind)

/-- The mixed content that a property is a member of. -/
def sequenceOwner (f : Forest) (n : NodeId) (member : PropertyId) : Except Fault PropertyId := do
  let feature ← f.feature n member
  match feature.owner with
  | some mixed => return mixed
  | none => throw (.mismatch (← f.label n member) "mixed-content member" "plain property")

/-! ## Admissions -/

/-- **Admits a value** for a whole slot. Returns the children it would own. -/
def admitValue (f : Forest) (n : NodeId) (p : PropertyId) (v : Value) :
    Except Fault (List NodeId) := do
  f.schema.conformSlot (← f.typeOf n) p v
  f.requireTargets n p v
  let incoming ← f.owned n p v
  f.requireDistinct n p [] incoming
  incoming.forM (f.requireAcyclic n)
  return incoming

/-- **Admits an item** at a position of a list. Returns the child it would be. -/
def admitItem (f : Forest) (n : NodeId) (p : PropertyId) (index : Nat) (item : Value) :
    Except Fault (Option NodeId) := do
  let length := (← f.itemsOf n p).length
  if length < index then throw (.outOfBounds index length)
  f.schema.conformItem (← f.typeOf n) p item
  f.requireTargets n p item
  let incoming := if (← f.feature n p).owns then item.node? else none
  incoming.forM (f.requireNewcomer n p)
  return incoming

/-- **Admits an entry** at a position of mixed content. Returns the property that
holds the mixed content and the child that the entry would bring. -/
def admitEntry (f : Forest) (n : NodeId) (index : Nat) (member : PropertyId) (v : Value) :
    Except Fault (PropertyId × Option NodeId) := do
  let mixed ← f.sequenceOwner n member
  let length := (← f.sequence n mixed).length
  if length < index then throw (.outOfBounds index length)
  f.schema.conformEntry (← f.typeOf n) mixed member v
  f.requireTargets n member v
  let incoming := if (← f.feature n member).owns then v.node? else none
  incoming.forM (f.requireNewcomer n mixed)
  return (mixed, incoming)

end Forest

/-! ## Whereabouts -/

/-- How a place holds a child. -/
inductive Position where
  /-- As its only value. -/
  | single
  /-- At a position of a list. -/
  | listed (index : Nat)
  /-- At a position of mixed content. -/
  | mixed (index : Nat)
deriving DecidableEq

/-- Where a child sits, precisely enough to put it back. -/
structure Whereabouts where
  child : NodeId
  place : Place
  position : Position
deriving DecidableEq

namespace Forest

/-- Where a node sits, if it sits anywhere; a fault if its container does not list it. -/
def whereabouts (f : Forest) (n : NodeId) : Except Fault (Option Whereabouts) := do
  match f.place? n with
  | none => return none
  | some place =>
    let feature ← f.feature place.container place.property
    match feature.owner with
    | some mixed =>
      let entries ← f.sequence place.container mixed
      match entries.findIdx? fun e => e.property == place.property && e.value.node? == some n with
      | some i => return some ⟨n, place, .mixed i⟩
      | none => throw (.other (n.label ++ " missing from its mixed container"))
    | none =>
      if feature.many then
        let items ← f.itemsOf place.container place.property
        match items.findIdx? (·.node? == some n) with
        | some i => return some ⟨n, place, .listed i⟩
        | none => throw (.other (n.label ++ " missing from its container list"))
      else return some ⟨n, place, .single⟩

end Forest

end TrackedGraph
