/-
Containment: what a value owns, what a node contains, what contains a node.

Downward the tree is read off the slots and upward off the places. Neither direction
relies on the other, and the two may disagree where a default lists a child.

Both walks are loops without a bound. Downward a loop goes on for ever where a node
lists itself or is listed below itself, and upward where a node sits below itself,
unless what is looked for is met. Here the walks are recursions on a number of
steps: no walk that ends takes more steps than there are nodes, and where the steps
run out the walk does not return (`endless`).
-/
import TrackedGraph.FirstSeen
import TrackedGraph.Forest.Basic

set_option autoImplicit false

namespace TrackedGraph.Forest

/-- The nodes that a value would make children of `n` through the property `p`. -/
def owned (f : Forest) (n : NodeId) (p : PropertyId) (v : Value) : Except Fault (List NodeId) := do
  let t ← f.typeOf n
  let feature ← f.schema.feature t p
  match feature.role with
  | .containment => return v.nodes
  | .mixed =>
    let children ← v.entries.mapM fun e => do
      let member ← f.schema.feature t e.property
      return if member.owns then e.value.node? else none
    return children.filterMap id
  | _ => return []

/-! ## Walks that do not end -/

/-- Goes on for ever. This is what is left of a walk that has taken more steps than there are
nodes: it goes round a circle, the loop that it stands for never returns, and so does not this. In
the logic it is `none`. -/
def endless (f : Forest) (n : NodeId) : Option NodeId := f.endless n
partial_fixpoint

/-! ## Downward -/

/-- The children that one slot lists. Members of mixed content are listed by the
sequence that owns them. -/
def childrenIn (features : List Feature) (feature : Feature) (slot : Slot) : List NodeId :=
  match feature.role with
  | .containment => if feature.owner.isNone then slot.value.nodes else []
  | .mixed => slot.value.entries.filterMap fun e =>
      if (features[e.property.index]?).any (·.owns) then e.value.node? else none
  | _ => []

/-- The children of a node, in the order of its properties. -/
def children (f : Forest) (n : NodeId) : List NodeId :=
  match f.nodes[n.index]? with
  | none => []
  | some node =>
    match f.schema.features node.type with
    | .error _ => []
    | .ok features =>
      (features.zip node.slots).flatMap fun (feature, slot) => childrenIn features feature slot

/-- A node before what it contains, down to a depth that no walk comes to unless it goes round a
circle. A node that is listed but does not exist has nothing below it. -/
def preorder (f : Forest) : (depth : Nat) → NodeId → List NodeId
  | 0, n => [if f.contains n then (f.endless n).getD n else n]
  | depth + 1, n => n :: (f.children n).flatMap (f.preorder depth)

/-- **The contents of a node**: itself and everything below it, in pre-order;
nothing if there is no such node. The loop that this stands for has no bound: where a node is below
itself it does not return, and what the list says of such a forest is said of no run. -/
def contents (f : Forest) (n : NodeId) : List NodeId :=
  if f.contains n then f.preorder f.nodes.length n else []

/-- The contents of several nodes, each node once. -/
def closure (f : Forest) (roots : List NodeId) : List NodeId :=
  FirstSeen.ofList (roots.flatMap f.contents)

/-! ## Upward -/

/-- Whether a climb from a node meets what is looked for. A climb that takes all its steps goes
round a circle. -/
def meets (f : Forest) (goal : NodeId → Bool) : (steps : Nat) → NodeId → Bool
  | 0, n => (f.endless n).isSome
  | steps + 1, n => goal n || match f.place? n with
    | some place => f.meets goal steps place.container
    | none => false

/-- Whether a node is the root given or sits below it. The loop that this stands for has no bound:
from a node below a circle of containers it returns only if the root is met. -/
def isWithin (f : Forest) (n root : NodeId) : Bool := f.meets (· == root) (f.nodes.length + 1) n

/-- Whether a node is one of the roots or sits below one. As with one root, this returns from a
node below a circle of containers only if a root is met. -/
def isWithinAny (f : Forest) (n : NodeId) (roots : List NodeId) : Bool :=
  f.meets roots.contains (f.nodes.length + 1) n

end TrackedGraph.Forest
