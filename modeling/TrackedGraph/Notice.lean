/-
A change of one property of one node, described before it takes effect.

Observers judge and follow changes by these descriptions alone. What `before` and
`after` hold depends on the kind: the whole value for `set` and `unset`, the item
for `add` and `remove`, and for `move` the item with the position it leaves.
-/
import TrackedGraph.Value

set_option autoImplicit false

namespace TrackedGraph

/-- The kinds of change. -/
inductive Notice.Kind where
  /-- The whole value is replaced. -/
  | set
  /-- The default comes back and the property counts as unset. -/
  | unset
  /-- An item enters a list or mixed content. -/
  | add
  /-- An item leaves a list or mixed content. -/
  | remove
  /-- An item changes its position in a list. -/
  | move
deriving DecidableEq, Inhabited

/-- The description of a change that has not happened yet. -/
structure Notice where
  node : NodeId
  property : PropertyId
  kind : Notice.Kind
  /-- The value that goes; for a move, the position the item leaves. -/
  before : Value
  /-- The value that comes. -/
  after : Value
  /-- Where in the list, for the kinds that concern one item. -/
  position : Option Nat
  /-- Whether the property is set at this moment. -/
  wasSet : Bool
deriving DecidableEq, Inhabited

end TrackedGraph
