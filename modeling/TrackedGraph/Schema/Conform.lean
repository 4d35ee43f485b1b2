/-
Whether a value fits a property, as far as the schema alone can tell.

`Schema.conformSlot` judges a whole slot, `Schema.conformItem` one item and
`Schema.conformEntry` one entry of mixed content. A reference is judged by its
shape: which type its node has is known to the forest only, and
`Schema.mayPointTo` is there for it to ask.
-/
import TrackedGraph.Schema.Basic

set_option autoImplicit false

namespace TrackedGraph.Schema

/-- Whether an item is of the kind that the property takes. -/
def itemFits (f : Feature) (v : Value) : Bool :=
  match f.role with
  | .attribute => f.scalar.accepts v
  | .containment | .reference => v.node?.isSome
  | .mixed => false

/-- What a property takes, for messages. -/
def expectedItem (f : Feature) : String :=
  match f.role with
  | .attribute => f.scalar.keyword
  | .containment | .reference => "node"
  | .mixed => "mixed entry"

/-- One item of a list, or a single value. -/
def conformItem (s : Schema) (t : TypeId) (p : PropertyId) (v : Value) : Except Fault Unit := do
  let f ← s.feature t p
  if itemFits f v then return ()
  else throw (.mismatch (s.label t p) (expectedItem f) v.kind)

/-- One entry of the mixed content `mixed`, for the property `member`. -/
def conformEntry (s : Schema) (t : TypeId) (mixed member : PropertyId) (v : Value) :
    Except Fault Unit := do
  let f ← s.feature t member
  if f.owner != some mixed then
    throw (.mismatch (s.label t mixed) "member of this mixed property" (s.label t member))
  s.conformItem t member v

/-- The value of a whole slot. -/
def conformSlot (s : Schema) (t : TypeId) (p : PropertyId) (v : Value) : Except Fault Unit := do
  let f ← s.feature t p
  if f.owner.isSome then throw (.derived (s.label t p))
  if f.isMixed then
    match v with
    | .mixed entries => entries.forM fun e => s.conformEntry t p e.property e.value
    | other => throw (.mismatch (s.label t p) "mixed" other.kind)
  else if f.many then
    match v with
    | .list items => items.forM (s.conformItem t p)
    | other => throw (.mismatch (s.label t p) "list" other.kind)
  else if v.isNull then return ()
  else s.conformItem t p v

/-- Whether a reference from the property may point to a node of type `actual`. -/
def mayPointTo (s : Schema) (t : TypeId) (p : PropertyId) (actual : TypeId) :
    Except Fault Bool := do
  let f ← s.feature t p
  return f.target.all (· == actual)

end TrackedGraph.Schema
