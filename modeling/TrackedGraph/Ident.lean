/-
The four identities of the library.

Each is a position in some table: a node in the forest, a type in the schema, a
property in its type's table, an observer among the seats of the audience. They
are separate types so that a property number is never read as a node number, and
they are compared by position alone: two nodes are the same node exactly when
their positions are equal, whatever their slots hold.
-/
set_option autoImplicit false

namespace TrackedGraph

/-- A node, by its position in the forest. -/
structure NodeId where
  index : Nat
deriving DecidableEq, Inhabited

/-- A node type, by its position in the schema. -/
structure TypeId where
  index : Nat
deriving DecidableEq, Inhabited

/-- A property, by its position in the table of the type that declares it. -/
structure PropertyId where
  index : Nat
deriving DecidableEq, Inhabited

/-- A registered observer, by the seat it takes. -/
structure ObserverId where
  index : Nat
deriving DecidableEq, Inhabited

/-- How a node is written in messages. -/
def NodeId.label (n : NodeId) : String := "#" ++ toString n.index

end TrackedGraph
