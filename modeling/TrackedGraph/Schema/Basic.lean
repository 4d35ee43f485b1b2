/-
Node types and their properties.

A `Property` is what somebody declares; a `Feature` is that declaration together
with what its names stand for, the target type and the mixed content it is a
member of. A schema is built once from declarations and never changes, so every
other module works with features and looks nothing up by name.

The order of a type's properties is significant: a `PropertyId` is a position in
this table and, for every node of the type, the position of a slot.
-/
import TrackedGraph.Fault
import TrackedGraph.Value

set_option autoImplicit false

namespace TrackedGraph

/-- What a property relates its owner to. -/
inductive Role where
  /-- Scalar data. -/
  | attribute
  /-- An owning edge: the target becomes a child. -/
  | containment
  /-- An edge to any node, owning nothing. -/
  | reference
  /-- A sequence of entries of several member properties. -/
  | mixed
deriving DecidableEq, Inhabited

/-- Whether values in the role are node references. -/
def Role.refers : Role → Bool
  | containment | reference => true
  | _ => false

/-- The scalars an attribute takes. -/
inductive ScalarType where
  | string
  | int
  /-- Floating point; whole numbers will do. -/
  | float
  | bool
  /-- Any scalar. -/
  | any
deriving DecidableEq, Inhabited

namespace ScalarType

def keyword : ScalarType → String
  | string => "string"
  | int => "int"
  | float => "float"
  | bool => "bool"
  | any => "any"

def accepts : ScalarType → Value → Bool
  | string, .str _ => true
  | int, .int _ => true
  | float, .float _ => true
  | float, .int _ => true
  | bool, .bool _ => true
  | any, .str _ => true
  | any, .int _ => true
  | any, .float _ => true
  | any, .bool _ => true
  | _, _ => false

end ScalarType

/-- The declaration of one property. -/
structure Property where
  name : String
  role : Role
  /-- Whether the property holds a list. -/
  many : Bool := false
  /-- Whether writes are forbidden while the node is tracked. -/
  readOnly : Bool := false
  scalar : ScalarType := .any
  /-- The type that references must point to; any type if absent. -/
  targetName : Option String := none
  /-- What the property holds while it is unset, unless it is many-valued. -/
  default : Value := .null
  /-- The mixed content that the property is a member of, by name. -/
  memberOf : Option String := none
deriving Inhabited

namespace Property

def owns (p : Property) : Bool := p.role == .containment

def isMixed (p : Property) : Bool := p.role == .mixed

/-- What a slot of the property holds while it is unset. -/
def restValue (p : Property) : Value :=
  if p.isMixed then .mixed []
  else if p.many then .list []
  else p.default

end Property

/-- The declaration of one node type. -/
structure TypeDeclaration where
  name : String
  properties : List Property
deriving Inhabited

/-- A property of a built schema. -/
structure Feature extends Property where
  /-- The type that references must point to. -/
  target : Option TypeId := none
  /-- The mixed content that the property is a member of. -/
  owner : Option PropertyId := none
deriving Inhabited

/-- A node type of a built schema. -/
structure NodeType where
  name : String
  features : List Feature
  /-- The property that holds the type's mixed content. -/
  mixed : Option PropertyId := none
deriving Inhabited

/-- The position of a property in the table, by name. -/
def NodeType.propertyNamed? (t : NodeType) (name : String) : Option PropertyId :=
  (t.features.findIdx? (·.name == name)).map PropertyId.mk

/-- The node types that a forest may use. -/
structure Schema where
  types : List NodeType
deriving Inhabited

namespace Schema

/-- How a type that is not declared is written in messages. -/
def unknownLabel (t : TypeId) : String := "TypeId(" ++ toString t.index ++ ")"

def typeNamed (s : Schema) (name : String) : Except Fault TypeId :=
  match s.types.findIdx? (·.name == name) with
  | some i => .ok ⟨i⟩
  | none => .error (.noType name)

def nodeType (s : Schema) (t : TypeId) : Except Fault NodeType :=
  match s.types[t.index]? with
  | some type => .ok type
  | none => .error (.noType (unknownLabel t))

/-- The name of a type, for messages. -/
def nameOf (s : Schema) (t : TypeId) : String :=
  match s.types[t.index]? with
  | some type => type.name
  | none => "<unknown>"

def features (s : Schema) (t : TypeId) : Except Fault (List Feature) := do
  return (← s.nodeType t).features

def feature (s : Schema) (t : TypeId) (p : PropertyId) : Except Fault Feature := do
  let type ← s.nodeType t
  match type.features[p.index]? with
  | some f => return f
  | none => throw (.noProperty type.name (toString p.index))

def propertyNamed (s : Schema) (t : TypeId) (name : String) : Except Fault PropertyId := do
  let type ← s.nodeType t
  match type.propertyNamed? name with
  | some p => return p
  | none => throw (.noProperty type.name name)

/-- The property that holds the mixed content of a type. -/
def mixedOf? (s : Schema) (t : TypeId) : Option PropertyId := do
  (← s.types[t.index]?).mixed

/-- How a property is written in messages: its type, a point, its name or, if
there is no such property, its number. -/
def label (s : Schema) (t : TypeId) (p : PropertyId) : String :=
  let property := match s.feature t p with
    | .ok f => f.name
    | .error _ => toString p.index
  s.nameOf t ++ "." ++ property

end Schema

end TrackedGraph
