/-
From declarations to a schema.

Building has two halves that know nothing of each other. `Schema.validate` finds
the first flaw: names of types first, over all declarations, then each type in
order, its properties one by one and its memberships last. `Schema.resolve` is
total and replaces names by positions. A flaw is reported before anything is
resolved, so on valid declarations each name that is looked up is there.
-/
import TrackedGraph.Schema.Basic

set_option autoImplicit false

namespace TrackedGraph

namespace TypeDeclaration

/-- The position of the first property that declares mixed content. -/
def mixed? (d : TypeDeclaration) : Option PropertyId :=
  (d.properties.findIdx? (·.isMixed)).map PropertyId.mk

/-- The name of the first property that declares mixed content. -/
def mixedName? (d : TypeDeclaration) : Option String :=
  (d.properties.find? (·.isMixed)).map (·.name)

end TypeDeclaration

namespace Schema

/-- What declarations can get wrong. -/
inductive Flaw where
  | repeatedType (typeName : String)
  | repeatedProperty (typeName property : String)
  | secondMixed (typeName : String)
  | unknownTarget (typeName property target : String)
  | invalidMember (typeName property owner : String)
deriving DecidableEq, Inhabited

def Flaw.message : Flaw → String
  | repeatedType t => "duplicate type '" ++ t ++ "'"
  | repeatedProperty t p => "duplicate property '" ++ p ++ "' on type '" ++ t ++ "'"
  | secondMixed t => "type '" ++ t ++ "' declares more than one mixed-content property"
  | unknownTarget t p target =>
    "property '" ++ t ++ "." ++ p ++ "' references unknown type '" ++ target ++ "'"
  | invalidMember t p owner =>
    "property '" ++ t ++ "." ++ p ++ "' is not a valid member of mixed property '" ++ owner ++ "'"

/-! ## Flaws -/

/-- No type name occurs twice. -/
def validateNames : (earlier : List String) → List TypeDeclaration → Except Flaw Unit
  | _, [] => .ok ()
  | earlier, d :: rest =>
    if d.name ∈ earlier then .error (.repeatedType d.name)
    else validateNames (d.name :: earlier) rest

/-- One property beside those declared before it. -/
def validateProperty (types : List String) (d : TypeDeclaration) (earlier : List Property)
    (p : Property) : Except Flaw Unit :=
  if earlier.any (·.name == p.name) then .error (.repeatedProperty d.name p.name)
  else if p.isMixed && earlier.any (·.isMixed) then .error (.secondMixed d.name)
  else match p.targetName with
    | some target =>
      if p.role.refers && !types.contains target then
        .error (.unknownTarget d.name p.name target)
      else .ok ()
    | none => .ok ()

def validateProperties (types : List String) (d : TypeDeclaration) :
    (earlier : List Property) → List Property → Except Flaw Unit
  | _, [] => .ok ()
  | earlier, p :: rest => do
    validateProperty types d earlier p
    validateProperties types d (p :: earlier) rest

/-- A member names the mixed content of its own type and is not mixed content itself. -/
def validateMember (d : TypeDeclaration) (p : Property) : Except Flaw Unit :=
  match p.memberOf with
  | none => .ok ()
  | some owner =>
    if d.mixedName? == some owner && !p.isMixed then .ok ()
    else .error (.invalidMember d.name p.name owner)

def validateType (types : List String) (d : TypeDeclaration) : Except Flaw Unit := do
  validateProperties types d [] d.properties
  d.properties.forM (validateMember d)

/-- Finds the first flaw. -/
def validate (declarations : List TypeDeclaration) : Except Flaw Unit := do
  validateNames [] declarations
  declarations.forM (validateType (declarations.map (·.name)))

/-! ## Positions for names -/

/-- The feature that a declaration stands for. Mixed content is many-valued
whatever the declaration says. -/
def resolveProperty (declarations : List TypeDeclaration) (d : TypeDeclaration)
    (p : Property) : Feature :=
  { toProperty := { p with many := p.many || p.isMixed }
    target := do
      let name ← p.targetName
      if p.role.refers then
        (declarations.findIdx? (·.name == name)).map TypeId.mk
      else none
    owner := do
      let _ ← p.memberOf
      d.mixed? }

def resolveType (declarations : List TypeDeclaration) (d : TypeDeclaration) : NodeType :=
  { name := d.name
    features := d.properties.map (resolveProperty declarations d)
    mixed := d.mixed? }

def resolve (declarations : List TypeDeclaration) : Schema :=
  ⟨declarations.map (resolveType declarations)⟩

/-- **Building a schema**: the first flaw, or the resolved declarations. -/
def build (declarations : List TypeDeclaration) : Except Fault Schema :=
  match validate declarations with
  | .ok () => .ok (resolve declarations)
  | .error flaw => .error (.flawedSchema flaw.message)

end Schema

end TrackedGraph
