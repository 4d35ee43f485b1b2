/-
Values, policies and schema documents in JSON texts.

Three conventions cover all of them. A *record* is an object, in which unknown
keys are ignored and known ones occur once, or an array of its fields in order,
from which trailing fields may be missing. A *choice* is an object with one key,
the name of the alternative, or that name alone where it carries nothing. A
missing field counts as its default where there is one.

Every array and object that is read takes one from a budget of levels. Parts that
are ignored cost nothing.
-/
import TrackedGraph.Policy
import TrackedGraph.Schema.Resolve
import TrackedGraph.Text.Json

set_option autoImplicit false

namespace TrackedGraph.Text

/-- The number of levels that a text may have. -/
def maxDepth : Nat := 127

namespace Json

/-! ## Scalars -/

def asBool? : Json → Option Bool
  | bool b => some b
  | _ => none

def asText? : Json → Option String
  | text s => s
  | _ => none

/-- A whole number of 64 bits with sign. -/
def asInt? : Json → Option Int
  | number n => do
    let i ← n.toInt?
    if i < (1 <<< 63 : Nat) then some i else none
  | _ => none

/-- A position: a whole number of 32 bits without sign. -/
def asIndex? : Json → Option Nat
  | number n => do
    let i ← n.toInt?
    if 0 ≤ i && i < (1 <<< 32 : Nat) then some i.toNat else none
  | _ => none

def asBinary64? : Json → Option Binary64
  | number n => n.toBinary64?
  | _ => none

/-- A text that may be null. -/
def asTextOrNull? : Json → Option (Option String)
  | null => some none
  | j => (asText? j).map some

/-! ## Records and choices -/

/-- Every key is a text, and no known key occurs twice. -/
def keysValid (known : List String) (keys : List (Option String)) : Bool :=
  keys.all Option.isSome && known.all fun k => keys.count (some k) ≤ 1

/-- The fields of a record in order, `none` where one is missing. -/
def asRecord? (names : List String) : Json → Option (List (Option Json))
  | object members =>
    if keysValid names (members.map (·.1)) then
      some (names.map fun name => (members.find? (·.1 == some name)).map (·.2))
    else none
  | array items =>
    if items.length ≤ names.length then
      some ((List.range names.length).map fun i => items[i]?)
    else none
  | _ => none

/-- The name of an alternative that carries nothing, alone or as a key with null.
The object takes a level. -/
def asKeyword? : (levels : Nat) → Json → Option String
  | _, text s => s
  | _ + 1, object [(some k, null)] => some k
  | _, _ => none

/-- A field that has to be there. -/
def required {α : Type} (read : Json → Option α) : Option Json → Option α
  | some j => read j
  | none => none

/-- A field with a default. -/
def optional {α : Type} (missing : α) (read : Json → Option α) : Option Json → Option α
  | some j => read j
  | none => some missing

end Json

open Json

/-! ## Values -/

/-- Reads a value within a number of levels. -/
def readValue : (levels : Nat) → Json → Option Value
  | _, .text s => if s == some "Null" then some .null else none
  | n + 1, .object [(some k, j)] =>
    match k with
    | "Null" => match j with
      | .null => some .null
      | _ => none
    | "Bool" => j.asBool?.map .bool
    | "Int" => j.asInt?.map .int
    | "Float" => j.asBinary64?.map .float
    | "Str" => j.asText?.map .str
    | "Node" => j.asIndex?.map fun i => .node ⟨i⟩
    | "List" => match n, j with
      | n + 1, .array items => (items.mapM (readValue n)).map .list
      | _, _ => none
    | "Mixed" => match n, j with
      | n + 2, .array items =>
        (items.mapM fun (item : Json) => do
          match ← item.asRecord? ["property", "value"] with
          | [property, value] =>
            let p ← required asIndex? property
            let v ← required (readValue n) value
            return (⟨⟨p⟩, v⟩ : Entry Value)
          | _ => none).map .mixed
      | 1, .array [] => some (.mixed [])
      | _, _ => none
    | _ => none
  | _, _ => none

/-- **A value in a text.** -/
def valueOfText (text : String) : Except Fault Value :=
  match parse? text >>= readValue maxDepth with
  | some v => .ok v
  | none => .error .malformed

/-! ## Policies -/

def readPolicy (j : Json) : Option Policy := do
  match ← j.asRecord? ["prune_unchanged", "verify_undo", "strict_read_only"] with
  | [prune, verify, strict] =>
    return {
      prune := ← required asBool? prune
      verify := ← required asBool? verify
      strict := ← required asBool? strict }
  | _ => none

/-- **A policy in a text**, in which all three choices are made. -/
def policyOfText (text : String) : Except Fault Policy :=
  match parse? text >>= readPolicy with
  | some p => .ok p
  | none => .error .malformed

/-! ## Schema documents -/

/-- The roles of properties, as documents name them. -/
def roleKeywords : List (String × Role) :=
  [("attribute", .attribute), ("containment_reference", .containment),
    ("non_containment_reference", .reference), ("mixed_content", .mixed)]

/-- The data types of attributes, as documents name them. -/
def scalarKeywords : List (String × ScalarType) :=
  [ScalarType.string, .int, .float, .bool, .any].map fun t => (t.keyword, t)

def readRole (levels : Nat) (j : Json) : Option Role := do
  roleKeywords.lookup (← j.asKeyword? levels)

def readScalar (levels : Nat) (j : Json) : Option ScalarType := do
  scalarKeywords.lookup (← j.asKeyword? levels)

/-- Reads a list within a number of levels, of which it takes one. -/
def readList {α : Type} (read : Nat → Json → Option α) : (levels : Nat) → Json → Option (List α)
  | n + 1, .array items => items.mapM (read n)
  | _, _ => none

def readProperty : (levels : Nat) → Json → Option Property
  | n + 1, j => do
    match ← j.asRecord? ["name", "kind", "many", "read_only", "data_type", "target_type",
        "default", "mixed_member_of"] with
    | [name, kind, many, readOnly, scalar, target, default, memberOf] =>
      return {
        name := ← required asText? name
        role := ← required (readRole n) kind
        many := ← optional false asBool? many
        readOnly := ← optional false asBool? readOnly
        scalar := ← optional .any (readScalar n) scalar
        targetName := ← optional none asTextOrNull? target
        default := ← optional .null (readValue n) default
        memberOf := ← optional none asTextOrNull? memberOf }
    | _ => none
  | _, _ => none

def readType : (levels : Nat) → Json → Option TypeDeclaration
  | n + 1, j => do
    match ← j.asRecord? ["name", "properties"] with
    | [name, properties] =>
      return {
        name := ← required asText? name
        properties := ← required (readList readProperty n) properties }
    | _ => none
  | _, _ => none

def readDeclarations : (levels : Nat) → Json → Option (List TypeDeclaration)
  | n + 1, j => do
    match ← j.asRecord? ["types"] with
    | [types] => required (readList readType n) types
    | _ => none
  | _, _ => none

/-- The schema that a document declares. -/
def schemaOfDocument (document : Json) : Except Fault Schema :=
  match readDeclarations maxDepth document with
  | some declarations => Schema.build declarations
  | none => .error .malformed

/-- **A schema in a text.** -/
def schemaOfText (text : String) : Except Fault Schema :=
  match parse? text with
  | some document => schemaOfDocument document
  | none => .error .malformed

end TrackedGraph.Text
