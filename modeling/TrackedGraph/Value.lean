/-
What a slot can hold.

A value is a scalar, a reference to a node, a list, or mixed content: entries in
order, each tagged with the property it belongs to. Two comparisons are needed
and they differ. `Value.agrees` is the equality of the domain, numeric on
floating point, so that a NaN agrees with nothing and the zeros with each other.
Equality of representations is Lean's own `=`, decided by `Value.identical`. Both
are one recursion, `Value.agreesBy`, at two comparisons of numbers.
-/
import TrackedGraph.Binary64
import TrackedGraph.Ident

set_option autoImplicit false

namespace TrackedGraph

/-- One item of mixed content: a value and the property it belongs to. -/
structure Entry (α : Type) where
  property : PropertyId
  value : α
deriving DecidableEq, Inhabited

/-- The contents of a slot. -/
inductive Value where
  | null
  | bool (b : Bool)
  | int (i : Int)
  | float (x : Binary64)
  | str (s : String)
  | node (n : NodeId)
  | list (items : List Value)
  | mixed (entries : List (Entry Value))
deriving Inhabited

namespace Value

/-! ## Parts -/

def isNull : Value → Bool
  | null => true
  | _ => false

def node? : Value → Option NodeId
  | node n => some n
  | _ => none

def str? : Value → Option String
  | str s => some s
  | _ => none

def int? : Value → Option Int
  | int i => some i
  | _ => none

def list? : Value → Option (List Value)
  | list items => some items
  | _ => none

def mixed? : Value → Option (List (Entry Value))
  | mixed entries => some entries
  | _ => none

/-- The entries of mixed content, none for any other value. -/
def entries (v : Value) : List (Entry Value) := v.mixed?.getD []

/-- Every node the value refers to, in order, one level deep. -/
def nodes : Value → List NodeId
  | node n => [n]
  | list items => items.filterMap node?
  | mixed entries => entries.filterMap (·.value.node?)
  | _ => []

/-- The number of items of a list or of mixed content; one for a present scalar. -/
def size : Value → Nat
  | null => 0
  | list items => items.length
  | mixed entries => entries.length
  | _ => 1

def isEmpty (v : Value) : Bool := v.size == 0

/-- The kind of a value, as messages name it. -/
def kind : Value → String
  | null => "null"
  | bool _ => "bool"
  | int _ => "int"
  | float _ => "float"
  | str _ => "string"
  | node _ => "node"
  | list _ => "list"
  | mixed _ => "mixed"

/-! ## Comparison -/

mutual

/-- Same shape and same leaves, numbers being compared by `same`. -/
def agreesBy (same : Binary64 → Binary64 → Bool) : Value → Value → Bool
  | null, null => true
  | bool a, bool b => a == b
  | int a, int b => a == b
  | float a, float b => same a b
  | str a, str b => a == b
  | node a, node b => a == b
  | list a, list b => agreesItemsBy same a b
  | mixed a, mixed b => agreesEntriesBy same a b
  | _, _ => false

def agreesItemsBy (same : Binary64 → Binary64 → Bool) : List Value → List Value → Bool
  | [], [] => true
  | a :: as, b :: bs => agreesBy same a b && agreesItemsBy same as bs
  | _, _ => false

def agreesEntriesBy (same : Binary64 → Binary64 → Bool) :
    List (Entry Value) → List (Entry Value) → Bool
  | [], [] => true
  | ⟨p, a⟩ :: as, ⟨q, b⟩ :: bs => p == q && agreesBy same a b && agreesEntriesBy same as bs
  | _, _ => false

end

/-- Equality of the domain: numeric on floating point, exact elsewhere. -/
def agrees : Value → Value → Bool := agreesBy Binary64.equals

/-- Equality of representations, as a test. -/
def identical : Value → Value → Bool := agreesBy (· == ·)

mutual

/-- **`identical` decides equality.** -/
theorem identical_iff_eq (a b : Value) : agreesBy (· == ·) a b = true ↔ a = b := by
  cases a <;> cases b <;>
    simp [agreesBy, identicalItems_iff_eq, identicalEntries_iff_eq]

theorem identicalItems_iff_eq (as bs : List Value) :
    agreesItemsBy (· == ·) as bs = true ↔ as = bs := by
  cases as with
  | nil => cases bs <;> simp [agreesItemsBy]
  | cons a as =>
    cases bs with
    | nil => simp [agreesItemsBy]
    | cons b bs => simp [agreesItemsBy, identical_iff_eq a b, identicalItems_iff_eq as bs]

theorem identicalEntries_iff_eq (as bs : List (Entry Value)) :
    agreesEntriesBy (· == ·) as bs = true ↔ as = bs := by
  cases as with
  | nil => cases bs <;> simp [agreesEntriesBy]
  | cons a as =>
    cases bs with
    | nil => simp [agreesEntriesBy]
    | cons b bs =>
      obtain ⟨p, x⟩ := a
      obtain ⟨q, y⟩ := b
      simp [agreesEntriesBy, identical_iff_eq x y, identicalEntries_iff_eq as bs]

end

instance : DecidableEq Value := fun a b =>
  decidable_of_iff (identical a b = true) (identical_iff_eq a b)

end Value

end TrackedGraph
