/-
Mixed content: one ordered sequence in which the entries of several members are
interleaved.

A member keeps nothing in its own slot. What it holds is read off the sequence, by
`ofMember`, so the sequence is the only place where the order across members is
kept and no two views of it can disagree.
-/
import TrackedGraph.FirstSeen
import TrackedGraph.Value

set_option autoImplicit false

namespace TrackedGraph

/-- Entries in order. -/
abbrev MixedContent := List (Entry Value)

namespace MixedContent

/-- The property of the entry at a position. -/
def property? (content : MixedContent) (i : Nat) : Option PropertyId := content[i]?.map (·.property)

/-- The value of the entry at a position. -/
def value? (content : MixedContent) (i : Nat) : Option Value := content[i]?.map (·.value)

/-- The values of one member, in order. -/
def ofMember (content : MixedContent) (p : PropertyId) : List Value :=
  (content.filter (·.property == p)).map (·.value)

/-- The members that occur, in order of first appearance. -/
def members (content : MixedContent) : List PropertyId :=
  FirstSeen.ofList (content.map (·.property))

/-- Mixed content as the contents of a slot. -/
def toValue (content : MixedContent) : Value := .mixed content

end MixedContent

end TrackedGraph
