/-
Edits as data.

A `Mutation` names one edit with its arguments, so that histories of a document
can be written down as lists.
-/
import TrackedGraph.Document.Edit

set_option autoImplicit false

namespace TrackedGraph

/-- One edit with its arguments. -/
inductive Mutation where
  | create (typeName : String)
  | createOf (type : TypeId)
  | set (n : NodeId) (p : PropertyId) (v : Value)
  | unset (n : NodeId) (p : PropertyId)
  | add (n : NodeId) (p : PropertyId) (item : Value)
  | insert (n : NodeId) (p : PropertyId) (index : Nat) (item : Value)
  | remove (n : NodeId) (p : PropertyId) (index : Nat)
  | move (n : NodeId) (p : PropertyId) (source target : Nat)
  | addMixed (n : NodeId) (member : PropertyId) (v : Value)
  | insertMixed (n : NodeId) (index : Nat) (member : PropertyId) (v : Value)
  | removeMixed (n : NodeId) (index : Nat)
  | detach (n : NodeId)

namespace Mutation

/-- What an edit returns. -/
inductive Outcome where
  | done
  | created (n : NodeId)
  | removed (item : Value)
  | removedEntry (entry : Entry Value)

/-- Makes the edit. -/
def run {τ : Type} : Mutation → Edit τ Outcome
  | create typeName => do return .created (← Edit.create typeName)
  | createOf type => do return .created (← Edit.createOf type)
  | set n p v => do Edit.set n p v; return .done
  | unset n p => do Edit.unset n p; return .done
  | add n p item => do Edit.add n p item; return .done
  | insert n p index item => do Edit.insert n p index item; return .done
  | remove n p index => do return .removed (← Edit.remove n p index)
  | move n p source target => do Edit.move n p source target; return .done
  | addMixed n member v => do Edit.addMixed n member v; return .done
  | insertMixed n index member v => do Edit.insertMixed n index member v; return .done
  | removeMixed n index => do return .removedEntry (← Edit.removeMixed n index)
  | detach n => do Edit.detach n; return .done

end Mutation

end TrackedGraph
