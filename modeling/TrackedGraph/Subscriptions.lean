/-
Who observes what.

Subscriptions are pairs of a node and an observer in the order in which they were
made, and a pair occurs once. Both sides are plain numbers here: nothing asks
whether the node or the observer exists, so a subscription can be made first and
the observer come later.
-/
import TrackedGraph.Ident

set_option autoImplicit false

namespace TrackedGraph

/-- Pairs of a node and an observer, in the order in which they were made. -/
structure Subscriptions where
  pairs : List (NodeId × ObserverId) := []
deriving DecidableEq, Inhabited

/-- What an observer may do to its own subscriptions. -/
inductive SubscriptionChange where
  | subscribe (n : NodeId)
  | unsubscribe (n : NodeId)
deriving DecidableEq

namespace Subscriptions

def has (s : Subscriptions) (o : ObserverId) (n : NodeId) : Bool :=
  s.pairs.contains (n, o)

/-- The observers of a node, in the order in which they subscribed. -/
def observers (s : Subscriptions) (n : NodeId) : List ObserverId :=
  (s.pairs.filter (·.1 == n)).map (·.2)

/-- The number of nodes that an observer is subscribed to. -/
def count (s : Subscriptions) (o : ObserverId) : Nat :=
  s.pairs.countP (·.2 == o)

/-- Subscribes. Tells whether that is new. -/
def subscribe (s : Subscriptions) (o : ObserverId) (n : NodeId) : Bool × Subscriptions :=
  if s.has o n then (false, s) else (true, ⟨s.pairs ++ [(n, o)]⟩)

/-- Unsubscribes. Tells whether there was a subscription. -/
def unsubscribe (s : Subscriptions) (o : ObserverId) (n : NodeId) : Bool × Subscriptions :=
  (s.has o n, ⟨s.pairs.filter (· != (n, o))⟩)

/-- Drops every subscription of an observer. Tells how many there were. -/
def drop (s : Subscriptions) (o : ObserverId) : Nat × Subscriptions :=
  (s.count o, ⟨s.pairs.filter (·.2 != o)⟩)

/-- Makes one change on behalf of an observer. -/
def change (s : Subscriptions) (o : ObserverId) : SubscriptionChange → Subscriptions
  | .subscribe n => (s.subscribe o n).2
  | .unsubscribe n => (s.unsubscribe o n).2

/-- Makes changes in order on behalf of an observer. -/
def changeAll (s : Subscriptions) (o : ObserverId) (changes : List SubscriptionChange) :
    Subscriptions :=
  changes.foldl (fun s c => s.change o c) s

end Subscriptions

end TrackedGraph
