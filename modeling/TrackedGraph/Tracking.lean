/-
How a journal follows a change.

Tracking one change is planned before it is carried out. `Tracking.plan` reads the
forest as it is before the change and either refuses, which vetoes the change, or
says which children leave and enter the tracked tree and what state the property
has. `Tracking.carryOut` then turns a plan into subscriptions and records. A
suspended journal records nothing, but its subscriptions follow the tree all the
same, so that they are right when it goes on.
-/
import TrackedGraph.Forest.Containment
import TrackedGraph.Journal.Basic
import TrackedGraph.Notice
import TrackedGraph.Subscriptions

set_option autoImplicit false

namespace TrackedGraph.Tracking

/-- What tracking a change comes to. -/
structure Plan where
  /-- The children that leave the tracked tree. -/
  leaving : List NodeId
  /-- The children that enter it. -/
  entering : List NodeId
  /-- The state of the property before the change. -/
  prior : Slot

/-- The children that leave and those that enter because of a change. -/
def movement (f : Forest) (n : Notice) : Except Fault (List NodeId × List NodeId) := do
  match n.kind with
  | .move => return ([], [])
  | .add => return ([], ← f.owned n.node n.property n.after)
  | .remove => return (← f.owned n.node n.property n.before, [])
  | .set | .unset =>
    let old ← f.owned n.node n.property n.before
    let new ← f.owned n.node n.property n.after
    return (old.filter (!new.contains ·), new.filter (!old.contains ·))

/-- **Plans a change**, or refuses it: where `strict`, read-only properties are not
to be written. -/
def plan (strict : Bool) (f : Forest) (n : Notice) : Except Fault Plan := do
  let t ← f.typeOf n.node
  let feature ← f.schema.feature t n.property
  if feature.readOnly && strict then
    throw (.readOnly (f.schema.nameOf t) feature.name)
  let (leaving, entering) ← movement f n
  return ⟨leaving, entering, ← f.slot n.node n.property⟩

/-- The subscriptions that a plan asks for: contents of what leaves are left, then
contents of what enters are joined. -/
def subscriptionChanges (f : Forest) (p : Plan) : List SubscriptionChange :=
  (p.leaving.flatMap f.contents).map .unsubscribe ++
    (p.entering.flatMap f.contents).map .subscribe

/-- The journal after a planned change, unless it is suspended. -/
def record (n : Notice) (p : Plan) (j : Journal) : Journal :=
  if j.suspended then j
  else
    let j := p.leaving.foldl Journal.noteExit j
    let j := p.entering.foldl Journal.noteEntry j
    j.record ⟨n.node, n.property, p.prior.value, p.prior.isSet⟩

/-- **Carries a change out** on a journal. A change that cannot be planned is not
recorded. -/
def carryOut (strict : Bool) (f : Forest) (n : Notice) (j : Journal) :
    List SubscriptionChange × Journal :=
  match plan strict f n with
  | .ok p => (subscriptionChanges f p, record n p j)
  | .error _ => ([], j)

end TrackedGraph.Tracking
