/-
What a journal says about a forest.

Each view comes twice. The first definition computes it from the journal and the
forest as they are (`findDeleted`, `findPriorPlaces`, `expand`). The second answers
from a memo if there is one of this moment and takes one otherwise (`deleted`,
`priorPlaces`, `priorStates`). A memo is of this moment if neither the revision of the
journal nor the generation of the document has moved since; the prior states depend
on the journal alone, so they ask for the revision only.
-/
import TrackedGraph.Forest.Containment
import TrackedGraph.Journal.Basic

set_option autoImplicit false

namespace TrackedGraph

/-- How many objects a journal says were changed. -/
structure Tally where
  created : Nat
  deleted : Nat
  /-- The nodes that are neither created nor deleted and have a record. -/
  modified : Nat
  /-- The properties with a record. -/
  properties : Nat
deriving DecidableEq, Inhabited

namespace Tally

def hasChanges (s : Tally) : Bool := 0 < s.created || 0 < s.deleted || 0 < s.modified

def total (s : Tally) : Nat := s.created + s.deleted + s.modified

end Tally

namespace Journal

/-! ## Computed from the present state -/

/-- The nodes that no root reaches any more, among the contents of everything that
entered or left the tracked tree. -/
def findDeleted (f : Forest) (j : Journal) : List NodeId :=
  FirstSeen.ofList
    (((j.left ++ j.entered).flatMap f.contents).filter fun n => !f.isWithinAny n j.roots)

/-- The children that a recorded state lists, with their places. -/
def placesIn (f : Forest) (r : PriorState) : Except Fault (List (NodeId × Place)) := do
  let t ← f.typeOf r.node
  let feature ← f.schema.feature t r.property
  match feature.role with
  | .containment => return r.value.nodes.map fun child => (child, ⟨r.node, r.property⟩)
  | .mixed =>
    let places ← r.value.entries.mapM fun e => do
      let member ← f.schema.feature t e.property
      return if member.owns
        then e.value.node?.map fun child => (child, (⟨r.node, e.property⟩ : Place))
        else none
    return places.filterMap id
  | _ => return []

/-- Notes the place of a node unless one is noted already. -/
def notePlace (places : List (NodeId × Place)) (entry : NodeId × Place) :
    List (NodeId × Place) :=
  if places.any (·.1 == entry.1) then places else places ++ [entry]

/-- The places that the earliest states give to the nodes they list. -/
def findPriorPlaces (f : Forest) (j : Journal) : Except Fault (List (NodeId × Place)) := do
  return (← j.allEarliest.mapM (placesIn f)).flatten.foldl notePlace []

/-- What a recorded sequence says about each member of the mixed content: one
state for every member that has an entry, in the order of the type's properties. -/
def memberStates (features : List Feature) (r : PriorState) : List PriorState :=
  features.zipIdx.filterMap fun (feature, i) =>
    if feature.owner = some r.property then
      match MixedContent.ofMember r.value.entries ⟨i⟩ with
      | [] => none
      | v :: vs => some ⟨r.node, ⟨i⟩, if feature.many then .list (v :: vs) else v, true⟩
    else none

/-- States of one node, followed by what its recorded sequence says about members. -/
def expand (f : Forest) (n : NodeId) (rs : List PriorState) : Except Fault (List PriorState) := do
  let t ← f.typeOf n
  let features ← f.schema.features t
  let members ← rs.mapM fun r => do
    let feature ← f.schema.feature t r.property
    return if feature.isMixed then memberStates features r else []
  return rs ++ members.flatten

/-! ## Answered with memos -/

/-- The view of a memo that was taken at this moment. -/
def Memo.current? {α : Type} (memo : Option (Memo α)) (revision generation : Nat) : Option α := do
  let m ← memo
  if m.revision = revision ∧ m.generation = generation then some m.view else none

/-- **The deleted nodes**: those of the tracked tree, from the start or since, that
no root reaches any more. -/
def deleted (f : Forest) (generation : Nat) : StateM Journal (List NodeId) := fun j =>
  match Memo.current? j.deletedMemo j.revision generation with
  | some view => (view, j)
  | none =>
    let view := findDeleted f j
    (view, { j with deletedMemo := some ⟨j.revision, generation, view⟩ })

/-- **The prior places** of the nodes that the earliest states list. -/
def priorPlaces (f : Forest) (generation : Nat) :
    ExceptT Fault (StateM Journal) (List (NodeId × Place)) := fun j =>
  match Memo.current? j.priorPlacesMemo j.revision generation with
  | some view => (.ok view, j)
  | none =>
    match findPriorPlaces f j with
    | .error fault => (.error fault, j)
    | .ok view => (.ok view, { j with priorPlacesMemo := some ⟨j.revision, generation, view⟩ })

/-- Forgets expansions of an earlier revision. -/
def refreshExpansions (j : Journal) : Journal :=
  if j.expansionsAt = j.revision then j
  else { j with expansions := [], expansionsAt := j.revision }

/-- **The prior states** of a node: its earliest states, followed by those of the
members of mixed content. -/
def priorStates (f : Forest) (n : NodeId) : ExceptT Fault (StateM Journal) (List PriorState) :=
  fun j =>
    let j := j.refreshExpansions
    match j.expansions.lookup n with
    | some view => (.ok view, j)
    | none =>
      match j.earliestOf n with
      | [] => (.ok [], j)
      | rs =>
        match expand f n rs with
        | .error fault => (.error fault, j)
        | .ok view => (.ok view, { j with expansions := (n, view) :: j.expansions })

/-! ## Single nodes -/

/-- Whether no root reaches a node any more that was in the tracked tree at some time. -/
def isDeleted (f : Forest) (generation : Nat) (n : NodeId) : StateM Journal Bool := do
  return (← deleted f generation).contains n

/-- Whether a node has a record without being created or deleted. -/
def isModified (f : Forest) (generation : Nat) (n : NodeId) : StateM Journal Bool := do
  let j ← get
  if (j.recordsOf n).isEmpty || j.isCreated n then return false
  return !(← isDeleted f generation n)

/-- The prior state of one property, if it has a record. -/
def priorState (f : Forest) (n : NodeId) (p : PropertyId) :
    ExceptT Fault (StateM Journal) (Option PriorState) := do
  return (← priorStates f n).find? (·.property == p)

/-- The prior mixed content of a node, if it has a record. -/
def priorContent (f : Forest) (n : NodeId) :
    ExceptT Fault (StateM Journal) (Option MixedContent) := do
  match f.schema.mixedOf? (← f.typeOf n) with
  | none => return none
  | some mixed => return (← priorState f n mixed).bind (·.value.mixed?)

/-- Where a node sat before the recording: nowhere if it was created since, else
where a record has it, else where it is. -/
def priorPlace (f : Forest) (generation : Nat) (n : NodeId) :
    ExceptT Fault (StateM Journal) (Option Place) := do
  let j ← get
  if j.isCreated n then return none
  match (← priorPlaces f generation).lookup n with
  | some place => return some place
  | none => return f.place? n

/-! ## Summaries -/

/-- Every node that was touched in any way: the deleted ones first, then the
entered ones, then those with a record. -/
def changed (f : Forest) (generation : Nat) : StateM Journal (List NodeId) := do
  let gone ← deleted f generation
  let j ← get
  return FirstSeen.addAll (FirstSeen.addAll gone j.entered) j.touched

def tally (f : Forest) (generation : Nat) : StateM Journal Tally := do
  let gone ← deleted f generation
  let j ← get
  return {
    created := j.created.length
    deleted := gone.length
    modified := j.touched.countP fun n => !gone.contains n && !j.created.contains n
    properties := j.allEarliest.length }

end Journal

end TrackedGraph
