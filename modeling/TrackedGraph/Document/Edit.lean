/-
Edits.

Every edit goes the same way. It is admitted by schema and forest; the audience is
asked, and a veto leaves everything as it is; children that come in from elsewhere
are released from where they sit, which is an edit of its own and announced as
one; then the change is announced, and if that fails the released children are put
back; last the slot and the places are written.

Releasing a child replaces or removes, and putting it back replaces or inserts, so
the edits that take children in depend on each other in a circle. The circle is cut
twice. What a release does takes no child in, so the edits for it come first. And
an edit that takes children in gets the way to put children back as an argument,
`restore`; `putBack` closes the circle to a fixed depth. In a forest where slots
and places agree a child that is put back sits nowhere, nothing is released for it,
and a depth of one is enough.
-/
import TrackedGraph.Document.Basic

set_option autoImplicit false

namespace TrackedGraph

namespace Slot

/-- Puts an item at a position of the list. -/
def insertItem (s : Slot) (index : Nat) (item : Value) : Slot :=
  match s.value with
  | .list items => ⟨.list (items.insertIdx index item), true⟩
  | v => ⟨v, true⟩

/-- Takes the item at a position out of the list. -/
def removeItem (s : Slot) (index : Nat) : Slot :=
  match s.value with
  | .list items => ⟨.list (items.eraseIdx index), !(items.eraseIdx index).isEmpty⟩
  | _ => s

/-- Moves the item at a position of the list to another one. -/
def moveItem (s : Slot) (source target : Nat) : Slot :=
  match s.value with
  | .list items =>
    match items[source]? with
    | some item => ⟨.list ((items.eraseIdx source).insertIdx target item), s.isSet⟩
    | none => s
  | _ => s

/-- Puts an entry at a position of the mixed content. -/
def insertEntry (s : Slot) (index : Nat) (entry : Entry Value) : Slot :=
  match s.value with
  | .mixed entries => ⟨.mixed (entries.insertIdx index entry), true⟩
  | v => ⟨v, true⟩

/-- Takes the entry at a position out of the mixed content. -/
def removeEntry (s : Slot) (index : Nat) : Slot :=
  match s.value with
  | .mixed entries => ⟨.mixed (entries.eraseIdx index), !(entries.eraseIdx index).isEmpty⟩
  | _ => s

end Slot

namespace Edit

variable {τ : Type}

/-! ## Creating nodes -/

/-- Creates a node of a type, which sits nowhere and has nothing set. -/
def createOf (t : TypeId) : Edit τ NodeId := fun d =>
  match d.forest.create t with
  | .error fault => (.error fault, d)
  | .ok (n, forest) => (.ok n, { d with forest })

/-- Creates a node of the type with the given name. -/
def create (typeName : String) : Edit τ NodeId := do
  createOf (← query (·.schema.typeNamed typeName))

/-! ## Writing a slot -/

/-- Frees the children that a slot loses. -/
def unlink (children : List NodeId) : Edit τ Unit := children.forM (setPlace · none)

/-- Gives the children of a value their places. In mixed content the place of a
child is the property of its entry. -/
def link (n : NodeId) (p : PropertyId) (v : Value) (incoming : List NodeId) : Edit τ Unit :=
  match v with
  | .mixed entries => entries.forM fun e => do
      let member ← query fun f => do f.schema.feature (← f.typeOf n) e.property
      if member.owns then
        match e.value.node? with
        | some child => setPlace child (some ⟨n, e.property⟩)
        | none => return ()
  | _ => incoming.forM (setPlace · (some ⟨n, p⟩))

/-- Writes a whole slot. The places of what it loses and gains are written first. -/
def overwrite (n : NodeId) (p : PropertyId) (v : Value) (isSet : Bool) : Edit τ Unit := do
  let old ← query (·.slot n p)
  let outgoing ← query (·.owned n p old.value)
  let incoming ← query (·.owned n p v)
  unlink (outgoing.filter (!incoming.contains ·))
  link n p v incoming
  modifySlot n p fun _ => ⟨v, isSet⟩
  advance

/-! ## Edits that take no child in -/

/-- Brings the default of a property back and counts it as unset. -/
def unset (n : NodeId) (p : PropertyId) : Edit τ Unit := do
  let feature ← query (·.feature n p)
  if feature.owner.isSome then throw (.derived (← query (·.label n p)))
  let slot ← query (·.slot n p)
  announce ⟨n, p, .unset, slot.value, feature.restValue, none, slot.isSet⟩
  overwrite n p feature.restValue false

/-- Takes the item at a position out of a list, and returns it. -/
def remove (n : NodeId) (p : PropertyId) (index : Nat) : Edit τ Value := do
  let items ← query (·.itemsOf n p)
  match items[index]? with
  | none => throw (.outOfBounds index items.length)
  | some item =>
    announce ⟨n, p, .remove, item, .null, some index, true⟩
    if (← query (·.feature n p)).owns then unlink item.node?.toList
    modifySlot n p (·.removeItem index)
    advance
    return item

/-- Takes the entry at a position out of the mixed content of a node, and returns it. -/
def removeMixed (n : NodeId) (index : Nat) : Edit τ (Entry Value) := do
  let t ← query (·.typeOf n)
  let mixed ← query fun f => match f.schema.mixedOf? t with
    | some mixed => .ok mixed
    | none => .error (.noProperty (f.schema.nameOf t) "<mixed content>")
  let entries ← query (·.sequence n mixed)
  match entries[index]? with
  | none => throw (.outOfBounds index entries.length)
  | some entry =>
    announce ⟨n, mixed, .remove, .mixed [entry], .null, some index, true⟩
    if (← query (·.feature n entry.property)).owns then unlink entry.value.node?.toList
    modifySlot n mixed (·.removeEntry index)
    advance
    return entry

/-- Moves an item of a list from one position to another. -/
def move (n : NodeId) (p : PropertyId) (source target : Nat) : Edit τ Unit := do
  let items ← query (·.itemsOf n p)
  match items[source]? with
  | none => throw (.outOfBounds (max source target) items.length)
  | some item =>
    if items.length ≤ target then throw (.outOfBounds (max source target) items.length)
    announce ⟨n, p, .move, .int source, item, some target, true⟩
    modifySlot n p (·.moveItem source target)
    advance

/-! ## Edits that take children in -/

/-- Replaces the value of a property, given how incoming children are released and
put back. -/
def replace (release : List NodeId → Edit τ (List Whereabouts))
    (restore : List Whereabouts → Edit τ Unit) (n : NodeId) (p : PropertyId) (v : Value) :
    Edit τ Unit := do
  let incoming ← query (·.admitValue n p v)
  let slot ← query (·.slot n p)
  let notice : Notice := ⟨n, p, .set, slot.value, v, none, slot.isSet⟩
  poll notice
  let moved ← release incoming
  (announce notice).mending (restore moved)
  let feature ← query (·.feature n p)
  overwrite n p v (!feature.many || !v.isEmpty)

/-- Releases a node from where it sits. Returns where that was. -/
def release (n : NodeId) : Edit τ (List Whereabouts) := do
  match ← query (·.whereabouts n) with
  | none => return []
  | some whereabouts =>
    let ⟨container, p⟩ := whereabouts.place
    match whereabouts.position with
    | .mixed i => let _ ← removeMixed container i
    | .listed i => let _ ← remove container p i
    | .single => replace (fun _ => return []) (fun _ => return ()) container p .null
    return [whereabouts]

/-- Releases the children that are not among those `here`. If one of them cannot be
released, the ones before it are put back. -/
def releaseAll (restore : List Whereabouts → Edit τ Unit) (here : List NodeId) :
    (moved : List Whereabouts) → List NodeId → Edit τ (List Whereabouts)
  | moved, [] => return moved
  | moved, child :: rest =>
    if here.contains child then releaseAll restore here moved rest
    else do
      let placed ← (release child).mending (restore moved)
      releaseAll restore here (moved ++ placed) rest

/-- Replaces the value of a property. -/
def setBy (restore : List Whereabouts → Edit τ Unit) (n : NodeId) (p : PropertyId) (v : Value) :
    Edit τ Unit :=
  replace (fun incoming => do
    let slot ← query (·.slot n p)
    releaseAll restore slot.value.nodes [] incoming) restore n p v

/-- Puts an item at a position of a list. -/
def insertBy (restore : List Whereabouts → Edit τ Unit) (n : NodeId) (p : PropertyId)
    (index : Nat) (item : Value) : Edit τ Unit := do
  let incoming ← query (·.admitItem n p index item)
  let slot ← query (·.slot n p)
  let notice : Notice := ⟨n, p, .add, .null, item, some index, slot.isSet⟩
  poll notice
  let moved ← match incoming with
    | some child => release child
    | none => pure []
  (announce notice).mending (restore moved)
  incoming.forM (setPlace · (some ⟨n, p⟩))
  modifySlot n p (·.insertItem index item)
  advance

/-- Puts an entry at a position of the mixed content of a node. -/
def insertMixedBy (restore : List Whereabouts → Edit τ Unit) (n : NodeId) (index : Nat)
    (member : PropertyId) (v : Value) : Edit τ Unit := do
  let (mixed, incoming) ← query (·.admitEntry n index member v)
  let slot ← query (·.slot n mixed)
  let notice : Notice := ⟨n, mixed, .add, .null, .mixed [⟨member, v⟩], some index, slot.isSet⟩
  poll notice
  let moved ← match incoming with
    | some child => release child
    | none => pure []
  (announce notice).mending (restore moved)
  incoming.forM (setPlace · (some ⟨n, member⟩))
  modifySlot n mixed (·.insertEntry index ⟨member, v⟩)
  advance

/-- Puts released children back where they were, the last one first. Each level
stands for a restoration that had to be undone in turn. -/
def putBack : (depth : Nat) → List Whereabouts → Edit τ Unit
  | 0, _ => throw (.other "children could not be put back")
  | depth + 1, placements => placements.reverse.forM fun ⟨child, ⟨container, p⟩, position⟩ =>
      match position with
      | .mixed i => insertMixedBy (putBack depth) container i p (.node child)
      | .listed i => insertBy (putBack depth) container p i (.node child)
      | .single => setBy (putBack depth) container p (.node child)

/-- The depth to which restorations are nested. -/
def restoreDepth : Nat := 64

/-- **Replaces the value of a property.** A list or mixed content that becomes
empty counts as unset. Children that sit elsewhere move in. -/
def set (n : NodeId) (p : PropertyId) (v : Value) : Edit τ Unit :=
  setBy (putBack restoreDepth) n p v

/-- **Puts an item at a position of a list.** A child that sits elsewhere moves in. -/
def insert (n : NodeId) (p : PropertyId) (index : Nat) (item : Value) : Edit τ Unit :=
  insertBy (putBack restoreDepth) n p index item

/-- Appends an item to a list. -/
def add (n : NodeId) (p : PropertyId) (item : Value) : Edit τ Unit := do
  insert n p (← query (·.itemsOf n p)).length item

/-- **Puts an entry at a position of the mixed content of a node.** A child that
sits elsewhere moves in. -/
def insertMixed (n : NodeId) (index : Nat) (member : PropertyId) (v : Value) : Edit τ Unit :=
  insertMixedBy (putBack restoreDepth) n index member v

/-- Appends an entry to the mixed content of a node. -/
def addMixed (n : NodeId) (member : PropertyId) (v : Value) : Edit τ Unit := do
  let mixed ← query (·.sequenceOwner n member)
  insertMixed n (← query (·.sequence n mixed)).length member v

/-- **Takes a node out of its container**, if it has one. -/
def detach (n : NodeId) : Edit τ Unit := do
  let _ ← release n

end Edit

end TrackedGraph
