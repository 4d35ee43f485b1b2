/-
A document: a forest with a root, and an audience.

An `Edit` is a computation on a document that may fail. What it did before it
failed stays done; a document is not rolled back behind anybody's back, and where
an edit has to be undone half way, the edit says so (`Edit.mending`).

The steps that edits are made of are collected here. Each changes one thing: the
audience is asked or told, a place is written, a slot is written, or the
generation goes up, which marks the change as done.
-/
import TrackedGraph.Audience
import TrackedGraph.Forest.Conform

set_option autoImplicit false

namespace TrackedGraph

/-- A change that was announced and accepted, with the forest it was announced in. -/
structure Announcement where
  notice : Notice
  forest : Forest

/-- A change that was refused, with the forest it was put in, the seats that were to be asked about
it, what the observers remembered before they were, and the fault it was refused with. -/
structure Veto (τ : Type) extends Announcement where
  asked : ObserverId → Bool
  memory : τ
  fault : Fault

/-- A forest with a root, and an audience whose observers share a memory of type `τ`. -/
structure Document (τ : Type) where
  forest : Forest
  root : NodeId
  /-- The number of changes that were carried out. -/
  generation : Nat := 0
  /-- The number of recording sessions that were started. -/
  sessions : Nat := 0
  /-- The changes that were announced and accepted, in order. -/
  history : List Announcement := []
  /-- The changes that somebody refused, in order. -/
  vetoes : List (Veto τ) := []
  /-- How many of the refusals fell on children being put back. -/
  repairRefusals : Nat := 0
  audience : Audience τ

/-- How often somebody refused a change. -/
def Document.refusals {τ : Type} (d : Document τ) : Nat := d.vetoes.length

/-- A document with nothing but a root. -/
def Document.new {τ : Type} (schema : Schema) (rootType : String) (memory : τ) :
    Except Fault (Document τ) := do
  let (root, forest) ← (Forest.empty schema).create (← schema.typeNamed rootType)
  return { forest, root, audience := { memory } }

/-- Whether a node is the root or sits below it. -/
def Document.isInTree {τ : Type} (d : Document τ) (n : NodeId) : Bool :=
  d.forest.isWithinAny n [d.root]

/-- A computation on a document that may fail. -/
abbrev Edit (τ α : Type) := ExceptT Fault (StateM (Document τ)) α

namespace Edit

variable {τ α : Type}

/-- Asks the forest. -/
def query (q : Forest → Except Fault α) : Edit τ α := fun d => (q d.forest, d)

/-- Changes the audience. -/
def onAudience (g : Audience τ → α × Audience τ) : Edit τ α := fun d =>
  let (a, audience) := g d.audience
  (.ok a, { d with audience })

/-- Asks the audience about a change, and writes it down if it is refused. -/
def poll (n : Notice) : Edit τ Unit := fun d =>
  match d.audience.poll d.forest n with
  | (.ok (), audience) => (.ok (), { d with audience })
  | (.error fault, audience) =>
    let veto := ⟨⟨n, d.forest⟩, (d.audience.subscriptions.has · n.node), d.audience.memory, fault⟩
    (.error fault, { d with audience, vetoes := d.vetoes ++ [veto] })

/-- Announces a change to the audience, and writes down whether it is accepted or refused. -/
def announce (n : Notice) : Edit τ Unit := fun d =>
  match d.audience.announce d.forest n with
  | (.ok (), audience) => (.ok (), { d with audience, history := d.history ++ [⟨n, d.forest⟩] })
  | (.error fault, audience) =>
    let veto := ⟨⟨n, d.forest⟩, (d.audience.subscriptions.has · n.node), d.audience.memory, fault⟩
    (.error fault, { d with audience, vetoes := d.vetoes ++ [veto] })

/-- Runs an edit. If it fails, makes good what went before and fails all the same;
a failure of the repair is not reported, and refusals during it are counted apart. -/
def mending (edit : Edit τ α) (repair : Edit τ Unit) : Edit τ α := fun d =>
  match edit d with
  | (.ok a, d) => (.ok a, d)
  | (.error fault, d) =>
    let mended := (repair d).2
    (.error fault,
      { mended with repairRefusals := d.repairRefusals + (mended.refusals - d.refusals) })

/-- Writes the place of a node, which has to exist. -/
def setPlace (n : NodeId) (place : Option Place) : Edit τ Unit := fun d =>
  match d.forest.node n with
  | .error fault => (.error fault, d)
  | .ok _ => (.ok (), { d with forest := d.forest.setPlace n place })

/-- Changes a slot, which has to exist. -/
def modifySlot (n : NodeId) (p : PropertyId) (g : Slot → Slot) : Edit τ Unit := fun d =>
  match d.forest.node n with
  | .error fault => (.error fault, d)
  | .ok node =>
    match node.slots[p.index]? with
    | none => (.error (.other ("slot " ++ toString p.index ++ " missing on " ++ n.label)), d)
    | some slot => (.ok (), { d with forest := d.forest.setSlot n p (g slot) })

/-- Marks a change as done. -/
def advance : Edit τ Unit := fun d => (.ok (), { d with generation := d.generation + 1 })

end Edit

end TrackedGraph
