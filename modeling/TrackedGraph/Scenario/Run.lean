/-
Running a scenario.

The state between steps (`Bench`) is the document with the recordings and logs that
were made for it, the sessions that answers have shown so far, and the nodes as
they were after the latest step, from which the next answer tells what changed.
-/
import TrackedGraph.Scenario.Command

set_option autoImplicit false

namespace TrackedGraph.Scenario

/-- The state of a scenario between steps. -/
structure Bench where
  document : Document Script.Memory
  recordings : List Recording
  /-- The numbers of the journals that are logs. -/
  logs : List Nat := []
  /-- The sessions that answers have shown, in order. -/
  shown : List Nat := []
  /-- The nodes after the latest step. -/
  before : List Node := []

/-- A computation on the bench that may fail. -/
abbrev Work (α : Type) := ExceptT Fault (StateM Bench) α

namespace Work

/-- Makes an edit. -/
def edit {α : Type} (e : Edit Script.Memory α) : Work α := fun b =>
  let (a, document) := e b.document
  (a, { b with document })

/-- Reads the document. -/
def ask {α : Type} (q : Document Script.Memory → α) : Work α := fun b => (.ok (q b.document), b)

/-- Views a journal. -/
def view {α : Type} (k : Nat) (v : Forest → Nat → StateM Journal α) : Work α :=
  edit (Edit.onJournal k fun f g => ExceptT.lift (v f g))

/-- Views a journal, which may fail. -/
def view? {α : Type} (k : Nat) (v : Forest → Nat → ExceptT Fault (StateM Journal) α) : Work α :=
  edit (Edit.onJournal k v)

/-- The number under which a session is shown. -/
def number (session : Option Nat) : Work (Option Nat) := fun b =>
  match session with
  | none => (.ok none, b)
  | some id =>
    let shown := FirstSeen.add b.shown id
    (.ok (shown.idxOf? id), { b with shown })

/-- The recording of a number. -/
def recording (r : Nat) : Work Recording := fun b =>
  match b.recordings[r]? with
  | some recording => (.ok recording, b)
  | none => (.error (.other "no such recording"), b)

/-- The journal of the log of a number. -/
def log (l : Nat) : Work Nat := fun b =>
  match b.logs[l]? with
  | some k => (.ok k, b)
  | none => (.error (.other "no such log"), b)

end Work

/-! ## Reports -/

/-- Whether a node is created, deleted, modified. -/
def classify (f : Forest) (generation : Nat) (n : NodeId) : StateM Journal (Bool × Bool × Bool) := do
  let isCreated := (← get).isCreated n
  let isDeleted ← Journal.isDeleted f generation n
  return (isCreated, isDeleted, ← Journal.isModified f generation n)

/-- What a journal says about one node, as a recording. -/
def reportNode (f : Forest) (generation : Nat) (n : NodeId) : StateM Journal NodeReport := do
  let (isCreated, isDeleted, isModified) ← classify f generation n
  let priorStates ← Journal.priorStates f n
  let priorPlace ← Journal.priorPlace f generation n
  let priorContent ← Journal.priorContent f n
  return { node := n, isCreated, isDeleted, isModified, priorStates, priorPlace, priorContent }

/-- What a journal says about all nodes, as a recording with a policy. -/
def reportJournal (policy : Policy) (session : Option Nat) (f : Forest) (generation : Nat) :
    StateM Journal Report := do
  let j ← get
  let deleted ← Journal.deleted f generation
  let changed ← Journal.changed f generation
  let tally ← Journal.tally f generation
  let nodes ← f.ids.mapM (reportNode f generation)
  return {
    policy
    isRunning := j.recording
    isSuspended := j.suspended
    session
    created := j.created
    deleted
    changed
    tally
    nodes }

/-- What a log says about one node. -/
def reportLogNode (f : Forest) (n : NodeId) : StateM Journal LogNodeReport := do
  let j ← get
  let priorStates ← Journal.priorStates f n
  return {
    node := n
    records := j.recordsOf n
    earliest := j.earliestOf n
    priorStates
    isCreated := j.isCreated n
    wasInitial := j.wasInitial n }

/-- What a log says about all nodes. -/
def reportLog (f : Forest) (generation : Nat) : StateM Journal LogReport := do
  let j ← get
  let deleted ← Journal.deleted f generation
  let changed ← Journal.changed f generation
  let tally ← Journal.tally f generation
  let priorPlaces ← Journal.priorPlaces f generation
  let nodes ← f.ids.mapM (reportLogNode f)
  return {
    isRecording := j.recording
    hasSession := j.session.isSome
    isSuspended := j.suspended
    revision := j.revision
    roots := j.roots
    touched := j.touched
    entered := j.entered
    left := j.left
    created := j.created
    deleted
    changed
    tally
    priorPlaces := priorPlaces.map (·.mergeSort fun a b => a.1.index ≤ b.1.index)
    nodes }

/-! ## Commands -/

def Reply.ofMutation : Mutation.Outcome → Reply
  | .done => .done
  | .created n => .node n
  | .removed item => .value item
  | .removedEntry e => .entry e

def query (d : Document Script.Memory) : Query → Except Fault Reply
  | .get n p => do return .value (← d.forest.get n p)
  | .isSet n p => do return .flag (← d.forest.isSet n p)
  | .slot n p => do return .slot (← d.forest.slot n p)
  | .mixedContent n => do return .mixedContent (← d.forest.mixedContent n)
  | .sequence n p => do return .mixedContent (some (← d.forest.sequence n p))
  | .property p => return .property p
  | .feature n p => do return .feature (← d.forest.feature n p)
  | .typeOf n => do return .type (← d.forest.typeOf n)
  | .place n => return .place (d.forest.place? n)
  | .children n => return .nodes (d.forest.children n)
  | .contents n => return .nodes (d.forest.contents n)
  | .isInTree n => return .flag (d.isInTree n)
  | .isWithin n root => return .flag (d.forest.isWithin n root)
  | .isWithinAny n roots => return .flag (d.forest.isWithinAny n roots)
  | .overview n =>
    let size := d.forest.nodes.length
    return .overview d.root size (size == 0) (d.forest.contains n) d.forest.schema.types.length

/-- Seats the observer of a script. -/
def register (b : Script.Behaviour) (a : Audience Script.Memory) :
    ObserverId × Audience Script.Memory :=
  let (k, memory) := a.memory.addScript b
  { a with memory }.add (.observer (Script.observer k b))

def subscribe (o : ObserverId) (n : NodeId) (a : Audience Script.Memory) :
    Bool × Audience Script.Memory :=
  let (isNew, subscriptions) := a.subscriptions.subscribe o n
  (isNew, { a with subscriptions })

def unsubscribe (o : ObserverId) (n : NodeId) (a : Audience Script.Memory) :
    Bool × Audience Script.Memory :=
  let (wasThere, subscriptions) := a.subscriptions.unsubscribe o n
  (wasThere, { a with subscriptions })

/-- The nodes of the forest that an observer is subscribed to. -/
def subscribed (d : Document Script.Memory) (o : ObserverId) : List NodeId :=
  d.forest.ids.filter (d.audience.subscriptions.has o)

def call (r : Recording) (c : Recording.Call) : Work Reply := do
  match ← Work.edit (r.perform c) with
  | .done => return .done
  | .reduced c => return .reduced c
  | .reverted report => return .reverted (← Work.number report.session) report

/-- The number of the latest session of a recording. -/
def sessionNumber (r : Recording) : Work (Option Nat) := do
  Work.number ((← Work.edit r.read).session.map (·.id))

def inspect (r : Recording) : Inspection → Work Reply
  | .state => do
    let j ← Work.edit r.read
    return .state j.recording j.suspended (← sessionNumber r)
  | .classify n => do
    let (isCreated, isDeleted, isModified) ← Work.view r.journal fun f g => classify f g n
    return .classified isCreated isDeleted isModified
  | .created => do return .nodes (← Work.edit r.read).created
  | .deleted => do return .nodes (← Work.view r.journal Journal.deleted)
  | .changed => do return .nodes (← Work.view r.journal Journal.changed)
  | .priorStates n => do
    return .priorStates (← Work.view? r.journal fun f _ => Journal.priorStates f n)
  | .priorState n p => do
    return .priorState (← Work.view? r.journal fun f _ => Journal.priorState f n p)
  | .priorContent n => do
    return .mixedContent (← Work.view? r.journal fun f _ => Journal.priorContent f n)
  | .priorContainer n => do
    let place ← Work.view? r.journal fun f g => Journal.priorPlace f g n
    return .container (place.map (·.container))
  | .priorProperty n => do
    let place ← Work.view? r.journal fun f g => Journal.priorPlace f g n
    return .containment (place.map (·.property))
  | .tally => do return .tally (← Work.view r.journal Journal.tally)
  | .report => do
    let session ← sessionNumber r
    return .report (← Work.view r.journal (reportJournal r.policy session))

/-- Opens a log: a journal, and a recorder that writes it. -/
def openLog (strict unheeded : Bool) : Work ObserverId := do
  let k ← Work.edit (Edit.onAudience fun a => a.addJournal {})
  MonadState.modifyGet fun b => ((), { b with logs := b.logs ++ [k] })
  let member := if unheeded then .observer (Observer.idle _ "observer") else .recorder k strict
  Work.edit (Edit.onAudience (·.add member))

/-- Does what a command says. -/
def execute : Command → Work Reply
  | .mutate m => do return .ofMutation (← Work.edit m.run)
  | .query q => do
    match ← Work.ask (query · q) with
    | .ok reply => return reply
    | .error fault => throw fault
  | .register b => do return .observer (← Work.edit (Edit.onAudience (register b)))
  | .unregister o => do
    let member ← Work.edit (Edit.onAudience (·.remove o))
    return .name (member.map (·.name))
  | .subscribe o n => do return .flag (← Work.edit (Edit.onAudience (subscribe o n)))
  | .unsubscribe o n => do return .flag (← Work.edit (Edit.onAudience (unsubscribe o n)))
  | .subscription o n => do
    let s ← Work.ask (·.audience.subscriptions)
    return .subscription (s.has o n) (s.count o)
  | .subscribed o => do return .nodes (← Work.ask (subscribed · o))
  | .call r c => do call (← Work.recording r) c
  | .inspect r i => do inspect (← Work.recording r) i
  | .openLog strict unheeded => do return .observer (← openLog strict unheeded)
  | .reduceLog l prune => do
    return .reduced (← Work.edit (Edit.reduceJournal (← Work.log l) prune))
  | .reportLog l => do return .logReport (← Work.view (← Work.log l) reportLog)

/-! ## Steps -/

/-- The property that a step is about. -/
def resolve (n : NodeId) : PropertyRef → Work PropertyId
  | .id p => return p
  | .named name => Work.edit (Edit.query (·.propertyNamed n name))

def perform (s : Step) : Work Reply := do
  execute (s.command (← resolve s.node s.property))

/-- The nodes that are new or differ from before. -/
def changesSince (before after : List Node) : List (NodeId × Node) :=
  after.zipIdx.filterMap fun (node, i) =>
    if before[i]? = some node then none else some (⟨i⟩, node)

/-- Takes the account of the scripts. -/
def takeEvents (d : Document Script.Memory) : List Script.Event × Document Script.Memory :=
  (d.audience.memory.events,
    { d with audience := { d.audience with memory := { d.audience.memory with events := [] } } })

/-- **Runs one step.** -/
def step (s : Step) : StateM Bench Answer := fun b =>
  let (outcome, b) := perform s b
  let (events, document) := takeEvents b.document
  let after := document.forest.nodes
  ({ outcome, generation := document.generation, events, changes := changesSince b.before after },
    { b with document, before := after })

/-- A bench with a document and its recordings, one for each policy. -/
def Bench.new (schema : Schema) (rootType : String) (policies : List Policy) :
    Except Fault Bench := do
  let document ← Document.new schema rootType {}
  match (policies.mapM (Recording.new (τ := _))) document with
  | (.ok recordings, document) => return { document, recordings }
  | (.error fault, _) => throw fault

/-- **Runs a scenario**: one answer for each step. -/
def run (schema : Schema) (rootType : String) (policies : List Policy) (steps : List Step) :
    Except Fault (List Answer) := do
  let bench ← Bench.new schema rootType policies
  return ((steps.mapM step) bench).1

end TrackedGraph.Scenario
