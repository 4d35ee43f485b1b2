/-
A recording: a journal, a policy, and the sessions that write the journal.

While a session runs, a recorder sits in the audience and is subscribed to the
contents of the session's roots. `Recording.start` forgets what was recorded
before; `Recording.resume` goes on with it, and counts as there from the start what
came into the tree unseen in between. `Recording.stop` gives the recorder's seat
back and keeps the journal. A recording that runs cannot be reverted; `undo` stops
it first.
-/
import TrackedGraph.Revert

set_option autoImplicit false

namespace TrackedGraph

/-- A journal by its number, and how it is kept. -/
structure Recording where
  journal : Nat
  policy : Policy
deriving DecidableEq, Inhabited

namespace Recording

variable {τ : Type}

/-- A recording of its own, with an empty journal. -/
def new (policy : Policy) : Edit τ Recording := do
  return ⟨← Edit.onAudience fun a => a.addJournal {}, policy⟩

/-- Whether a session is running. -/
def isRunning (r : Recording) (d : Document τ) : Bool := (d.audience.journal r.journal).recording

/-- The journal as it is. -/
def read (r : Recording) : Edit τ Journal := Edit.journal r.journal

def modify (r : Recording) (g : Journal → Journal) : Edit τ Unit :=
  Edit.modifyJournal r.journal g

/-! ## Sessions -/

/-- Seats a recorder, subscribes it to the nodes given and starts to record. -/
def join (r : Recording) (tracked : List NodeId) : Edit τ Unit := do
  let o ← Edit.onAudience (·.add (.recorder r.journal r.policy.strict))
  Edit.onAudience fun a => ((), { a with
    subscriptions := a.subscriptions.changeAll o (tracked.map .subscribe) })
  r.modify fun j => { j with seat := some o, recording := true }

/-- Starts a session over the contents of the roots, with nothing recorded. -/
def startFrom (r : Recording) (roots : List NodeId) : Edit τ Unit := do
  if (← r.read).recording then throw .alreadyRunning
  roots.forM fun root => do
    let _ ← Edit.query (·.typeOf root)
  let tracked ← Edit.query fun f => .ok (f.closure roots)
  let id := (← get).sessions
  MonadState.modifyGet fun d => ((), { d with sessions := d.sessions + 1 })
  r.modify (·.startSession ⟨id, roots⟩ tracked)
  r.join tracked

/-- Starts a session over the whole tree. -/
def start (r : Recording) : Edit τ Unit := do
  r.startFrom [(← get).root]

/-- Goes on with the latest session, or starts one if there was none. -/
def resume (r : Recording) : Edit τ Unit := do
  let j ← r.read
  if j.recording then throw .alreadyRunning
  match j.session with
  | none => r.start
  | some session =>
    let tracked ← Edit.query fun f => .ok (f.closure session.roots)
    let unseen := tracked.filter fun n => !j.wasInitial n && !j.entered.contains n
    r.modify (·.extendInitial unseen)
    r.join tracked

/-- Ends the session. Whoever sits on the recorder's seat leaves it. -/
def stop (r : Recording) : Edit τ Unit := do
  let j ← r.read
  if !j.recording then throw .notRunning
  match j.seat with
  | some o => Edit.onAudience fun a => ((), (a.remove o).2)
  | none => pure ()
  r.modify fun j => { j with seat := none, recording := false, suspended := false }

/-- Stops recording without ending the session. -/
def suspend (r : Recording) : Edit τ Unit := r.modify fun j => { j with suspended := true }

/-- Records again after `suspend`. -/
def unsuspend (r : Recording) : Edit τ Unit := r.modify fun j => { j with suspended := false }

/-! ## Reducing and reverting -/

/-- Reduces the journal, once there has been a session. -/
def reduce (r : Recording) : Edit τ Reduction := do
  if (← r.read).session.isNone then throw .notRunning
  Edit.reduceJournal r.journal r.policy.prune

/-- Reduces the journal while a session is running. -/
def reduceRunning (r : Recording) : Edit τ Reduction := do
  if !(← r.read).recording then throw .notRunning
  r.reduce

/-- Reverts what the latest session recorded. -/
def revert (r : Recording) : Edit τ Revert.Report := do
  let j ← r.read
  if j.recording then throw .mustStopFirst
  if j.session.isNone then throw .notRunning
  Revert.run r.policy r.journal

/-- Ends the session if one is running, then reverts what it recorded. -/
def undo (r : Recording) : Edit τ Revert.Report := do
  if (← r.read).recording then r.stop
  r.revert

/-! ## Calls as data -/

/-- One call on a recording. -/
inductive Call where
  | start
  | startFrom (roots : List NodeId)
  | resume
  | stop
  | suspend
  | unsuspend
  | reduceRunning
  | reduce
  | revert
  | undo

/-- What a call returns. -/
inductive Outcome where
  | done
  | reduced (c : Reduction)
  | reverted (r : Revert.Report)

/-- Makes the call. -/
def perform (r : Recording) : Call → Edit τ Outcome
  | .start => do r.start; return .done
  | .startFrom roots => do r.startFrom roots; return .done
  | .resume => do r.resume; return .done
  | .stop => do r.stop; return .done
  | .suspend => do r.suspend; return .done
  | .unsuspend => do r.unsuspend; return .done
  | .reduceRunning => do return .reduced (← r.reduceRunning)
  | .reduce => do return .reduced (← r.reduce)
  | .revert => do return .reverted (← r.revert)
  | .undo => do return .reverted (← r.undo)

end Recording

end TrackedGraph
