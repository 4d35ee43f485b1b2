/-
The audience of a document: who is told about changes, and how.

A member of the audience is a recorder, which writes one of the journals, or an
observer with behaviour of its own. Observers keep whatever they remember in one
memory, of a type `τ` that is left open. They see the forest but cannot change it,
and of the subscriptions they can change their own only: that is in the type of
`Observer.follow`, which returns changes to be made on the observer's behalf.

A change is announced in two rounds. In the first everybody who is subscribed to
the node is asked, and the first refusal ends the announcement. Only after that
is anybody told, so nobody acts on a change that another one refuses.
-/
import TrackedGraph.Tracking

set_option autoImplicit false

namespace TrackedGraph

/-- Behaviour on changes, over a memory. -/
structure Observer (τ : Type) where
  name : String
  /-- Judges a change that nobody has acted on yet. A fault vetoes it. -/
  judge : Forest → Notice → τ → Except Fault Unit × τ
  /-- Takes note of a change that everybody has accepted. Gets the seat it takes
  and the nodes it is subscribed to. -/
  follow : Forest → ObserverId → (NodeId → Bool) → Notice → τ → List SubscriptionChange × τ

/-- An observer that accepts everything and does nothing. -/
def Observer.idle (τ : Type) (name : String) : Observer τ where
  name := name
  judge := fun _ _ m => (.ok (), m)
  follow := fun _ _ _ _ m => ([], m)

/-- Somebody who takes a seat. -/
inductive Member (τ : Type) where
  /-- Writes the journal of the given number. -/
  | recorder (journal : Nat) (strict : Bool)
  | observer (o : Observer τ)

def Member.name {τ : Type} : Member τ → String
  | recorder .. => "change-recorder"
  | observer o => o.name

/-- Seats and subscriptions, the journals that recorders write and the memory of
the observers. -/
structure Audience (τ : Type) where
  seats : List (Option (Member τ)) := []
  subscriptions : Subscriptions := {}
  journals : List Journal := []
  memory : τ

namespace Audience

variable {τ : Type}

/-! ## Seats -/

/-- Who takes a seat, if anybody does. -/
def member? (a : Audience τ) (o : ObserverId) : Option (Member τ) := a.seats[o.index]?.join

/-- Gives a member the first free seat. Subscriptions stay as they are. -/
def add (a : Audience τ) (m : Member τ) : ObserverId × Audience τ :=
  match a.seats.findIdx? Option.isNone with
  | some i => (⟨i⟩, { a with seats := a.seats.set i (some m) })
  | none => (⟨a.seats.length⟩, { a with seats := a.seats ++ [some m] })

/-- Empties a seat, with the subscriptions that go with it. A seat that was never
given to anybody is left alone. -/
def remove (a : Audience τ) (o : ObserverId) : Option (Member τ) × Audience τ :=
  if o.index < a.seats.length then
    (a.member? o, { a with
      seats := a.seats.set o.index none
      subscriptions := (a.subscriptions.drop o).2 })
  else (none, a)

def isSeated (a : Audience τ) (o : ObserverId) : Bool := (a.member? o).isSome

/-! ## Journals -/

/-- Adds a journal. Tells its number. -/
def addJournal (a : Audience τ) (j : Journal) : Nat × Audience τ :=
  (a.journals.length, { a with journals := a.journals ++ [j] })

def journal (a : Audience τ) (k : Nat) : Journal := a.journals[k]?.getD {}

def setJournal (a : Audience τ) (k : Nat) (j : Journal) : Audience τ :=
  { a with journals := a.journals.set k j }

/-! ## Announcing -/

/-- Asks one member. -/
def ask (f : Forest) (n : Notice) (m : Member τ) (a : Audience τ) :
    Except Fault Unit × Audience τ :=
  match m with
  | .recorder _ strict => ((Tracking.plan strict f n).map fun _ => (), a)
  | .observer o =>
    let (verdict, memory) := o.judge f n a.memory
    (verdict, { a with memory })

/-- Asks the members on the given seats in order, up to the first refusal. -/
def askAll (f : Forest) (n : Notice) : List ObserverId → Audience τ → Except Fault Unit × Audience τ
  | [], a => (.ok (), a)
  | o :: os, a =>
    match a.member? o with
    | none => askAll f n os a
    | some m =>
      match ask f n m a with
      | (.ok (), a) => askAll f n os a
      | (.error fault, a) => (.error fault, a)

/-- Tells one member, and makes the changes to its subscriptions. -/
def tell (f : Forest) (n : Notice) (o : ObserverId) (m : Member τ) (a : Audience τ) : Audience τ :=
  match m with
  | .recorder k strict =>
    let (changes, j) := Tracking.carryOut strict f n (a.journal k)
    { a.setJournal k j with subscriptions := a.subscriptions.changeAll o changes }
  | .observer obs =>
    let (changes, memory) := obs.follow f o (a.subscriptions.has o) n a.memory
    { a with memory, subscriptions := a.subscriptions.changeAll o changes }

/-- Tells the members on the given seats in order. -/
def tellAll (f : Forest) (n : Notice) (os : List ObserverId) (a : Audience τ) : Audience τ :=
  os.foldl (fun a o => match a.member? o with
    | none => a
    | some m => tell f n o m a) a

/-- **The first round alone**: whether everybody would accept the change. -/
def poll (f : Forest) (n : Notice) (a : Audience τ) : Except Fault Unit × Audience τ :=
  askAll f n (a.subscriptions.observers n.node) a

/-- **Both rounds**, for the members who are subscribed when the first one begins. -/
def announce (f : Forest) (n : Notice) (a : Audience τ) : Except Fault Unit × Audience τ :=
  let os := a.subscriptions.observers n.node
  match askAll f n os a with
  | (.ok (), a) => (.ok (), tellAll f n os a)
  | (.error fault, a) => (.error fault, a)

end Audience

end TrackedGraph
