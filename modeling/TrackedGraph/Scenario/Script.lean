/-
Observers that follow rules.

A script is an observer written down as data: rules by which it vetoes changes, and
rules by which it changes its own subscriptions when it is told of one. It counts
how often each veto rule applied, and it keeps an account of everything it was
asked and told (`Event`). Counts and accounts of all scripts are one memory.
-/
import TrackedGraph.Audience

set_option autoImplicit false

namespace TrackedGraph.Script

/-- Which changes a rule applies to. What is not given does not matter. -/
structure Condition where
  kind : Option Notice.Kind := none
  property : Option PropertyId := none
  node : Option NodeId := none
  /-- The value that comes. -/
  after : Option Value := none
deriving Inhabited

def Condition.holds (c : Condition) (n : Notice) : Bool :=
  c.kind.all (· == n.kind) && c.property.all (· == n.property) &&
    c.node.all (· == n.node) && c.after.all (n.after.agrees ·)

/-- A rule that vetoes, but not the first `skip` times, and then `limit` times at most. -/
structure Veto where
  condition : Condition
  skip : Nat := 0
  limit : Option Nat := none
  message : String
deriving Inhabited

/-- Whether the rule vetoes when it applies for the given time, counted from one. -/
def Veto.strikes (v : Veto) (hits : Nat) : Bool :=
  v.skip < hits && v.limit.all (hits - v.skip ≤ ·)

/-- The nodes that a reaction is about. -/
inductive Target where
  /-- The nodes in the value that comes. -/
  | after
  /-- The nodes in the value that goes. -/
  | before
  | node (n : NodeId)

def Target.nodes (n : Notice) : Target → List NodeId
  | .after => n.after.nodes
  | .before => n.before.nodes
  | .node t => [t]

/-- What a reaction does with a node. -/
inductive Act where
  | subscribe
  | unsubscribe
  | subscribeContents
  | unsubscribeContents

/-- What an act comes to. -/
inductive ActResult where
  /-- Whether the subscription changed. -/
  | changed (b : Bool)
  /-- The contents that were gone through. -/
  | contents (ns : List NodeId)

structure Reaction where
  condition : Condition
  target : Target
  act : Act

/-- An observer as data. -/
structure Behaviour where
  name : String
  vetoes : List Veto := []
  reactions : List Reaction := []

/-- In which round something happened, and how it ended. -/
inductive Phase where
  /-- Asked, with the number of the rule that vetoed. -/
  | asked (veto : Option Nat)
  /-- Told, on a seat, with what each act came to. -/
  | told (seat : ObserverId) (results : List ActResult)

/-- One entry of the account. -/
structure Event where
  observer : String
  phase : Phase
  notice : Notice
  /-- What the slot held at that moment. -/
  live : Except Fault Value

/-- How often the veto rules of each script applied, and the account of all. -/
structure Memory where
  hits : List (List Nat) := []
  events : List Event := []

/-! ## Vetoing -/

/-- Goes through veto rules with their counts, from the rule with the given number
on. Returns the rule that vetoes with its message, and the counts. -/
def applyVetoes (n : Notice) : (number : Nat) → List Veto → List Nat → Option (Nat × String) × List Nat
  | i, v :: vs, h :: hs =>
    if v.condition.holds n then
      if v.strikes (h + 1) then (some (i, v.message), (h + 1) :: hs)
      else
        let (verdict, hs) := applyVetoes n (i + 1) vs hs
        (verdict, (h + 1) :: hs)
    else
      let (verdict, hs) := applyVetoes n (i + 1) vs hs
      (verdict, h :: hs)
  | _, _, hs => (none, hs)

/-! ## Reacting -/

/-- Whether a node is subscribed to after changes have been made to `own`. -/
def holdsAfter (own : NodeId → Bool) (changes : List SubscriptionChange) (n : NodeId) : Bool :=
  changes.foldl (fun held c => match c with
    | .subscribe m => held || m == n
    | .unsubscribe m => held && m != n) (own n)

/-- One act on one node: the changes it makes and what it comes to. -/
def perform (f : Forest) (own : NodeId → Bool) (earlier : List SubscriptionChange) (n : NodeId) :
    Act → List SubscriptionChange × ActResult
  | .subscribe => ([.subscribe n], .changed !(holdsAfter own earlier n))
  | .unsubscribe => ([.unsubscribe n], .changed (holdsAfter own earlier n))
  | .subscribeContents => ((f.contents n).map .subscribe, .contents (f.contents n))
  | .unsubscribeContents => ((f.contents n).map .unsubscribe, .contents (f.contents n))

/-- The acts that reactions ask for, node by node. -/
def acts (n : Notice) (reactions : List Reaction) : List (Act × NodeId) :=
  reactions.flatMap fun r =>
    if r.condition.holds n then (r.target.nodes n).map fun t => (r.act, t) else []

/-- All acts in order. -/
def performAll (f : Forest) (own : NodeId → Bool) :
    (earlier : List SubscriptionChange) → List (Act × NodeId) →
      List SubscriptionChange × List ActResult
  | earlier, [] => (earlier, [])
  | earlier, (act, n) :: rest =>
    let (changes, result) := perform f own earlier n act
    let (all, results) := performAll f own (earlier ++ changes) rest
    (all, result :: results)

/-! ## The observer -/

def live (f : Forest) (n : Notice) : Except Fault Value := do
  return (← f.slot n.node n.property).value

def Memory.log (m : Memory) (e : Event) : Memory := { m with events := m.events ++ [e] }

/-- **The observer that follows a script**, counting under the number `k`. -/
def observer (k : Nat) (b : Behaviour) : Observer Memory where
  name := b.name
  judge := fun f n m =>
    let (verdict, hits) := applyVetoes n 0 b.vetoes (m.hits[k]?.getD [])
    let m := { m with hits := m.hits.set k hits }.log
      ⟨b.name, .asked (verdict.map Prod.fst), n, live f n⟩
    match verdict with
    | none => (.ok (), m)
    | some (_, message) => (.error (.other message), m)
  follow := fun f seat own n m =>
    let (changes, results) := performAll f own [] (acts n b.reactions)
    (changes, m.log ⟨b.name, .told seat results, n, live f n⟩)

/-- Adds the counts of one more script. Tells its number. -/
def Memory.addScript (m : Memory) (b : Behaviour) : Nat × Memory :=
  (m.hits.length, { m with hits := m.hits ++ [b.vetoes.map fun _ => 0] })

end TrackedGraph.Script
