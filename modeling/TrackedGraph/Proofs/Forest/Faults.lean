/-
What questions to the forest are refused for.

A recording refuses a call that comes at the wrong time: it runs already, it does not run, it
has to be stopped first. No question to the schema or the forest is refused for such a reason
(`Factual`), whether it admits an edit or looks something up. So whoever is refused for one
knows that nothing was asked of the forest yet.
-/
import TrackedGraph.Forest.Conform
import TrackedGraph.Tracking
import TrackedGraph.Revert

set_option autoImplicit false

namespace TrackedGraph

/-- Whether the fault is about the time at which a recording may be called. -/
def Fault.ofSession : Fault → Bool
  | .alreadyRunning | .notRunning | .mustStopFirst => true
  | _ => false

variable {α β ι : Type} {x y : Except Fault α} {k : α → Except Fault β} {e : Fault}

/-- The question is not refused for the sake of a session. -/
def Factual (x : Except Fault α) : Prop := ∀ e, x = .error e → e.ofSession = false

namespace Factual

/-! ## Rules -/

theorem pure (a : α) : Factual (pure a : Except Fault α) := by
  intro e he
  exact absurd he (by simp [Pure.pure, Except.pure])

theorem error (h : e.ofSession = false) : Factual (.error e : Except Fault α) := by
  intro e' he
  rwa [← Except.error.inj he]

theorem throw (h : e.ofSession = false) : Factual (throw e : Except Fault α) := .error h

theorem bind (hx : Factual x) (hk : ∀ a, Factual (k a)) : Factual (x >>= k) := by
  intro e he
  cases hxe : x with
  | ok a =>
    rw [hxe] at he
    exact hk a e he
  | error e' =>
    rw [hxe] at he
    obtain rfl : e' = e := Except.error.inj he
    exact hx e' hxe

theorem ite {c : Prop} [Decidable c] (hx : Factual x) (hy : Factual y) :
    Factual (if c then x else y) := by
  split
  · exact hx
  · exact hy

theorem forM {k : ι → Except Fault Unit} (hk : ∀ i, Factual (k i)) (l : List ι) :
    Factual (l.forM k) := by
  induction l with
  | nil => exact .pure ()
  | cons i l ih => exact .bind (hk i) fun _ => ih

theorem mapM {k : ι → Except Fault α} (hk : ∀ i, Factual (k i)) (l : List ι) :
    Factual (l.mapM k) := by
  induction l with
  | nil => exact .pure []
  | cons i l ih =>
    rw [List.mapM_cons]
    exact .bind (hk i) fun _ => .bind ih fun _ => .pure _

/-- A condition that is insisted on before the rest. -/
theorem guarded {c : Prop} [Decidable c] {k : Unit → Except Fault β} (he : e.ofSession = false)
    (hk : Factual (k ())) : Factual (if c then MonadExcept.throw e >>= k else k ()) :=
  .ite (.bind (.throw he) fun _ => hk) hk

theorem filterM {k : ι → Except Fault Bool} (hk : ∀ i, Factual (k i)) (l : List ι) :
    Factual (l.filterM k) := by
  have haux : ∀ acc, Factual (l.filterAuxM k acc) := by
    induction l with
    | nil => exact fun acc => .pure acc
    | cons i l ih =>
      intro acc
      rw [List.filterAuxM]
      exact .bind (hk i) fun b => ih _
  exact .bind (haux []) fun _ => .pure _

/-! ## The schema -/

section schema

variable {s : Schema} {t : TypeId} {p q : PropertyId} {v : Value}

theorem typeNamed (name : String) : Factual (s.typeNamed name) := by
  unfold Schema.typeNamed
  split
  · exact .pure _
  · exact .error rfl

theorem nodeType : Factual (s.nodeType t) := by
  unfold Schema.nodeType
  split
  · exact .pure _
  · exact .error rfl

theorem features : Factual (s.features t) := .bind nodeType fun _ => .pure _

theorem schemaFeature : Factual (s.feature t p) := by
  refine .bind nodeType fun type => ?_
  split
  · exact .pure _
  · exact .throw rfl

theorem conformItem : Factual (s.conformItem t p v) :=
  .bind schemaFeature fun _ => .ite (.pure _) (.throw rfl)

theorem conformEntry : Factual (s.conformEntry t p q v) :=
  .bind schemaFeature fun _ => .guarded rfl conformItem

theorem conformSlot : Factual (s.conformSlot t p v) := by
  refine .bind schemaFeature fun g => .guarded rfl (.ite ?_ (.ite ?_ (.ite (.pure _) conformItem)))
  · split
    · exact .forM (fun _ => conformEntry) _
    · exact .throw rfl
  · split
    · exact .forM (fun _ => conformItem) _
    · exact .throw rfl

theorem mayPointTo {u : TypeId} : Factual (s.mayPointTo t p u) :=
  .bind schemaFeature fun _ => .pure _

end schema

/-! ## The forest -/

section forest

variable {f : Forest} {n c : NodeId} {t : TypeId} {p : PropertyId} {v : Value} {i : Nat}

theorem node : Factual (f.node n) := by
  unfold Forest.node
  split
  · exact .pure _
  · exact .error rfl

theorem typeOf : Factual (f.typeOf n) := .bind node fun _ => .pure _

theorem feature : Factual (f.feature n p) := .bind typeOf fun _ => schemaFeature

theorem label : Factual (f.label n p) := .bind typeOf fun _ => .pure _

theorem slot : Factual (f.slot n p) := by
  refine .bind node fun node => ?_
  split
  · exact .pure _
  · exact .throw rfl

theorem sequence : Factual (f.sequence n p) := by
  refine .bind slot fun s => ?_
  split
  · exact .pure _
  · exact .bind label fun _ => .throw rfl

theorem create : Factual (f.create t) := .bind features fun _ => .pure _

theorem owned : Factual (f.owned n p v) := by
  refine .bind typeOf fun t => .bind schemaFeature fun g => ?_
  split
  · exact .pure _
  · exact .bind (.mapM (fun _ => .bind schemaFeature fun _ => .pure _) _) fun _ => .pure _
  · exact .pure _

theorem requireTarget : Factual (f.requireTarget t p n) :=
  .bind typeOf fun _ => .bind schemaFeature fun _ => .bind mayPointTo fun _ =>
    .ite (.pure _) (.throw rfl)

theorem requireTargets : Factual (f.requireTargets n p v) := by
  refine .bind typeOf fun t => ?_
  split
  · refine .forM (fun entry => ?_) _
    split
    · exact requireTarget
    · exact .pure _
  · exact .bind schemaFeature fun g => .ite (.forM (fun _ => requireTarget) _) (.pure _)

theorem requireDistinct (earlier cs : List NodeId) :
    Factual (f.requireDistinct n p earlier cs) := by
  induction cs generalizing earlier with
  | nil => exact .pure _
  | cons c cs ih =>
    unfold Forest.requireDistinct
    dsimp only
    exact .ite (.bind label fun _ => .bind (.throw rfl) fun _ => ih _) (ih _)

theorem requireAcyclic : Factual (f.requireAcyclic n c) := .ite (.error rfl) (.pure _)

theorem requireNewcomer : Factual (f.requireNewcomer n p c) :=
  .bind requireAcyclic fun _ => .bind slot fun _ =>
    .ite (.bind label fun _ => .throw rfl) (.pure _)

theorem itemsOf : Factual (f.itemsOf n p) := by
  refine .bind feature fun g => .bind label fun l =>
    .guarded rfl (.guarded rfl (.bind slot fun s => ?_))
  split
  · exact .pure _
  · exact .throw rfl

theorem sequenceOwner : Factual (f.sequenceOwner n p) := by
  refine .bind feature fun g => ?_
  split
  · exact .pure _
  · exact .bind label fun _ => .throw rfl

theorem optionForM {k : NodeId → Except Fault Unit} (hk : ∀ c, Factual (k c)) (o : Option NodeId) :
    Factual (o.forM k) := by
  cases o with
  | none => exact .pure _
  | some c => exact hk c

theorem admitValue : Factual (f.admitValue n p v) :=
  .bind typeOf fun _ => .bind conformSlot fun _ => .bind requireTargets fun _ =>
    .bind owned fun _ => .bind (requireDistinct _ _) fun _ =>
      .bind (.forM (fun _ => requireAcyclic) _) fun _ => .pure _

theorem admitItem : Factual (f.admitItem n p i v) :=
  .bind itemsOf fun _ => .guarded rfl (.bind typeOf fun _ => .bind conformItem fun _ =>
    .bind requireTargets fun _ => .bind feature fun _ =>
      .bind (optionForM (fun _ => requireNewcomer) _) fun _ => .pure _)

theorem admitEntry : Factual (f.admitEntry n i p v) :=
  .bind sequenceOwner fun _ => .bind sequence fun _ => .guarded rfl (.bind typeOf fun _ =>
    .bind conformEntry fun _ => .bind requireTargets fun _ => .bind feature fun _ =>
      .bind (optionForM (fun _ => requireNewcomer) _) fun _ => .pure _)

theorem whereabouts : Factual (f.whereabouts n) := by
  unfold Forest.whereabouts
  split
  · exact .pure _
  · refine .bind feature fun g => ?_
    split
    · refine .bind sequence fun entries => ?_
      split
      · exact .pure _
      · exact .throw rfl
    · refine .ite (.bind itemsOf fun items => ?_) (.pure _)
      split
      · exact .pure _
      · exact .throw rfl

end forest

/-! ## Journals -/

section journal

variable {f : Forest} {N : Notice} {strict : Bool} {j : Journal} {roots ns : List NodeId}

/-- A recorder refuses a change for what it is, and not for when it comes. -/
theorem plan : Factual (Tracking.plan strict f N) := by
  have hmovement : Factual (Tracking.movement f N) := by
    unfold Tracking.movement
    split
    · exact .pure _
    · exact .bind owned fun _ => .pure _
    · exact .bind owned fun _ => .pure _
    · exact .bind owned fun _ => .bind owned fun _ => .pure _
    · exact .bind owned fun _ => .bind owned fun _ => .pure _
  exact .bind typeOf fun _ => .bind schemaFeature fun _ =>
    .guarded rfl (.bind hmovement fun _ => .bind slot fun _ => .pure _)

theorem isStructural {x : PriorState} : Factual (Revert.isStructural f x) :=
  .bind feature fun _ => .pure _

theorem reduce {prune : Bool} : Factual (j.reduce f prune).1 := by
  have hcurrent : ∀ x, Factual (Journal.isCurrent f x) := fun x => .bind slot fun _ => .pure _
  have hnode : ∀ rs, Factual (Journal.reduceNode f prune rs) := by
    intro rs
    unfold Journal.reduceNode
    exact .filterM (fun x => .ite (.bind (hcurrent x) fun _ => .pure _) (.pure _)) _
  unfold Journal.reduce
  dsimp only
  split
  · next fault h => exact .error (mapM (fun _ => .bind (hnode _) fun _ => .pure _) _ fault h)
  · exact .pure _

theorem verifyCreated : Factual (Revert.verifyCreated f roots ns) := by
  induction ns with
  | nil => exact .pure _
  | cons n ns ih =>
    unfold Revert.verifyCreated
    exact .guarded rfl (.bind ih fun _ => .pure _)

theorem verifyLeft : Factual (Revert.verifyLeft f j ns) := by
  induction ns with
  | nil => exact .pure _
  | cons n ns ih =>
    unfold Revert.verifyLeft
    exact .ite ih (.ite (.throw rfl) (.bind ih fun _ => .pure _))

theorem verify : Factual (Revert.verify f j) :=
  .bind verifyCreated fun _ => .bind verifyLeft fun _ => .pure _

end journal

end Factual

end TrackedGraph
