/-
What edits are made of.

Whatever an edit does to a document it does in steps of six kinds. The audience is asked;
it is told of a change and refuses; it accepts, and the change is written; it accepts and
nothing is written, which happens to an `unset` whose default names a property that does
not exist; a node is created; the refusals during a repair are counted. A `Step` is one
of these and a `Chain` is a sequence of them. That every edit is a chain is shown edit by
edit in the files that follow, so a property of all runs has to be shown of one step
only.

The notice of a change describes what is written (`Notice.Describes`). With `strict` the
steps keep places and slots in agreement, and the children that a change moves are those
that recorders compute from its notice.
-/
import TrackedGraph.Proofs.Document.Ends
import TrackedGraph.Proofs.Notice

set_option autoImplicit false

open Relation

namespace TrackedGraph

variable {τ : Type} {strict : Prop} {d d' d'' : Document τ}

/-- The property may be unset: it has a slot of its own, and a default that is mixed
content names properties that exist. -/
def Forest.CanUnset (f : Forest) (n : NodeId) (p : PropertyId) : Prop :=
  ∃ g, f.feature n p = .ok g ∧ g.owner = none ∧
    ∀ e ∈ g.restValue.entries, ∃ h, f.feature n e.property = .ok h

instance (f : Forest) (n : NodeId) (p : PropertyId) : Decidable (f.CanUnset n p) :=
  match hg : f.feature n p with
  | .error _ => .isFalse fun ⟨_, h, _⟩ => by simp [hg] at h
  | .ok g => decidable_of_iff
      (g.owner = none ∧ ∀ e ∈ g.restValue.entries, (f.feature n e.property).isOk = true) <| by
        have hok : ∀ q, (f.feature n q).isOk = true ↔ ∃ h, f.feature n q = .ok h := fun q => by
          cases f.feature n q <;> simp [Except.isOk, Except.toBool]
        simp [Forest.CanUnset, hg, hok]

/-- The change can be written once it is accepted. Only an `unset` may fail then. -/
def Forest.CanWrite (f : Forest) (N : Notice) : Prop :=
  N.kind = .unset → f.CanUnset N.node N.property

instance (f : Forest) (N : Notice) : Decidable (f.CanWrite N) :=
  inferInstanceAs (Decidable (N.kind = .unset → f.CanUnset N.node N.property))

/-- The children that a recorder sees leave and enter are those that the change frees
and takes. -/
def Moves (f : Forest) (N : Notice) (old : Slot) (freed : List NodeId)
    (taken : List (NodeId × PropertyId)) : Prop :=
  ∃ leaving entering, Tracking.movement f N = .ok (leaving, entering) ∧
    (∀ c, c ∈ leaving ↔ c ∈ freed) ∧
    ∀ c, c ∈ entering ↔
      c ∈ taken.map Prod.fst ∧ c ∉ (f.claims N.node N.property old.value).map Prod.fst

/-- One step of an edit. -/
inductive Step (strict : Prop) : Document τ → Document τ → Prop
  /-- The audience is asked. -/
  | asked (d : Document τ) (N : Notice) : Step strict d (Edit.poll N d).2
  /-- The audience refuses a change. -/
  | refused (d : Document τ) (N : Notice) (e : Fault)
      (h : (Edit.announce N d).1 = .error e) : Step strict d (Edit.announce N d).2
  /-- The audience accepts a change, which is written. -/
  | changed (d : Document τ) (N : Notice) (g : Feature) (old new : Slot) (freed : List NodeId)
      (taken : List (NodeId × PropertyId)) (h : (Edit.announce N d).1 = .ok ())
      (hc : d.forest.CanWrite N)
      (hw : d.forest.Rewrite strict N.node N.property g old new freed taken)
      (hm : strict → Moves d.forest N old freed taken) (hd : N.Describes old new) :
      Step strict d { (Edit.announce N d).2 with
        forest := d.forest.write N.node N.property new freed taken
        generation := d.generation + 1 }
  /-- The audience accepts a change, which moves no child and cannot be written. -/
  | unwritten (d : Document τ) (N : Notice) (g : Feature) (h : (Edit.announce N d).1 = .ok ())
      (hn : ¬ d.forest.CanWrite N) (hg : d.forest.feature N.node N.property = .ok g) (ho : g.owner = none)
      (hm : Tracking.movement d.forest N = .ok ([], []))
      (ht : ∃ s, d.forest.slot N.node N.property = .ok s ∧ N.Truthful s) :
      Step strict d (Edit.announce N d).2
  /-- A node is created. -/
  | created (d : Document τ) (t : TypeId) (n : NodeId) (f : Forest)
      (h : d.forest.create t = .ok (n, f)) : Step strict d { d with forest := f }
  /-- The refusals during a repair are counted. -/
  | counted (d : Document τ) (k : Nat) : Step strict d { d with repairRefusals := k }

/-- Any number of steps. -/
def Chain (strict : Prop) : Document τ → Document τ → Prop := ReflTransGen (Step strict)

theorem Chain.refl : Chain strict d d := ReflTransGen.refl

theorem Chain.trans (h : Chain strict d d') (h' : Chain strict d' d'') : Chain strict d d'' :=
  ReflTransGen.trans h h'

theorem Step.chain (h : Step strict d d') : Chain strict d d' := ReflTransGen.single h

/-! ## Asking and telling -/

/-- The veto that is written down of a change, if it is refused. -/
def Veto.noted (N : Notice) (d : Document τ) : Except Fault Unit → List (Veto τ)
  | .ok _ => []
  | .error e => [⟨⟨N, d.forest⟩, (d.audience.subscriptions.has · N.node), d.audience.memory, e⟩]

/-- Asking leaves the document as it is, up to the audience and the vetoes. -/
theorem poll_apply (N : Notice) (d : Document τ) :
    ((Edit.poll N d).1 = (d.audience.poll d.forest N).1) ∧
      (Edit.poll N d).2 = { d with
        audience := (d.audience.poll d.forest N).2
        vetoes := d.vetoes ++ Veto.noted N d (Edit.poll N d).1 } := by
  unfold Edit.poll
  rcases d.audience.poll d.forest N with ⟨_ | _, a⟩ <;> simp [Veto.noted]

theorem announce_apply (N : Notice) (d : Document τ) :
    ((Edit.announce N d).1 = (d.audience.announce d.forest N).1) ∧
      (Edit.announce N d).2 = { d with
        audience := (d.audience.announce d.forest N).2
        history := d.history ++ if (Edit.announce N d).1 = .ok () then [⟨N, d.forest⟩] else []
        vetoes := d.vetoes ++ Veto.noted N d (Edit.announce N d).1 } := by
  unfold Edit.announce
  rcases d.audience.announce d.forest N with ⟨_ | _, a⟩ <;> simp [Veto.noted]

theorem refusals_poll (N : Notice) : (Edit.poll N d).2.refusals =
    d.refusals + if (Edit.poll N d).1 = .ok () then 0 else 1 := by
  rw [(poll_apply N d).2, Document.refusals, List.length_append]
  cases (Edit.poll N d).1 <;> simp [Veto.noted, Document.refusals]

theorem refusals_announce (N : Notice) : (Edit.announce N d).2.refusals =
    d.refusals + if (Edit.announce N d).1 = .ok () then 0 else 1 := by
  rw [(announce_apply N d).2, Document.refusals, List.length_append]
  cases (Edit.announce N d).1 <;> simp [Veto.noted, Document.refusals]

@[simp] theorem forest_poll (N : Notice) : (Edit.poll N d).2.forest = d.forest := by
  rw [(poll_apply N d).2]

@[simp] theorem forest_announce (N : Notice) : (Edit.announce N d).2.forest = d.forest := by
  rw [(announce_apply N d).2]

theorem audience_announce (N : Notice) :
    (Edit.announce N d).2.audience = (d.audience.announce d.forest N).2 := by
  rw [(announce_apply N d).2]

theorem generation_poll (N : Notice) : (Edit.poll N d).2.generation = d.generation := by
  rw [(poll_apply N d).2]

theorem generation_announce (N : Notice) : (Edit.announce N d).2.generation = d.generation := by
  rw [(announce_apply N d).2]

theorem history_poll (N : Notice) : (Edit.poll N d).2.history = d.history := by
  rw [(poll_apply N d).2]

theorem history_announce_ok {N : Notice} (h : (Edit.announce N d).1 = .ok ()) :
    (Edit.announce N d).2.history = d.history ++ [⟨N, d.forest⟩] := by
  rw [(announce_apply N d).2, if_pos h]

theorem history_announce_error {N : Notice} {e : Fault} (h : (Edit.announce N d).1 = .error e) :
    (Edit.announce N d).2.history = d.history := by
  rw [(announce_apply N d).2, h, if_neg (by simp), List.append_nil]

/-- A change that is accepted is among those that are added to the history. -/
theorem mem_of_announced {N : Notice} {l : List Announcement} (h : (Edit.announce N d).1 = .ok ())
    (hl : (Edit.announce N d).2.history = d.history ++ l) : ⟨N, d.forest⟩ ∈ l := by
  rw [history_announce_ok h] at hl
  rw [← List.append_cancel_left hl]
  exact List.mem_singleton_self _

/-- Whoever is asked accepts, or the refusal is counted. -/
theorem poll_ends (strict : Prop) (N : Notice) : (Edit.poll N).Ends d fun r d' =>
    Chain strict d d' ∧ d'.forest = d.forest ∧ d'.repairRefusals = d.repairRefusals ∧
      (r = .ok () ∨ d.refusals < d'.refusals) := by
  refine ⟨(Step.asked d N).chain, forest_poll N, by rw [(poll_apply N d).2], ?_⟩
  by_cases h : (Edit.poll N d).1 = .ok ()
  · exact .inl h
  · right
    rw [refusals_poll, if_neg h]
    exact Nat.lt_succ_self _

/-! ## What steps keep -/

/-- **Steps keep a forest sound.** -/
theorem Step.sound (h : Step strict d d') (hf : d.forest.Sound strict) :
    d'.forest.Sound strict := by
  cases h with
  | asked N =>
    rw [forest_poll]
    exact hf
  | refused N e h =>
    rw [forest_announce]
    exact hf
  | changed N g old new freed taken h hc hw hm => exact hf.write hw
  | unwritten N g h hn hg ho hm =>
    rw [forest_announce]
    exact hf
  | created t n f h => exact hf.create h
  | counted k => exact hf

theorem Chain.sound (h : Chain strict d d') (hf : d.forest.Sound strict) :
    d'.forest.Sound strict := by
  induction h with
  | refl => exact hf
  | tail _ hs ih => exact hs.sound ih

theorem Step.schema (h : Step strict d d') : d'.forest.schema = d.forest.schema := by
  cases h with
  | asked N => rw [forest_poll]
  | refused N e h => rw [forest_announce]
  | changed N g old new freed taken h hc hw hm => exact Forest.schema_write
  | unwritten N g h hn hg ho hm => rw [forest_announce]
  | created t n f h => exact Forest.schema_create h
  | counted k => rfl

theorem Chain.schema (h : Chain strict d d') : d'.forest.schema = d.forest.schema := by
  induction h with
  | refl => rfl
  | tail _ hs ih => exact hs.schema.trans ih

/-- Nodes stay, and stay of their type. -/
theorem Step.typeOf {m : NodeId} {u : TypeId} (h : Step strict d d')
    (hm : d.forest.typeOf m = .ok u) : d'.forest.typeOf m = .ok u := by
  cases h with
  | asked N =>
    rw [forest_poll]
    exact hm
  | refused N e h =>
    rw [forest_announce]
    exact hm
  | changed N g old new freed taken h hc hw _ => exact Forest.typeOf_write.trans hm
  | unwritten N g h _ _ _ _ =>
    rw [forest_announce]
    exact hm
  | created t n f h => exact Forest.typeOf_create_of_ok h hm
  | counted k => exact hm

theorem Chain.typeOf {m : NodeId} {u : TypeId} (h : Chain strict d d')
    (hm : d.forest.typeOf m = .ok u) : d'.forest.typeOf m = .ok u := by
  induction h with
  | refl => exact hm
  | tail _ hs ih => exact hs.typeOf ih

theorem Step.root (h : Step strict d d') : d'.root = d.root := by
  cases h with
  | asked N => rw [(poll_apply N d).2]
  | refused N e h => rw [(announce_apply N d).2]
  | changed N g old new freed taken h hc hw hm => simp only [(announce_apply N d).2]
  | unwritten N g h hn hg ho hm => rw [(announce_apply N d).2]
  | _ => rfl

/-- Refusals are not forgotten. -/
theorem Step.refusals_le (h : Step strict d d') : d.refusals ≤ d'.refusals := by
  cases h with
  | asked N =>
    rw [refusals_poll]
    exact Nat.le_add_right ..
  | refused N e h =>
    rw [refusals_announce]
    exact Nat.le_add_right ..
  | changed N g old new freed taken h hc hw hm =>
    show d.refusals ≤ (Edit.announce N d).2.refusals
    rw [refusals_announce]
    exact Nat.le_add_right ..
  | unwritten N g h hn hg ho hm =>
    rw [refusals_announce]
    exact Nat.le_add_right ..
  | _ => exact Nat.le_refl _

theorem Chain.refusals_le (h : Chain strict d d') : d.refusals ≤ d'.refusals := by
  induction h with
  | refl => exact Nat.le_refl _
  | tail _ hs ih => exact Nat.le_trans ih hs.refusals_le

/-- A step adds one accepted change to the history at most. -/
theorem Step.history_cases (h : Step strict d d') :
    d'.history = d.history ∨ ∃ a, d'.history = d.history ++ [a] := by
  cases h with
  | asked N => exact .inl (history_poll N)
  | refused N e h => exact .inl (history_announce_error h)
  | changed N g old new freed taken h hc hw hm => exact .inr ⟨_, history_announce_ok h⟩
  | unwritten N g h hn hg ho hm => exact .inr ⟨_, history_announce_ok h⟩
  | _ => exact .inl rfl

/-- Accepted changes are not forgotten either. -/
theorem Step.history_le (h : Step strict d d') : ∃ l, d'.history = d.history ++ l := by
  rcases h.history_cases with h | ⟨a, h⟩
  · exact ⟨[], h.trans (List.append_nil _).symm⟩
  · exact ⟨[a], h⟩

theorem Chain.history_le (h : Chain strict d d') : ∃ l, d'.history = d.history ++ l := by
  induction h with
  | refl => exact ⟨[], (List.append_nil _).symm⟩
  | tail _ hs ih =>
    obtain ⟨l, hl⟩ := ih
    obtain ⟨l', hl'⟩ := hs.history_le
    exact ⟨l ++ l', by rw [hl', hl, List.append_assoc]⟩

/-- What is added to the history is what its two parts add. -/
theorem Document.history_append {l l₁ l₂ : List Announcement} (h₁ : d'.history = d.history ++ l₁)
    (h₂ : d''.history = d'.history ++ l₂) (hl : d''.history = d.history ++ l) : l = l₁ ++ l₂ := by
  rw [h₂, h₁, List.append_assoc] at hl
  exact (List.append_cancel_left hl).symm

/-- Where the history is as it was, nothing is added to it. -/
theorem Document.history_same {l : List Announcement} (hl : d'.history = d.history ++ l)
    (h : d'.history = d.history) : l = [] :=
  List.append_cancel_left ((hl.symm.trans h).trans (List.append_nil _).symm)

/-- Where a change is accepted and no other is announced, it is what is added. -/
theorem Document.history_announced {l : List Announcement} {N : Notice}
    (hl : d'.history = d.history ++ l) (hok : (Edit.announce N d).1 = .ok ())
    (h : d'.history = (Edit.announce N d).2.history) : l = [⟨N, d.forest⟩] := by
  rw [history_announce_ok hok, hl] at h
  exact List.append_cancel_left h

/-- **Induction along a chain** with what it adds to the history: what holds at the start with
nothing added, and is kept by each step with what that adds, holds at the end with all of it. -/
theorem Chain.history_induction {P : List Announcement → Document τ → Prop}
    {l : List Announcement} (h : Chain strict d d') (hl : d'.history = d.history ++ l)
    (start : P [] d) (step : ∀ l₁ d₁ l₂ d₂, Chain strict d d₁ → Step strict d₁ d₂ →
      d₂.history = d₁.history ++ l₂ → P l₁ d₁ → P (l₁ ++ l₂) d₂) : P l d' := by
  induction h generalizing l with
  | refl =>
    rw [Document.history_same hl rfl]
    exact start
  | @tail d₁ d₂ hc hs ih =>
    obtain ⟨l₁, hl₁⟩ := Chain.history_le hc
    obtain ⟨l₂, hl₂⟩ := hs.history_le
    rw [Document.history_append hl₁ hl₂ hl]
    exact step l₁ d₁ l₂ d₂ hc hs hl₂ (ih hl₁)

/-! ## A change that is announced and written -/

/-- What is known of an edit that announces a change and writes it if it is accepted. -/
def Announced {α : Type} (strict : Prop) (d : Document τ) (f : Forest) (a : α)
    (r : Except Fault α) (d' : Document τ) : Prop :=
  Chain strict d d' ∧ d'.repairRefusals = d.repairRefusals ∧ (r = .ok a ∧ d'.forest = f ∨
    (∃ e, r = .error e) ∧ d'.forest = d.forest ∧ d.refusals < d'.refusals)

/-- **Announcing and writing.** The part `w` after the announcement has to write what
the change asks for. -/
theorem announce_ends {α : Type} {N : Notice} {g : Feature} {old new : Slot}
    {freed : List NodeId} {taken : List (NodeId × PropertyId)} {w : Unit → Edit τ α} {a : α}
    (hc : d.forest.CanWrite N) (hw : d.forest.Rewrite strict N.node N.property g old new freed taken)
    (hm : strict → Moves d.forest N old freed taken) (hd : N.Describes old new)
    (hwrite : ∀ d₁ : Document τ, d₁.forest = d.forest → w () d₁ = (.ok a, { d₁ with
      forest := d.forest.write N.node N.property new freed taken
      generation := d₁.generation + 1 })) :
    (Edit.announce N >>= w).Ends d
      (Announced strict d (d.forest.write N.node N.property new freed taken) a) := by
  unfold Edit.Ends
  rw [Edit.bind_apply]
  rcases h : Edit.announce N d with ⟨r, d₁⟩
  have h₁ : (Edit.announce N d).1 = r := congrArg Prod.fst h
  have h₂ : (Edit.announce N d).2 = d₁ := congrArg Prod.snd h
  cases r with
  | ok _ =>
    have hd₁ : d₁.forest = d.forest := by rw [← h₂, forest_announce]
    simp only [hwrite d₁ hd₁]
    refine ⟨?_, by rw [← h₂, (announce_apply N d).2], .inl ⟨rfl, rfl⟩⟩
    have hstep := Step.changed d N g old new freed taken h₁ hc hw hm hd
    rw [h₂] at hstep
    have hgen : d₁.generation = d.generation := by rw [← h₂, (announce_apply N d).2]
    rw [hgen]
    exact hstep.chain
  | error e =>
    refine ⟨?_, ?_, .inr ⟨⟨e, rfl⟩, by rw [← h₂, forest_announce], ?_⟩⟩
    · rw [← h₂]
      exact (Step.refused d N e h₁).chain
    · show d₁.repairRefusals = d.repairRefusals
      rw [← h₂, (announce_apply N d).2]
    · show d.refusals < d₁.refusals
      rw [← h₂, refusals_announce, h₁]
      exact Nat.lt_succ_self _

/-- Announcing a change that cannot be written. -/
theorem announce_fails {α : Type} {N : Notice} {g : Feature} {w : Unit → Edit τ α}
    (hn : ¬ d.forest.CanWrite N) (hg : d.forest.feature N.node N.property = .ok g) (ho : g.owner = none)
    (hm : Tracking.movement d.forest N = .ok ([], []))
    (ht : ∃ s, d.forest.slot N.node N.property = .ok s ∧ N.Truthful s)
    (hwrite : ∀ d₁ : Document τ, d₁.forest = d.forest → ∃ e, w () d₁ = (.error e, d₁)) :
    (Edit.announce N >>= w).Ends d fun r d' =>
      Chain strict d d' ∧ d'.repairRefusals = d.repairRefusals ∧ (∃ e, r = .error e) ∧
        d'.forest = d.forest := by
  unfold Edit.Ends
  rw [Edit.bind_apply]
  rcases h : Edit.announce N d with ⟨r, d₁⟩
  have h₁ : (Edit.announce N d).1 = r := congrArg Prod.fst h
  have h₂ : (Edit.announce N d).2 = d₁ := congrArg Prod.snd h
  have hd₁ : d₁.forest = d.forest := by rw [← h₂, forest_announce]
  cases r with
  | ok _ =>
    -- It was announced and is not written: the journals have heard of a change that never came.
    obtain ⟨e, he⟩ := hwrite d₁ hd₁
    simp only [he]
    refine ⟨?_, by rw [← h₂, (announce_apply N d).2], ⟨e, rfl⟩, hd₁⟩
    rw [← h₂]
    exact (Step.unwritten d N g h₁ hn hg ho hm ht).chain
  | error e =>
    refine ⟨?_, ?_, ⟨e, rfl⟩, hd₁⟩
    · rw [← h₂]
      exact (Step.refused d N e h₁).chain
    · show d₁.repairRefusals = d.repairRefusals
      rw [← h₂, (announce_apply N d).2]

end TrackedGraph
