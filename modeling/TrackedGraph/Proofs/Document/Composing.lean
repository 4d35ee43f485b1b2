/-
What edits are put together from.

An edit asks the forest and the audience, announces, writes and creates, and it does so one
after the other, with a repair where it can fail on the way. So a condition on edits that holds
of these steps, and of what is put together from edits that it holds of, holds of every edit
(`Edit.Compositional.mutation`). Some conditions hold of fewer steps: nothing enters a slot, or
no place is gained. They still hold of the edits that only let children go (`Edit.Releasing`).
The way through the edits is gone here once; what such a condition is good for is the matter of
those who have one.

Nothing is known of the forest on this way but that no question to it is refused for the sake of
a session (`Factual`). A condition that depends on what was asked before, and not on the steps
alone, needs a way of its own.
-/
import TrackedGraph.Proofs.Document.Ends
import TrackedGraph.Proofs.Forest.Faults
import TrackedGraph.Document.Mutation
import TrackedGraph.Revert

set_option autoImplicit false

namespace TrackedGraph

variable {τ α : Type}

namespace Edit

/-- A condition on edits that holds of what is put together from edits that it holds of. -/
structure Composable (C : ∀ α : Type, Edit τ α → Prop) : Prop where
  pure : ∀ {α : Type} (a : α), C α (pure a)
  throw : ∀ {α : Type} (e : Fault), e.ofSession = false → C α (throw e)
  bind : ∀ {α β : Type} {x : Edit τ α} {k : α → Edit τ β}, C α x → (∀ a, C β (k a)) →
    C β (x >>= k)
  query : ∀ {α : Type} (q : Forest → Except Fault α), (∀ f, Factual (q f)) → C α (Edit.query q)

/-- A condition that holds also of the steps by which children are let go. -/
structure Releasing (C : ∀ α : Type, Edit τ α → Prop) : Prop extends Composable C where
  announce : ∀ N, N.kind = .remove ∨ N.kind = .move → C Unit (Edit.announce N)
  free : ∀ c, C Unit (Edit.setPlace c none)
  modifySlot : ∀ n p g, C Unit (Edit.modifySlot n p g)
  advance : C Unit Edit.advance

/-- A condition that holds of every step. -/
structure Compositional (C : ∀ α : Type, Edit τ α → Prop) : Prop extends Composable C where
  mending : ∀ {α : Type} {x : Edit τ α} {repair : Edit τ Unit}, C α x → C Unit repair →
    C α (x.mending repair)
  poll : ∀ N, C Unit (Edit.poll N)
  announce : ∀ N, C Unit (Edit.announce N)
  setPlace : ∀ n place, C Unit (Edit.setPlace n place)
  modifySlot : ∀ n p g, C Unit (Edit.modifySlot n p g)
  createOf : ∀ t, C NodeId (Edit.createOf t)
  advance : C Unit Edit.advance

/-- What documents keep is a condition of this sort. -/
theorem Keeps.composable {P : Document τ → Prop} :
    Composable fun _ (x : Edit τ _) => Keeps P x where
  pure := .pure
  throw e _ := .throw e
  bind := .bind
  query q _ := .query q

variable {C : ∀ α : Type, Edit τ α → Prop} {n : NodeId} {p : PropertyId}

/-- Whichever of the two is gone through. -/
theorem either {c : Prop} [Decidable c] {x y : Edit τ α} (hx : C α x) (hy : C α y) :
    C α (if c then x else y) := by
  split
  · exact hx
  · exact hy

theorem Composable.forM (h : Composable C) {ι : Type} {k : ι → Edit τ Unit}
    (hk : ∀ i, C Unit (k i)) (l : List ι) : C Unit (l.forM k) := by
  induction l with
  | nil => exact h.pure ()
  | cons i l ih => exact h.bind (hk i) fun _ => ih

/-! ## Edits that let children go -/

namespace Releasing

variable (h : Releasing C)

include h

theorem unlink (children : List NodeId) : C Unit (Edit.unlink children) :=
  h.forM h.free children

theorem remove (index : Nat) : C Value (Edit.remove n p index) := by
  refine h.bind (h.query _ fun _ => .itemsOf) fun items => ?_
  split
  · exact h.throw _ rfl
  · next item _ =>
    have hrest : C Value (do
        Edit.modifySlot n p (·.removeItem index)
        Edit.advance
        return item) :=
      h.bind (h.modifySlot _ _ _) fun _ => h.bind h.advance fun _ => h.pure _
    refine h.bind (h.announce _ (.inl rfl)) fun _ => h.bind (h.query _ fun _ => .feature)
      fun _ => ?_
    exact either (h.bind (h.unlink _) fun _ => hrest) hrest

theorem removeMixed (index : Nat) : C (Entry Value) (Edit.removeMixed n index) := by
  refine h.bind (h.query _ fun _ => .typeOf) fun t => h.bind (h.query _ fun _ => ?_) fun mixed =>
    h.bind (h.query _ fun _ => .sequence) fun entries => ?_
  · split
    · exact .pure _
    · exact .error rfl
  split
  · exact h.throw _ rfl
  · next entry _ =>
    have hrest : C (Entry Value) (do
        Edit.modifySlot n mixed (·.removeEntry index)
        Edit.advance
        return entry) :=
      h.bind (h.modifySlot _ _ _) fun _ => h.bind h.advance fun _ => h.pure _
    refine h.bind (h.announce _ (.inl rfl)) fun _ => h.bind (h.query _ fun _ => .feature)
      fun _ => ?_
    exact either (h.bind (h.unlink _) fun _ => hrest) hrest

theorem move (source target : Nat) : C Unit (Edit.move n p source target) := by
  refine h.bind (h.query _ fun _ => .itemsOf) fun items => ?_
  split
  · exact h.throw _ rfl
  · next item _ =>
    have hrest : C Unit (do
        Edit.announce ⟨n, p, .move, .int source, item, some target, true⟩
        Edit.modifySlot n p (·.moveItem source target)
        Edit.advance) :=
      h.bind (h.announce _ (.inr rfl)) fun _ => h.bind (h.modifySlot _ _ _) fun _ => h.advance
    exact either (h.bind (h.throw _ rfl) fun _ => hrest) hrest

/-- **Releasing a child**, given how a single value is emptied. -/
theorem release (hnull : ∀ n p, C Unit
      (Edit.replace (fun _ => Pure.pure []) (fun _ => Pure.pure ()) n p .null)) :
    C (List Whereabouts) (Edit.release n) := by
  refine h.bind (h.query _ fun _ => .whereabouts) fun w => ?_
  split
  · exact h.pure _
  · dsimp only
    split
    · exact h.bind (h.removeMixed _) fun _ => h.pure _
    · exact h.bind (h.remove _) fun _ => h.pure _
    · exact h.bind (hnull _ _) fun _ => h.pure _

end Releasing

/-! ## All edits -/

namespace Compositional

variable (h : Compositional C)

include h

theorem releasing : Releasing C where
  __ := h.toComposable
  announce N _ := h.announce N
  free c := h.setPlace c none
  modifySlot := h.modifySlot
  advance := h.advance

theorem link (v : Value) (incoming : List NodeId) : C Unit (Edit.link n p v incoming) := by
  unfold Edit.link
  split
  · refine h.forM (fun entry => h.bind (h.query _ fun _ => .bind .typeOf fun _ => .schemaFeature)
      fun member => either ?_ (h.pure ())) _
    split
    · exact h.setPlace _ _
    · exact h.pure ()
  · exact h.forM (fun c => h.setPlace c _) _

theorem overwrite (v : Value) (isSet : Bool) : C Unit (Edit.overwrite n p v isSet) :=
  h.bind (h.query _ fun _ => .slot) fun _ => h.bind (h.query _ fun _ => .owned) fun _ =>
    h.bind (h.query _ fun _ => .owned) fun _ => h.bind (h.releasing.unlink _) fun _ =>
      h.bind (h.link _ _) fun _ => h.bind (h.modifySlot _ _ _) fun _ => h.advance

theorem unset : C Unit (Edit.unset n p) := by
  refine h.bind (h.query _ fun _ => .feature) fun feature => ?_
  dsimp only
  have hrest : C Unit (do
      let slot ← Edit.query (·.slot n p)
      Edit.announce ⟨n, p, .unset, slot.value, feature.restValue, none, slot.isSet⟩
      Edit.overwrite n p feature.restValue false) :=
    h.bind (h.query _ fun _ => .slot) fun _ => h.bind (h.announce _) fun _ => h.overwrite _ _
  exact either (h.bind (h.query _ fun _ => .label) fun _ => h.bind (h.throw _ rfl) fun _ => hrest)
    hrest

section restoring

variable {restore : List Whereabouts → Edit τ Unit} (hrestore : ∀ ws, C Unit (restore ws))

include hrestore

theorem replace {release : List NodeId → Edit τ (List Whereabouts)} {v : Value}
    (hrelease : ∀ cs, C _ (release cs)) : C Unit (Edit.replace release restore n p v) :=
  h.bind (h.query _ fun _ => .admitValue) fun _ => h.bind (h.query _ fun _ => .slot) fun _ =>
    h.bind (h.poll _) fun _ => h.bind (hrelease _) fun _ =>
      h.bind (h.mending (h.announce _) (hrestore _)) fun _ =>
        h.bind (h.query _ fun _ => .feature) fun _ => h.overwrite _ _

omit hrestore in
theorem release : C (List Whereabouts) (Edit.release n) :=
  h.releasing.release fun _ _ => h.replace (fun _ => h.pure _) fun _ => h.pure _

theorem releaseAll {here : List NodeId} (cs : List NodeId) (moved : List Whereabouts) :
    C _ (Edit.releaseAll restore here moved cs) := by
  induction cs generalizing moved with
  | nil => exact h.pure moved
  | cons c cs ih =>
    unfold Edit.releaseAll
    exact either (ih moved)
      (h.bind (h.mending h.release (hrestore moved)) fun placed => ih (moved ++ placed))

theorem setBy (v : Value) : C Unit (Edit.setBy restore n p v) :=
  h.replace hrestore fun cs => h.bind (h.query _ fun _ => .slot) fun _ =>
    h.releaseAll hrestore cs []

theorem bringIn (N : Notice) (incoming : Option NodeId) (q : PropertyId) (w : Slot → Slot) :
    C Unit (Edit.bringIn restore N incoming q w) := by
  have hplace : C Unit (incoming.forM (Edit.setPlace · (some ⟨N.node, q⟩))) := by
    cases incoming with
    | none => exact h.pure _
    | some c => exact h.setPlace _ _
  have hend : ∀ moved, C Unit (do
      (Edit.announce N).mending (restore moved)
      incoming.forM (Edit.setPlace · (some ⟨N.node, q⟩))
      Edit.modifySlot N.node N.property w
      Edit.advance) := fun moved =>
    h.bind (h.mending (h.announce _) (hrestore moved)) fun _ => h.bind hplace fun _ =>
      h.bind (h.modifySlot _ _ _) fun _ => h.advance
  refine h.bind (h.poll _) fun _ => ?_
  cases incoming with
  | none => exact h.bind (h.pure _) hend
  | some c => exact h.bind h.release hend

theorem insertBy (index : Nat) (item : Value) : C Unit (Edit.insertBy restore n p index item) := by
  rw [Edit.insertBy_eq]
  exact h.bind (h.query _ fun _ => .admitItem) fun _ => h.bind (h.query _ fun _ => .slot) fun _ =>
    h.bringIn hrestore _ _ _ _

theorem insertMixedBy (index : Nat) (member : PropertyId) (v : Value) :
    C Unit (Edit.insertMixedBy restore n index member v) := by
  rw [Edit.insertMixedBy_eq]
  exact h.bind (h.query _ fun _ => .admitEntry) fun _ => h.bind (h.query _ fun _ => .slot) fun _ =>
    h.bringIn hrestore _ _ _ _

end restoring

theorem putBack (depth : Nat) (ws : List Whereabouts) : C Unit (Edit.putBack depth ws) := by
  induction depth generalizing ws with
  | zero => exact h.throw _ rfl
  | succ depth ih =>
    refine h.forM (fun w => ?_) _
    obtain ⟨child, ⟨container, p⟩, position⟩ := w
    cases position with
    | mixed i => exact h.insertMixedBy ih _ _ _
    | listed i => exact h.insertBy ih _ _
    | single => exact h.setBy ih _

theorem set (v : Value) : C Unit (Edit.set n p v) := h.setBy (h.putBack _) v

theorem insert (index : Nat) (item : Value) : C Unit (Edit.insert n p index item) :=
  h.insertBy (h.putBack _) _ _

theorem insertMixed (index : Nat) (member : PropertyId) (v : Value) :
    C Unit (Edit.insertMixed n index member v) :=
  h.insertMixedBy (h.putBack _) _ _ _

/-! ## Every edit -/

/-- **What is compositional holds of every edit.** -/
theorem mutation (m : Mutation) : C Mutation.Outcome m.run := by
  cases m with
  | create typeName =>
    exact h.bind (h.bind (h.query _ fun _ => .typeNamed _) fun t => h.createOf t) fun _ => h.pure _
  | createOf t => exact h.bind (h.createOf t) fun _ => h.pure _
  | set n p v => exact h.bind (h.set v) fun _ => h.pure _
  | unset n p => exact h.bind h.unset fun _ => h.pure _
  | add n p item =>
    exact h.bind (h.bind (h.query _ fun _ => .itemsOf) fun _ => h.insert _ _) fun _ => h.pure _
  | insert n p index item => exact h.bind (h.insert _ _) fun _ => h.pure _
  | remove n p index => exact h.bind (h.releasing.remove _) fun _ => h.pure _
  | move n p source target => exact h.bind (h.releasing.move _ _) fun _ => h.pure _
  | addMixed n member v =>
    exact h.bind (h.bind (h.query _ fun _ => .sequenceOwner) fun _ =>
      h.bind (h.query _ fun _ => .sequence) fun _ => h.insertMixed _ _ _) fun _ => h.pure _
  | insertMixed n index member v => exact h.bind (h.insertMixed _ _ _) fun _ => h.pure _
  | removeMixed n index => exact h.bind (h.releasing.removeMixed _) fun _ => h.pure _
  | detach n => exact h.bind (h.bind h.release fun _ => h.pure _) fun _ => h.pure _

/-! ## Bringing old states back -/

theorem clear (x : PriorState) : C Unit (Revert.clear x) :=
  h.bind (h.query _ fun _ => .feature) fun _ => h.set _

theorem restore (x : PriorState) : C Unit (Revert.restore x) := either (h.set _) h.unset

/-- **Bringing states back** is made of edits. -/
theorem writeBack (structural plain : List PriorState) :
    C Unit (Revert.writeBack structural plain) :=
  h.bind (h.forM h.clear _) fun _ => h.bind (h.forM h.restore _) fun _ => h.forM h.restore _

end Compositional

end Edit

end TrackedGraph
