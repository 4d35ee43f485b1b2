/-
Edits that succeed were refused nothing.

A refusal ends the edit that it falls on, and what an edit does after a failure only makes
good what went before. So what is known of an edit as long as nobody refuses is known of
every edit that succeeds. It is shown here of those edits that reverting is made of, by one
rule for each way of putting edits together.
-/
import TrackedGraph.Proofs.Document.Step
import TrackedGraph.Proofs.Document.Composing

set_option autoImplicit false

namespace TrackedGraph

/-! ## Silence -/

/-- Nothing was announced in between, and nothing refused. -/
structure Document.Silent {τ : Type} (d d' : Document τ) : Prop where
  history : d'.history = d.history
  refusals : d'.refusals = d.refusals

namespace Document.Silent

open Edit (Keeps)

variable {τ : Type} {d : Document τ} {n : NodeId} {p : PropertyId}

theorem setPlace (place : Option Place) :
    Keeps (Document.Silent d) (Edit.setPlace n place : Edit τ Unit) := by
  intro d' hd
  unfold Edit.setPlace
  split
  · exact hd
  · exact ⟨hd.history, hd.refusals⟩

theorem modifySlot (g : Slot → Slot) :
    Keeps (Document.Silent d) (Edit.modifySlot n p g : Edit τ Unit) := by
  intro d' hd
  unfold Edit.modifySlot
  split
  · exact hd
  · split
    · exact hd
    · exact ⟨hd.history, hd.refusals⟩

theorem advance : Keeps (Document.Silent d) (Edit.advance : Edit τ Unit) :=
  fun _ hd => ⟨hd.history, hd.refusals⟩

theorem unlink (children : List NodeId) :
    Keeps (Document.Silent d) (Edit.unlink children : Edit τ Unit) :=
  .forM (fun _ => setPlace none) children

theorem link (v : Value) (incoming : List NodeId) :
    Keeps (Document.Silent d) (Edit.link n p v incoming : Edit τ Unit) := by
  unfold Edit.link
  split
  · refine .forM (fun e => .bind (.query _) fun member => .ite ?_ (.pure ())) _
    split
    · exact setPlace _
    · exact .pure ()
  · exact .forM (fun _ => setPlace _) _

/-- **Writing a slot** is not announced; what announces a change does so before. -/
theorem overwrite (v : Value) (isSet : Bool) :
    Keeps (Document.Silent d) (Edit.overwrite n p v isSet : Edit τ Unit) :=
  .bind (.query _) fun _ => .bind (.query _) fun _ => .bind (.query _) fun _ =>
    .bind (unlink _) fun _ => .bind (link _ _) fun _ => .bind (modifySlot _) fun _ => advance

end Document.Silent

namespace Edit

variable {τ α β : Type} {x : Edit τ α} {k : α → Edit τ β}

/-- If the edit succeeds, then nobody has refused anything. -/
def Unrefused (x : Edit τ α) : Prop :=
  ∀ d a, (x d).1 = .ok a → (x d).2.refusals = d.refusals

namespace Unrefused

/-- How an edit ends, with nobody having refused if it succeeds. -/
theorem ends {Q : Except Fault α → Document τ → Prop} {d : Document τ} (hx : Unrefused x)
    (h : x.Ends d Q) :
    x.Ends d fun r d' => (∀ a, r = .ok a → d'.refusals = d.refusals) ∧ Q r d' := ⟨hx d, h⟩

/-! ## Rules -/

theorem of_quiet (h : ∀ d, (x d).2.refusals = d.refusals) : Unrefused x := fun d _ _ => h d

theorem pure (a : α) : Unrefused (pure a : Edit τ α) := of_quiet fun _ => rfl

theorem throw (e : Fault) : Unrefused (throw e : Edit τ α) := of_quiet fun _ => rfl

theorem query (q : Forest → Except Fault α) : Unrefused (Edit.query q : Edit τ α) :=
  of_quiet fun _ => rfl

theorem bind (hx : Unrefused x) (hk : ∀ a, Unrefused (k a)) : Unrefused (x >>= k) := by
  intro d b hb
  rw [bind_apply] at hb ⊢
  rcases h : x d with ⟨r, d'⟩
  rw [h] at hb
  have hr := hx d
  rw [h] at hr
  cases r with
  | error e => exact absurd hb (by simp)
  | ok a => exact (hk a d' b hb).trans (hr a rfl)

theorem forM {ι : Type} {k : ι → Edit τ Unit} (hk : ∀ i, Unrefused (k i)) (l : List ι) :
    Unrefused (l.forM k) := by
  induction l with
  | nil => exact .pure ()
  | cons i l ih => exact .bind (hk i) fun _ => ih

/-- If the edit succeeds, nothing was mended. -/
theorem mending {repair : Edit τ Unit} (hx : Unrefused x) : Unrefused (x.mending repair) := by
  intro d a ha
  have hr := hx d
  unfold Edit.mending at ha ⊢
  rcases h : x d with ⟨_ | _, d'⟩
  · rw [h] at ha
    exact absurd ha (by simp)
  · rw [h] at hr
    exact hr _ rfl

/-! ## Steps -/

theorem poll (N : Notice) : Unrefused (Edit.poll N : Edit τ Unit) := by
  intro d _ h
  rw [refusals_poll]
  exact Nat.add_eq_left.mpr (if_pos h)

theorem announce (N : Notice) : Unrefused (Edit.announce N : Edit τ Unit) := by
  intro d _ h
  rw [refusals_announce]
  exact Nat.add_eq_left.mpr (if_pos h)

/-! ## Writing -/

theorem of_silent (h : ∀ d, Keeps (Document.Silent d) x) : Unrefused x :=
  of_quiet fun d => (h d d ⟨rfl, rfl⟩).refusals

theorem createOf (t : TypeId) : Unrefused (Edit.createOf t : Edit τ NodeId) := of_quiet fun d => by
  unfold Edit.createOf
  split <;> rfl

theorem compositional : Compositional fun _ (x : Edit τ _) => Unrefused x where
  pure := .pure
  throw e _ := .throw e
  bind := .bind
  mending hx _ := .mending hx
  query q _ := .query q
  poll := .poll
  announce := .announce
  setPlace _ place := of_silent fun _ => .setPlace place
  modifySlot _ _ g := of_silent fun _ => .modifySlot g
  createOf := .createOf
  advance := of_silent fun _ => .advance

end Unrefused

end Edit

namespace Revert

variable {τ : Type} {x : PriorState}

theorem unrefused_clear : (clear x : Edit τ Unit).Unrefused := Edit.Unrefused.compositional.clear x

theorem unrefused_restore : (restore x : Edit τ Unit).Unrefused :=
  Edit.Unrefused.compositional.restore x

/-- **Bringing states back** succeeds only if nobody refuses. -/
theorem unrefused_writeBack (structural plain : List PriorState) :
    (writeBack structural plain : Edit τ Unit).Unrefused :=
  Edit.Unrefused.compositional.writeBack structural plain

end Revert

end TrackedGraph
