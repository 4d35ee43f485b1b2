/-
Memos are never ahead of their journal.

Whatever is done with a recording, its journal holds no memo of a revision that it has not
reached yet (`Recording.Runs.dated`): what writes a memo notes the present revision, and
nothing lowers the revision. What an edit of the forest does is known from its being a chain of
steps, and of calls it is enough to look at what they are made of.
-/
import TrackedGraph.Proofs.Document.Intake
import TrackedGraph.Proofs.Journal.Views
import TrackedGraph.Proofs.Recording.Calling

set_option autoImplicit false

namespace TrackedGraph

variable {τ α : Type} {d d₁ : Document τ} {j j' : Journal} {k : Nat} {r : Recording}
  {N : Notice} {q : Tracking.Plan} {f : Forest}

namespace Journal

theorem dated_new : ({} : Journal).Dated :=
  ⟨fun m hm => absurd hm (by simp), fun m hm => absurd hm (by simp)⟩

theorem Dated.of_le (h : j.Dated) (hr : j.revision ≤ j'.revision)
    (hd : j'.deletedMemo = j.deletedMemo) (hp : j'.priorPlacesMemo = j.priorPlacesMemo) :
    j'.Dated := by
  refine ⟨fun m hm => ?_, fun m hm => ?_⟩
  · exact Nat.le_trans (h.deleted m (hd ▸ hm)) hr
  · exact Nat.le_trans (h.priorPlaces m (hp ▸ hm)) hr

theorem Dated.record (h : j.Dated) : (Tracking.record N q j).Dated := by
  cases hs : j.suspended with
  | true =>
    unfold Tracking.record
    rw [if_pos hs]
    exact h
  | false =>
    have htook := took_record (N := N) (q := q) hs
    exact h.of_le (Nat.le_of_lt htook.later) htook.deletedMemo htook.priorPlacesMemo

theorem Dated.reduce (h : j.Dated) (prune : Bool) : (j.reduce f prune).2.Dated := by
  unfold Journal.reduce
  dsimp only
  split
  · exact h.of_le (Nat.le_refl _) rfl rfl
  · exact h.of_le (Nat.le_succ _) rfl rfl

end Journal

/-- The journal of the document holds no memo that is ahead of it. -/
structure Document.Dated (k : Nat) (d : Document τ) : Prop where
  sound : d.forest.Sound False
  journal : (d.audience.journal k).Dated

theorem Chain.dated (h : Chain False d d₁) (hd : d.Dated k) : d₁.Dated k :=
  ⟨h.sound hd.sound, h.journal_of (fun _ _ _ => Journal.Dated.record) hd.journal⟩

namespace Edit

/-- The edit leaves the memos of the journal dated, however it ends. -/
abbrev KeepsDated (k : Nat) (x : Edit τ α) : Prop := Keeps (Document.Dated k) x

namespace KeepsDated

/-- What is done with the audience may write no journal. -/
theorem onAudience {g : Audience τ → α × Audience τ} (hg : ∀ a, (g a).2.journals = a.journals) :
    KeepsDated k (Edit.onAudience g) := by
  refine fun d hd => ⟨hd.sound, ?_⟩
  show ((g d.audience).2.journal k).Dated
  unfold Audience.journal
  rw [hg]
  exact hd.journal

/-- Writing the journal. -/
theorem setJournal (hd : d.Dated k) (hj : j.Dated) :
    Document.Dated k { d with audience := d.audience.setJournal k j } := by
  refine ⟨hd.sound, ?_⟩
  show ((d.audience.setJournal k j).journal k).Dated
  rw [Audience.journal_setJournal]
  split
  · exact hj
  · exact hd.journal

theorem modifyJournal {g : Journal → Journal} (hg : ∀ j, j.Dated → (g j).Dated) :
    KeepsDated k (Edit.modifyJournal k g : Edit τ Unit) :=
  fun _ hd => setJournal hd (hg _ hd.journal)

theorem reduceJournal (prune : Bool) : KeepsDated k (Edit.reduceJournal k prune : Edit τ Reduction) :=
  fun _ hd => setJournal hd (hd.journal.reduce prune)

theorem mutation (m : Mutation) : KeepsDated k (m.run : Edit τ _) :=
  fun _ hd => (m.chain hd.sound fun h => absurd h id).dated hd

end KeepsDated

end Edit

open Edit (Keeps KeepsDated)

/-! ## Calls -/

namespace Recording

theorem Writes.dated {g : Journal → Journal} (h : Writes g) (hj : j.Dated) : (g j).Dated := by
  cases h with
  | start session initial => exact hj.of_le (Nat.le_succ _) rfl rfl
  | extendInitial nodes => exact hj.of_le (Nat.le_succ _) rfl rfl
  | forget => exact hj.of_le (Nat.le_succ _) rfl rfl
  | mark seat recording suspended => exact hj.of_le (Nat.le_refl _) rfl rfl

/-- **Whatever calls are made of** leaves the memos dated. -/
theorem upholds_dated : r.Upholds (Document.Dated r.journal : Document τ → Prop) where
  edits := KeepsDated.mutation
  audience := fun _ => KeepsDated.onAudience
  sessions := fun _ _ hd => ⟨hd.sound, hd.journal⟩
  writes := fun _ hg => KeepsDated.modifyJournal fun _ => hg.dated
  reduces := KeepsDated.reduceJournal _

/-- **However a recording is used**, its journal holds no memo that is ahead of it. -/
theorem Runs.dated {allowed : Call → Prop} (h : r.Runs allowed d₁ d)
    (h₁ : d₁.Dated r.journal) : d.Dated r.journal := by
  induction h with
  | start => exact h₁
  | edit d m _ ih => exact Edit.KeepsDated.mutation m d ih
  | call d c _ _ ih => exact upholds_dated.perform c d ih
  | ask d question _ ih => exact Edit.KeepsDated.setJournal ih (ih.journal.answered question)

end Recording

end TrackedGraph
