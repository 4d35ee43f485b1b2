/-
What calls on a recording keep.

A call seats its recorder or lets it leave, counts a session, writes its journal, reduces it, or
edits the forest, which reverting does. A condition on the document that each of these keeps
(`Recording.Sustains`) is kept by every call, however it ends (`Recording.Sustains.perform`): how
calls are put together is opened here only. Most conditions do not depend on who sits where, and
are kept by whatever is done with seats and subscriptions (`Recording.Upholds`).
-/
import TrackedGraph.Proofs.Document.Ends
import TrackedGraph.Proofs.Recording.Undoing

set_option autoImplicit false

namespace TrackedGraph

open Edit (Keeps)

variable {τ α : Type} {P : Document τ → Prop} {k : Nat} {r : Recording} {d : Document τ}

/-! ## Reverting -/

section reverting

variable (hm : ∀ m : Mutation, Keeps P (m.run : Edit τ Mutation.Outcome))

include hm

/-- Writing states back is setting and unsetting. -/
theorem Revert.keeps_writeBack (structural plain : List PriorState) :
    Keeps P (writeBack structural plain : Edit τ Unit) := by
  have hset : ∀ n p v, Keeps P (Edit.set n p v : Edit τ Unit) := by
    intro n p v d hd
    have h := hm (.set n p v) d hd
    simp only [Mutation.run, Edit.snd_bind_pure] at h
    exact h
  have hunset : ∀ n p, Keeps P (Edit.unset n p : Edit τ Unit) := by
    intro n p d hd
    have h := hm (.unset n p) d hd
    simp only [Mutation.run, Edit.snd_bind_pure] at h
    exact h
  have hclear : ∀ x, Keeps P (clear x : Edit τ Unit) := fun x =>
    .bind (.query _) fun _ => hset _ _ _
  have hrestore : ∀ x, Keeps P (restore x : Edit τ Unit) := fun x =>
    .ite (hset _ _ _) (hunset _ _)
  exact .bind (.forM hclear _) fun _ => .bind (.forM hrestore _) fun _ => .forM hrestore _

/-- **Reverting keeps** what edits of the forest keep, and reducing and clearing the journal. -/
theorem Revert.keeps_run {policy : Policy}
    (hreduce : Keeps P (Edit.reduceJournal k policy.prune : Edit τ Reduction))
    (hforget : Keeps P (Edit.modifyJournal k (·.forget) : Edit τ Unit)) :
    Keeps P (run policy k : Edit τ Report) := by
  have hread : Keeps P (Edit.journal k : Edit τ Journal) := .of_same fun _ => rfl
  refine .bind hreduce fun _ => .bind hread fun j => .bind (.query _) fun structural =>
    .bind (.query _) fun plain => .bind (keeps_writeBack hm _ _) fun _ => .bind hread fun j => ?_
  have hend : ∀ report : Report, Keeps P (do
      Edit.modifyJournal k (·.forget)
      return report : Edit τ Report) := fun _ => .bind hforget fun _ => .pure _
  dsimp only
  exact .ite (.bind (.query _) fun _ => hend _) (.bind (.pure _) fun _ => hend _)

end reverting

namespace Recording

/-! ## What calls are made of -/

/-- How calls write a journal, other than by reducing it. -/
inductive Writes : (Journal → Journal) → Prop
  | start (session : TrackedGraph.Session) (initial : List NodeId) :
      Writes (·.startSession session initial)
  | extendInitial (nodes : List NodeId) : Writes (·.extendInitial nodes)
  | forget : Writes (·.forget)
  /-- What a journal holds besides its records, its noted nodes and its session. -/
  | mark (seat : Journal → Option ObserverId) (recording suspended : Journal → Bool) :
      Writes fun j => { j with
        seat := seat j, recording := recording j, suspended := suspended j }

/-- All that calls on the recording are made of keeps a condition on the document. -/
structure Upholds (r : Recording) (P : Document τ → Prop) : Prop where
  edits : ∀ m : Mutation, Keeps P (m.run : Edit τ Mutation.Outcome)
  audience : ∀ {α : Type} (g : Audience τ → α × Audience τ),
    (∀ a, (g a).2.journals = a.journals) → Keeps P (Edit.onAudience g)
  sessions : ∀ d i, P d → P { d with sessions := i }
  writes : ∀ g, Writes g → Keeps P (Edit.modifyJournal r.journal g : Edit τ Unit)
  reduces : Keeps P (Edit.reduceJournal r.journal r.policy.prune : Edit τ Reduction)

/-! ## Calls -/

/-- The nodes below the roots that the journal has not taken notice of. -/
def unseen (r : Recording) (d : Document τ) : List NodeId :=
  (d.forest.closure (d.audience.journal r.journal).roots).filter fun n =>
    !(d.audience.journal r.journal).wasInitial n &&
      !(d.audience.journal r.journal).entered.contains n

/-- Where a session runs, none is resumed. -/
theorem resume_of_running (hrunning : (d.audience.journal r.journal).recording = true) :
    r.resume d = (.error .alreadyRunning, d) := by
  unfold Recording.resume
  rw [Recording.read_bind, hrunning]
  rfl

/-- **Resuming a session**: what is unseen counts as there from the start, and the recorder
joins. -/
theorem resume_apply {session : TrackedGraph.Session}
    (hidle : (d.audience.journal r.journal).recording = false)
    (hsession : (d.audience.journal r.journal).session = some session) :
    r.resume d = r.join (d.forest.closure session.roots) { d with
      audience := d.audience.setJournal r.journal
        ((d.audience.journal r.journal).extendInitial (r.unseen d)) } := by
  unfold Recording.resume unseen
  rw [Recording.read_bind, hidle, hsession, Journal.roots_of_session hsession]
  rfl

theorem keeps_read : Keeps P (r.read : Edit τ Journal) := .of_same fun _ => rfl

theorem keeps_revert (hm : ∀ m : Mutation, Keeps P (m.run : Edit τ Mutation.Outcome))
    (hreduce : Keeps P (Edit.reduceJournal r.journal r.policy.prune : Edit τ Reduction))
    (hforget : Keeps P (Edit.modifyJournal r.journal (·.forget) : Edit τ Unit)) :
    Keeps P (r.revert : Edit τ Revert.Report) := by
  have hrun : Keeps P (Revert.run r.policy r.journal : Edit τ Revert.Report) :=
    Revert.keeps_run hm hreduce hforget
  refine .bind keeps_read fun j => .ite (.bind (.throw _) fun _ => ?_) ?_ <;>
    exact .ite (.bind (.throw _) fun _ => hrun) hrun

/-- A condition on the document that is kept where the recorder joins while no session runs,
leaves while one does, and writes its journal. -/
structure Accommodates (r : Recording) (P : Document τ → Prop) : Prop where
  sessions : ∀ d i, P d → P { d with sessions := i }
  writes : ∀ g, Writes g → (∀ j, (g j).recording = j.recording ∧ (g j).seat = j.seat ∧
      (j.session.isSome = true → (g j).session.isSome = true)) →
    Keeps P (Edit.modifyJournal r.journal g : Edit τ Unit)
  reduces : Keeps P (Edit.reduceJournal r.journal r.policy.prune : Edit τ Reduction)
  joins : ∀ d tracked, P d → (d.audience.journal r.journal).recording = false →
    (r.journal < d.audience.journals.length →
      (d.audience.journal r.journal).session.isSome = true) →
    P { d with audience := d.audience.joined r tracked }
  leaves : ∀ d, P d → (d.audience.journal r.journal).recording = true → P (r.stop d).2

/-- All that calls on the recording are made of keeps a condition on the document, where the seat
of the recorder matters. -/
structure Sustains (r : Recording) (P : Document τ → Prop) : Prop extends r.Accommodates P where
  edits : ∀ m : Mutation, Keeps P (m.run : Edit τ Mutation.Outcome)

namespace Accommodates

variable (h : r.Accommodates P)

include h

/-- A recorder joins once its journal is written. -/
theorem join_written {d : Document τ} {g : Journal → Journal}
    (hd : P { d with audience := d.audience.setJournal r.journal (g (d.audience.journal r.journal)) })
    (hidle : (d.audience.journal r.journal).recording = false)
    (hrec : ∀ j, (g j).recording = j.recording)
    (hsession : (g (d.audience.journal r.journal)).session.isSome = true) (tracked : List NodeId) :
    P (r.join tracked { d with
      audience := d.audience.setJournal r.journal (g (d.audience.journal r.journal)) }).2 := by
  rw [Recording.join_apply]
  refine h.joins _ tracked hd ?_ fun hk => ?_
  · dsimp only
    rw [Audience.journal_setJournal]
    split
    · exact (hrec _).trans hidle
    · exact hidle
  · rw [Audience.length_setJournal] at hk
    dsimp only
    rw [Audience.journal_setJournal_self hk]
    exact hsession

theorem startFrom (roots : List NodeId) : Keeps P (r.startFrom roots : Edit τ Unit) := by
  intro d hd
  rcases r.startFrom_ends roots d with ⟨hidle, hexist⟩ | ⟨hsame, -⟩
  · rw [Recording.startFrom_apply hidle hexist]
    have hstart : ∀ j : Journal, (j.startSession ⟨d.sessions, roots⟩ (d.forest.closure roots)).recording =
        j.recording := fun _ => rfl
    refine h.join_written (g := (·.startSession ⟨d.sessions, roots⟩ (d.forest.closure roots)))
      (d := { d with sessions := d.sessions + 1 }) ?_ hidle hstart rfl _
    exact h.writes _ (.start _ _) (fun j => ⟨rfl, rfl, fun _ => rfl⟩) _ (h.sessions d _ hd)
  · rw [hsame]
    exact hd

theorem start : Keeps P (r.start : Edit τ Unit) :=
  .bind (.of_same fun _ => rfl) fun _ => h.startFrom _

theorem resume : Keeps P (r.resume : Edit τ Unit) := by
  intro d hd
  cases hrec : (d.audience.journal r.journal).recording with
  | true =>
    rw [resume_of_running hrec]
    exact hd
  | false =>
    cases hsession : (d.audience.journal r.journal).session with
    | none =>
      unfold Recording.resume
      rw [Recording.read_bind, hrec, hsession]
      exact h.start d hd
    | some session =>
      rw [resume_apply hrec hsession]
      refine h.join_written (g := (·.extendInitial (r.unseen d))) ?_ hrec (fun _ => rfl) ?_ _
      · exact h.writes _ (.extendInitial _) (fun _ => ⟨rfl, rfl, id⟩) d hd
      · show (d.audience.journal r.journal).session.isSome = true
        rw [hsession]
        rfl

theorem stop : Keeps P (r.stop : Edit τ Unit) := by
  intro d hd
  cases hrec : (d.audience.journal r.journal).recording with
  | false =>
    rw [Recording.stop_of_idle hrec]
    exact hd
  | true => exact h.leaves d hd hrec

theorem suspended (b : Bool) :
    Keeps P (r.modify fun j => { j with suspended := b } : Edit τ Unit) :=
  h.writes _ (.mark (·.seat) (·.recording) fun _ => b) fun _ => ⟨rfl, rfl, id⟩

theorem reduce : Keeps P (r.reduce : Edit τ Reduction) :=
  .bind keeps_read fun _ => .ite (.bind (.throw _) fun _ => h.reduces) h.reduces

/-- **A call that does not revert keeps** what its parts keep. -/
theorem perform_quiet (c : Call) (hrevert : c ≠ .revert) (hundo : c ≠ .undo) :
    Keeps P (r.perform c : Edit τ Outcome) := by
  cases c with
  | start => exact .bind h.start fun _ => .pure _
  | startFrom roots => exact .bind (h.startFrom roots) fun _ => .pure _
  | resume => exact .bind h.resume fun _ => .pure _
  | stop => exact .bind h.stop fun _ => .pure _
  | suspend => exact .bind (h.suspended true) fun _ => .pure _
  | unsuspend => exact .bind (h.suspended false) fun _ => .pure _
  | reduce => exact .bind h.reduce fun _ => .pure _
  | reduceRunning =>
    refine .bind (.bind keeps_read fun j => ?_) fun _ => .pure _
    exact .ite (.bind (.throw _) fun _ => h.reduce) h.reduce
  | revert => exact absurd rfl hrevert
  | undo => exact absurd rfl hundo

end Accommodates

namespace Sustains

variable (h : r.Sustains P)

include h

theorem revert : Keeps P (r.revert : Edit τ Revert.Report) :=
  keeps_revert h.edits h.reduces (h.writes _ .forget fun _ => ⟨rfl, rfl, id⟩)

/-- **Every call keeps** what all its parts keep. -/
theorem perform (c : Call) : Keeps P (r.perform c : Edit τ Outcome) := by
  by_cases hrevert : c = .revert
  · subst hrevert
    exact .bind h.revert fun _ => .pure _
  by_cases hundo : c = .undo
  · -- The session is ended first, if it is still running.
    subst hundo
    refine .bind (.bind keeps_read fun j => ?_) fun _ => .pure _
    exact .ite (.bind h.stop fun _ => h.revert) h.revert
  exact h.perform_quiet c hrevert hundo

end Sustains

namespace Upholds

variable (h : r.Upholds P)

include h

theorem join (tracked : List NodeId) : Keeps P (r.join tracked : Edit τ Unit) :=
  .bind (h.audience _ fun _ => Audience.journals_add) fun o =>
    .bind (h.audience _ fun _ => rfl) fun _ =>
      h.writes _ (.mark (fun _ => some o) (fun _ => true) (·.suspended))

theorem stop : Keeps P (r.stop : Edit τ Unit) := by
  have hend : Keeps P (r.modify fun j =>
      { j with seat := none, recording := false, suspended := false } : Edit τ Unit) :=
    h.writes _ (.mark (fun _ => none) (fun _ => false) (fun _ => false))
  refine .bind keeps_read fun j => ?_
  dsimp only
  cases j.seat with
  | none => exact .ite (.bind (.throw _) fun _ => hend) hend
  | some o =>
    refine .ite (.bind (.throw _) fun _ => ?_) ?_ <;>
      exact .bind (h.audience _ fun _ => Audience.journals_remove) fun _ => hend

/-- What is kept whatever happens to seats and subscriptions. -/
theorem sustains : r.Sustains P where
  edits := h.edits
  sessions := h.sessions
  writes := fun g hg _ => h.writes g hg
  reduces := h.reduces
  joins := fun d tracked hd _ _ => h.join tracked d hd
  leaves := fun d hd _ => h.stop d hd

theorem perform (c : Call) : Keeps P (r.perform c : Edit τ Outcome) := h.sustains.perform c

end Upholds

end Recording

end TrackedGraph
