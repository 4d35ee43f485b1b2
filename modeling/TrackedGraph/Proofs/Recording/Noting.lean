/-
What a change does to a journal, and what a question does.

Whoever sits in the audience, an announcement changes a journal only by recording the
change, maybe more than once, so what recording keeps is kept by every step
(`Audience.journal_announce_of`, `Chain.journal_of`). Recording a change notes the children
that leave and those that enter, besides the state of the property. Asking a question may
leave a view behind in the journal and changes nothing else in it.
-/
import TrackedGraph.Journal.Views
import TrackedGraph.Proofs.Recording.Remembering
import Mathlib.Data.List.Induction

set_option autoImplicit false

namespace TrackedGraph

variable {τ : Type} {d d' : Document τ} {f : Forest} {N : Notice} {o : ObserverId} {k : Nat}
  {j j' : Journal} {c : NodeId} {q : Tracking.Plan} {r : Recording} {strict : Prop}

/-! ## Whatever the audience -/

namespace Audience

variable {a : Audience τ} {P : Journal → Prop}

theorem journal_tell_of {x : Member τ}
    (hP : ∀ s q j, Tracking.plan s f N = .ok q → P j → P (Tracking.record N q j))
    (h : P (a.journal k)) : P ((tell f N o x a).journal k) := by
  cases x with
  | observer b =>
    rw [journal_tell_of_ne fun s hs => by cases hs]
    exact h
  | recorder i s =>
    by_cases hi : i = k
    · subst hi
      -- A recorder whose plan fails leaves its journal alone.
      have hcarry : P (Tracking.carryOut s f N (a.journal i)).2 := by
        unfold Tracking.carryOut
        cases hq : Tracking.plan s f N with
        | ok q => exact hP s q _ hq h
        | error e => exact h
      show P ((a.setJournal i (Tracking.carryOut s f N (a.journal i)).2).journal i)
      rw [journal_setJournal]
      split
      · exact hcarry
      · exact h
    · rw [journal_tell_of_ne fun s' hs => hi (by injection hs)]
      exact h

/-- **What recording a change keeps is kept by announcing it**, whoever is told. -/
theorem journal_announce_of
    (hP : ∀ s q j, Tracking.plan s f N = .ok q → P j → P (Tracking.record N q j))
    (h : P (a.journal k)) : P ((a.announce f N).2.journal k) :=
  announce_induction (P := fun b => P (b.journal k)) (fun _ _ h => h)
    (fun _ _ _ _ _ h => journal_tell_of hP h) h

end Audience

theorem journal_poll : (Edit.poll N d).2.audience.journal k = d.audience.journal k := by
  unfold Audience.journal
  rw [journals_poll]

theorem journal_refused {e : Fault} (h : (Edit.announce N d).1 = .error e) :
    (Edit.announce N d).2.audience.journal k = d.audience.journal k := by
  unfold Audience.journal
  rw [journals_refused h]

theorem journal_announced {P : Journal → Prop}
    (hP : ∀ s q j, Tracking.plan s d.forest N = .ok q → P j → P (Tracking.record N q j))
    (h : P (d.audience.journal k)) : P ((Edit.announce N d).2.audience.journal k) := by
  rw [audience_announce]
  exact Audience.journal_announce_of hP h

theorem Step.journal_of {P : Journal → Prop} (h : Step strict d d')
    (hP : ∀ N q j, P j → P (Tracking.record N q j)) (hj : P (d.audience.journal k)) :
    P (d'.audience.journal k) := by
  cases h with
  | asked N =>
    rw [journal_poll]
    exact hj
  | refused N e h =>
    rw [journal_refused h]
    exact hj
  | changed N g old new freed taken h hc hw hm => exact journal_announced (fun _ q j _ => hP N q j) hj
  | unwritten N g h hn hg ho hm => exact journal_announced (fun _ q j _ => hP N q j) hj
  | created t n f h => exact hj
  | counted i => exact hj

theorem Chain.journal_of {P : Journal → Prop} (h : Chain strict d d')
    (hP : ∀ N q j, P j → P (Tracking.record N q j)) (hj : P (d.audience.journal k)) :
    P (d'.audience.journal k) := by
  induction h with
  | refl => exact hj
  | tail _ hs ih => exact hs.journal_of hP ih

/-! ## Children that leave and enter -/

namespace Journal

theorem left_foldl_noteExit (ns : List NodeId) (j : Journal) :
    (ns.foldl noteExit j).left = j.left ++ ns ∧ (ns.foldl noteExit j).entered = j.entered := by
  induction ns generalizing j with
  | nil => exact ⟨(List.append_nil _).symm, rfl⟩
  | cons n ns ih => exact ⟨(ih _).1.trans (List.append_assoc ..), (ih _).2⟩

theorem entered_foldl_noteEntry (ns : List NodeId) (j : Journal) :
    (ns.foldl noteEntry j).entered = FirstSeen.addAll j.entered ns ∧
      (ns.foldl noteEntry j).left = j.left := by
  induction ns generalizing j with
  | nil => exact ⟨rfl, rfl⟩
  | cons n ns ih => exact ih _

/-- The journal `j'` has noted more than `j`, and its session is the same. -/
structure Extends (j j' : Journal) : Prop where
  session : j'.session = j.session
  initial : j'.initial = j.initial
  left : ∀ c ∈ j.left, c ∈ j'.left
  entered : ∀ c ∈ j.entered, c ∈ j'.entered

theorem Extends.refl (j : Journal) : j.Extends j := ⟨rfl, rfl, fun _ => id, fun _ => id⟩

theorem Extends.trans {j'' : Journal} (h : j.Extends j') (h' : j'.Extends j'') : j.Extends j'' :=
  ⟨h'.session.trans h.session, h'.initial.trans h.initial, fun c hc => h'.left c (h.left c hc),
    fun c hc => h'.entered c (h.entered c hc)⟩

/-- **Recording a change notes** the children that leave. -/
theorem left_record (h : j.suspended = false) :
    (Tracking.record N q j).left = j.left ++ q.leaving := by
  obtain ⟨hexit, -⟩ := left_foldl_noteExit q.leaving j
  obtain ⟨-, hentry⟩ := entered_foldl_noteEntry q.entering (q.leaving.foldl noteExit j)
  unfold Tracking.record
  rw [if_neg (by simp [h])]
  show (q.entering.foldl noteEntry (q.leaving.foldl noteExit j)).left = _
  rw [hentry, hexit]

/-- **Recording a change notes** the children that enter, unless they entered before. -/
theorem entered_record (h : j.suspended = false) :
    (Tracking.record N q j).entered = FirstSeen.addAll j.entered q.entering := by
  obtain ⟨-, hexit⟩ := left_foldl_noteExit q.leaving j
  obtain ⟨hentry, -⟩ := entered_foldl_noteEntry q.entering (q.leaving.foldl noteExit j)
  unfold Tracking.record
  rw [if_neg (by simp [h])]
  show (q.entering.foldl noteEntry (q.leaving.foldl noteExit j)).entered = _
  rw [hentry, hexit]

theorem mem_record (h : j.suspended = false) :
    (c ∈ (Tracking.record N q j).left ↔ c ∈ j.left ∨ c ∈ q.leaving) ∧
      (c ∈ (Tracking.record N q j).entered ↔ c ∈ j.entered ∨ c ∈ q.entering) := by
  rw [left_record h, entered_record h, List.mem_append, FirstSeen.mem_addAll]
  exact ⟨.rfl, .rfl⟩

theorem extends_record : j.Extends (Tracking.record N q j) := by
  cases hs : j.suspended with
  | true =>
    unfold Tracking.record
    rw [if_pos hs]
    exact .refl j
  | false =>
    obtain ⟨-, -, -, hsession, hinitial⟩ := (record_plan (N := N) (q := q) hs).1
    exact ⟨hsession, hinitial, fun c hc => (mem_record hs).1.mpr (.inl hc),
      fun c hc => (mem_record hs).2.mpr (.inl hc)⟩

/-- The journal is `j'` after a planned change was recorded in `j`, once or more than once. -/
structure Took (j : Journal) (q : Tracking.Plan) (j' : Journal) : Prop where
  left : ∀ c, c ∈ j'.left ↔ c ∈ j.left ∨ c ∈ q.leaving
  entered : ∀ c, c ∈ j'.entered ↔ c ∈ j.entered ∨ c ∈ q.entering
  suspended : j'.suspended = j.suspended
  later : j.revision < j'.revision
  deletedMemo : j'.deletedMemo = j.deletedMemo
  priorPlacesMemo : j'.priorPlacesMemo = j.priorPlacesMemo

/-- To record a change again adds no node. -/
theorem Took.again {j'' : Journal} (h : j.Took q j') (h' : j'.Took q j'') : j.Took q j'' := by
  refine ⟨fun c => ?_, fun c => ?_, h'.suspended.trans h.suspended, Nat.lt_trans h.later h'.later,
    h'.deletedMemo.trans h.deletedMemo, h'.priorPlacesMemo.trans h.priorPlacesMemo⟩
  · rw [h'.left, h.left, or_assoc, or_self]
  · rw [h'.entered, h.entered, or_assoc, or_self]

theorem foldl_note_age (note : Journal → NodeId → Journal)
    (hn : ∀ j n, j.revision ≤ (note j n).revision ∧ (note j n).deletedMemo = j.deletedMemo ∧
      (note j n).priorPlacesMemo = j.priorPlacesMemo) (ns : List NodeId) (j : Journal) :
    j.revision ≤ (ns.foldl note j).revision ∧ (ns.foldl note j).deletedMemo = j.deletedMemo ∧
      (ns.foldl note j).priorPlacesMemo = j.priorPlacesMemo := by
  induction ns generalizing j with
  | nil => exact ⟨Nat.le_refl _, rfl, rfl⟩
  | cons n ns ih =>
    obtain ⟨hr, hd, hp⟩ := hn j n
    obtain ⟨hr', hd', hp'⟩ := ih (note j n)
    exact ⟨Nat.le_trans hr hr', hd'.trans hd, hp'.trans hp⟩

theorem took_record (h : j.suspended = false) : j.Took q (Tracking.record N q j) := by
  obtain ⟨hr, hd, hp⟩ := foldl_note_age noteExit
    (fun j _ => ⟨Nat.le_succ _, rfl, rfl⟩) q.leaving j
  obtain ⟨hr', hd', hp'⟩ := foldl_note_age noteEntry
    (fun j _ => ⟨Nat.le_succ _, rfl, rfl⟩) q.entering (q.leaving.foldl noteExit j)
  obtain ⟨⟨-, hsuspended, -⟩, -⟩ := record_plan (N := N) (q := q) h
  refine ⟨fun _ => (mem_record h).1, fun _ => (mem_record h).2, hsuspended, ?_, ?_, ?_⟩ <;>
    unfold Tracking.record <;> rw [if_neg (by simp [h])]
  · exact Nat.lt_succ_of_le (Nat.le_trans hr hr')
  · exact hd'.trans hd
  · exact hp'.trans hp

/-- **What recording a change does**, once or more than once. -/
theorem took_iterate (h : j.suspended = false) (i : Nat) :
    j.Took q ((Tracking.record N q)^[i + 1] j) := by
  induction i with
  | zero => exact took_record h
  | succ i ih =>
    rw [Function.iterate_succ_apply']
    exact ih.again (took_record (ih.suspended.trans h))

end Journal

/-- Steps forget nothing that a journal has noted. -/
theorem Chain.journal_extends (h : Chain strict d d') :
    (d.audience.journal k).Extends (d'.audience.journal k) :=
  h.journal_of (fun _ _ _ hj => hj.trans Journal.extends_record) (.refl _)

/-! ## Questions -/

/-- A question of which a journal remembers the answer. -/
inductive Journal.Question where
  | deleted
  | priorPlaces
  | priorStates (n : NodeId)

/-- The journal once the question was answered. -/
def Journal.Question.answered (f : Forest) (generation : Nat) : Question → Journal → Journal
  | deleted, j => (j.deleted f generation).2
  | priorPlaces, j => (j.priorPlaces f generation).2
  | priorStates n, j => (j.priorStates f n).2

/-- Asking for prior states leaves expansions in the journal and changes nothing else. -/
theorem Journal.priorStates_frame (f : Forest) (n : NodeId) (j : Journal) :
    ∃ expansions expansionsAt, (j.priorStates f n).2 = { j with expansions, expansionsAt } := by
  have hrefresh : ∃ expansions expansionsAt,
      j.refreshExpansions = { j with expansions, expansionsAt } := by
    unfold refreshExpansions
    split <;> exact ⟨_, _, rfl⟩
  obtain ⟨expansions, expansionsAt, hj⟩ := hrefresh
  simp only [Journal.priorStates, hj]
  split
  · exact ⟨_, _, rfl⟩
  · split
    · exact ⟨_, _, rfl⟩
    · split <;> exact ⟨_, _, rfl⟩

/-- A question leaves views in the journal, of the present moment, and changes nothing else. -/
theorem Journal.Question.answered_frame (question : Question) (f : Forest) (generation : Nat)
    (j : Journal) : ∃ deletedMemo priorPlacesMemo expansions expansionsAt,
      question.answered f generation j =
        { j with deletedMemo, priorPlacesMemo, expansions, expansionsAt } ∧
      (deletedMemo = j.deletedMemo ∨
        deletedMemo = some ⟨j.revision, generation, findDeleted f j⟩) ∧
      (priorPlacesMemo = j.priorPlacesMemo ∨ ∃ view, findPriorPlaces f j = .ok view ∧
        priorPlacesMemo = some ⟨j.revision, generation, view⟩) := by
  cases question with
  | deleted =>
    simp only [answered, Journal.deleted]
    split
    · exact ⟨_, _, _, _, rfl, .inl rfl, .inl rfl⟩
    · exact ⟨_, _, _, _, rfl, .inr rfl, .inl rfl⟩
  | priorPlaces =>
    simp only [answered, Journal.priorPlaces]
    split
    · exact ⟨_, _, _, _, rfl, .inl rfl, .inl rfl⟩
    · split
      · exact ⟨_, _, _, _, rfl, .inl rfl, .inl rfl⟩
      · next view hview => exact ⟨_, _, _, _, rfl, .inl rfl, .inr ⟨view, hview, rfl⟩⟩
  | priorStates n =>
    obtain ⟨expansions, expansionsAt, hj⟩ := j.priorStates_frame f n
    exact ⟨_, _, _, _, hj, .inl rfl, .inl rfl⟩

/-- Asks the journal of a recording, which may remember the answer. -/
def Recording.ask (r : Recording) (question : Journal.Question) : Edit τ Unit :=
  fun d => (.ok (), { d with
    audience := d.audience.setJournal r.journal
      (question.answered d.forest d.generation (d.audience.journal r.journal)) })

/-! ## Runs of a recording -/

/-- A run in which documents are edited, the recording is called in the ways that are allowed,
and its journal is asked. -/
inductive Recording.Runs (r : Recording) (allowed : Call → Prop) (d₁ : Document τ) :
    Document τ → Prop
  | start : Runs r allowed d₁ d₁
  | edit (d : Document τ) (m : Mutation) (h : Runs r allowed d₁ d) : Runs r allowed d₁ (m.run d).2
  | call (d : Document τ) (c : Call) (hc : allowed c) (h : Runs r allowed d₁ d) :
      Runs r allowed d₁ (r.perform c d).2
  | ask (d : Document τ) (question : Journal.Question) (h : Runs r allowed d₁ d) :
      Runs r allowed d₁ (r.ask question d).2

/-- One act of a run. -/
inductive Recording.Act where
  | edit (m : Mutation)
  | call (c : Call)
  | ask (question : Journal.Question)

/-- The document after an act. -/
def Recording.act (r : Recording) (d : Document τ) : Act → Document τ
  | .edit m => (m.run d).2
  | .call c => (r.perform c d).2
  | .ask question => (r.ask question d).2

/-- The document after acts, one after the other. -/
def Recording.acted (r : Recording) (d : Document τ) (acts : List Act) : Document τ :=
  acts.foldl r.act d

/-- Acts make a run. -/
theorem Recording.runs_acted {r : Recording} {allowed : Call → Prop} {acts : List Act}
    (h : ∀ c, .call c ∈ acts → allowed c) : r.Runs allowed d (r.acted d acts) := by
  induction acts using List.reverseRecOn with
  | nil => exact .start
  | append_singleton acts a ih =>
    have hrun := ih fun c hc => h c (List.mem_append_left _ hc)
    rw [Recording.acted, List.foldl_append]
    cases a with
    | edit m => exact .edit _ m hrun
    | call c => exact .call _ c (h c (List.mem_append_right _ (List.mem_singleton_self _))) hrun
    | ask question => exact .ask _ question hrun

/-- The call reduces the journal. -/
def Recording.Call.Reduces : Call → Prop
  | .reduceRunning | .reduce => True
  | _ => False

/-- The call neither starts a session nor reverts one. -/
def Recording.Call.Continues : Call → Prop
  | .resume | .stop | .suspend | .unsuspend | .reduceRunning | .reduce => True
  | _ => False

end TrackedGraph
