/-
A recording that is in order.

Sessions start and end, are suspended and resumed, reduced and reverted, while the document is
edited in between. Through all of this a recording stays in order (`Recording.Steady`): at most
one recorder writes its journal, and only while a session runs; that recorder follows the tree
of the session; and the journal can be relied on. So each change that is announced either
reaches the journal, which records it once, or leaves it as it is (`Steady.announced`).
-/
import TrackedGraph.Proofs.Journal.Reliable
import TrackedGraph.Proofs.Recording.Dating
import TrackedGraph.Proofs.Recording.Hearing
import TrackedGraph.Proofs.Recording.Watching

set_option autoImplicit false

namespace TrackedGraph

open Edit (Keeps)

variable {τ : Type} {d d' d₀ : Document τ} {o o' : ObserverId} {n m : NodeId} {N : Notice}
  {r : Recording} {j j' : Journal} {roots tracked : List NodeId} {k : Nat} {strict : Prop}

/-! ## Steps and the audience -/

theorem Step.nodup_subscriptions (h : Step strict d d')
    (hs : d.audience.subscriptions.pairs.Nodup) : d'.audience.subscriptions.pairs.Nodup := by
  have hannounce : ∀ N, (Edit.announce N d).2.audience.subscriptions.pairs.Nodup := by
    intro N
    rw [audience_announce]
    exact Audience.nodup_announce hs
  cases h with
  | asked N =>
    rw [(poll_apply N d).2]
    simp only [Audience.poll]
    rw [Audience.askAll_memory]
    exact hs
  | refused N e h => exact hannounce N
  | changed N g old new freed taken h hc hw hm => exact hannounce N
  | unwritten N g h hn hg ho hm => exact hannounce N
  | created t n f h => exact hs
  | counted k => exact hs

/-- Nobody but those who sit somewhere is subscribed by a step. -/
theorem Step.hears_of_none (h : Step strict d d') (ho : d.audience.member? o = none) :
    d'.Hears o n ↔ d.Hears o n := by
  have hannounce : ∀ N, (Edit.announce N d).2.Hears o n ↔ d.Hears o n := by
    intro N
    unfold Document.Hears
    rw [audience_announce, Audience.announce_has_of_none ho]
  cases h with
  | asked N => exact hears_poll
  | refused N e h => exact hannounce N
  | changed N g old new freed taken h hc hw hm => exact hannounce N
  | unwritten N g h hn hg ho hm => exact hannounce N
  | created t n f h => exact Iff.rfl
  | counted k => exact Iff.rfl

/-- The session is nothing to a step. -/
theorem Step.sameSession (h : Step strict d d') :
    (d.audience.journal k).SameSession (d'.audience.journal k) :=
  h.journal_of (fun _ _ _ hj => hj.trans Journal.sameSession_record) (.refl _)

theorem Journal.SameSession.roots_eq (h : j.SameSession j') : j'.roots = j.roots := by
  unfold Journal.roots
  rw [h.2.2.2.1]

/-! ## The invariant -/

/-- **A recording is in order**, whether or not a session runs. -/
structure Recording.Steady (r : Recording) (d : Document τ) : Prop where
  sound : d.forest.Sound True
  owning : d.forest.schema.OwningMembers
  stored : r.journal < d.audience.journals.length
  once : d.audience.subscriptions.pairs.Nodup
  /-- A seat that is free is subscribed to nothing. -/
  tidy : ∀ o n, d.audience.member? o = none → ¬ d.Hears o n
  alone : ∀ o s, d.audience.member? o = some (.recorder r.journal s) →
    (d.audience.journal r.journal).recording = true ∧
      (d.audience.journal r.journal).seat = some o
  running : (d.audience.journal r.journal).recording = true →
    ∃ o, (d.audience.journal r.journal).seat = some o ∧
      d.Follows o r.journal r.policy.strict (d.audience.journal r.journal).roots
  journal : (d.audience.journal r.journal).Reliable d.forest d.generation

namespace Recording

/-- The journal is written by the recorder of the session and by nobody else. -/
theorem Steady.tuned (hd : r.Steady d) : r.Tuned d := by
  refine ⟨hd.stored, hd.once, hd.alone, fun hrec => ?_⟩
  obtain ⟨o, hseat, hfollows⟩ := hd.running hrec
  exact ⟨o, hseat, hfollows.seated⟩

theorem Steady.nobody (hd : r.Steady d)
    (h : (d.audience.journal r.journal).recording = false) (o : ObserverId) (s : Bool) :
    d.audience.member? o ≠ some (.recorder r.journal s) := hd.tuned.nobody h o s

end Recording

/-! ## One step -/

/-- **A step of an edit keeps a recording in order.** -/
theorem Step.steady (h : Step True d d') (hd : r.Steady d) : r.Steady d' := by
  have hsame := h.sameSession (k := r.journal)
  refine ⟨h.sound hd.sound, by rw [h.schema]; exact hd.owning,
    by rw [h.journals_length]; exact hd.stored, h.nodup_subscriptions hd.once, fun o n ho => ?_,
    fun o s ho => ?_, fun hrec => ?_, h.reliable hd.sound hd.journal⟩
  · rw [h.member?] at ho
    rw [h.hears_of_none ho]
    exact hd.tidy o n ho
  · rw [h.member?] at ho
    rw [hsame.1, hsame.2.2.1]
    exact hd.alone o s ho
  · rw [hsame.1] at hrec
    obtain ⟨o, hseat, hfollows⟩ := hd.running hrec
    refine ⟨o, hsame.2.2.1.trans hseat, ?_⟩
    rw [hsame.roots_eq]
    exact h.follows hfollows

theorem Chain.steady (h : Chain True d d') (hd : r.Steady d) : r.Steady d' := by
  induction h with
  | refl => exact hd
  | tail _ hs ih => exact hs.steady ih

theorem Recording.Steady.chain (hd : r.Steady d) (m : Mutation) : Chain True d (m.run d).2 :=
  m.chain hd.sound fun _ _ => m.not_overlooks hd.sound.toTyped hd.owning

theorem Recording.Steady.mutation (m : Mutation) :
    Keeps (r.Steady) (m.run : Edit τ Mutation.Outcome) :=
  fun _ hd => (hd.chain m).steady hd

/-! ## Calls -/

namespace Recording

/-- The journal may be written where that is nothing to a session that runs. -/
theorem Steady.setJournal (hd : r.Steady d)
    (hrec : j.recording = (d.audience.journal r.journal).recording)
    (hseat : j.seat = (d.audience.journal r.journal).seat)
    (hroots : j.recording = true → j.roots = (d.audience.journal r.journal).roots)
    (hj : j.Reliable d.forest d.generation) :
    r.Steady { d with audience := d.audience.setJournal r.journal j } := by
  have hself : (d.audience.setJournal r.journal j).journal r.journal = j :=
    Audience.journal_setJournal_self hd.stored
  refine ⟨hd.sound, hd.owning, ?_, hd.once, hd.tidy, ?_, ?_, ?_⟩
  · rw [Audience.length_setJournal]
    exact hd.stored
  all_goals dsimp only; rw [hself]
  · rw [hrec, hseat]
    exact hd.alone
  · intro hrun
    rw [hroots hrun]
    rw [hrec] at hrun
    obtain ⟨o, ho, hfollows⟩ := hd.running hrun
    exact ⟨o, hseat.trans ho, hfollows.congr rfl rfl fun _ => Iff.rfl⟩
  · exact hj

/-- **A recorder joins**, subscribed to the contents of the roots. -/
theorem Steady.join (hd : r.Steady d)
    (hidle : (d.audience.journal r.journal).recording = false)
    (htracked : tracked = d.forest.closure (d.audience.journal r.journal).roots) :
    r.Steady (r.join tracked d).2 := by
  rw [Recording.join_apply]
  generalize ho : (d.audience.add (.recorder r.journal r.policy.strict)).1 = o
  have hfree : d.audience.member? o = none := by rw [← ho]; exact Audience.member?_add_free
  have hmember : ∀ o', o' ≠ o →
      (d.audience.joined r tracked).member? o' = d.audience.member? o' := by
    intro o' hne
    rw [← ho] at hne
    exact Audience.member?_add_of_ne hne
  have hseated : (d.audience.joined r tracked).member? o =
      some (.recorder r.journal r.policy.strict) := by
    rw [← ho]
    exact Audience.member?_joined
  have hj : (d.audience.joined r tracked).journal r.journal =
      { d.audience.journal r.journal with seat := some o, recording := true } := by
    rw [← ho]
    exact Audience.journal_joined hd.stored
  have hsubs : (d.audience.joined r tracked).subscriptions =
      d.audience.subscriptions.changeAll o (tracked.map .subscribe) := by
    rw [← ho]
    exact Audience.subscriptions_joined
  -- The seat was free, so nothing but the contents of the roots is heard from it.
  have hears : ∀ m, (d.audience.joined r tracked).subscriptions.has o m = true ↔
      m ∈ d.forest.closure (d.audience.journal r.journal).roots := by
    intro m
    rw [← ho, Audience.has_joined, ho, htracked]
    exact or_iff_right (hd.tidy o m hfree)
  refine ⟨hd.sound, hd.owning, ?_, ?_, fun o' n hnone => ?_, fun o' s hs => ?_, fun _ => ?_, ?_⟩
  · rw [Audience.length_joined]
    exact hd.stored
  · dsimp only
    rw [hsubs]
    exact Subscriptions.nodup_changeAll hd.once _
  · have hne : o' ≠ o := by
      rintro rfl
      dsimp only at hnone
      rw [hseated] at hnone
      exact absurd hnone (by simp)
    dsimp only at hnone
    rw [hmember o' hne] at hnone
    unfold Document.Hears
    dsimp only
    rw [hsubs, Subscriptions.has_changeAll_of_ne hne]
    exact hd.tidy o' n hnone
  · dsimp only at hs ⊢
    rw [hj]
    by_cases hne : o' = o
    · exact ⟨rfl, congrArg some hne.symm⟩
    · rw [hmember o' hne] at hs
      exact absurd hs (hd.nobody hidle o' s)
  · dsimp only
    rw [hj]
    exact ⟨o, rfl, hd.sound, hseated, Forest.tracks_closure hd.sound hears⟩
  · dsimp only
    rw [hj]
    exact hd.journal.congr rfl rfl rfl rfl rfl rfl rfl rfl rfl

theorem Steady.congr (hd : r.Steady d) (hf : d'.forest = d.forest)
    (hg : d'.generation = d.generation) (ha : d'.audience = d.audience) : r.Steady d' := by
  have hhears : ∀ o n, d'.Hears o n ↔ d.Hears o n := fun o n => by
    unfold Document.Hears
    rw [ha]
  refine ⟨by rw [hf]; exact hd.sound, by rw [hf]; exact hd.owning, by rw [ha]; exact hd.stored,
    by rw [ha]; exact hd.once, fun o n ho => ?_, by rw [ha]; exact hd.alone, fun hrec => ?_,
    by rw [ha, hf, hg]; exact hd.journal⟩
  · rw [hhears]
    rw [ha] at ho
    exact hd.tidy o n ho
  · rw [ha] at hrec ⊢
    obtain ⟨o, ho, hfollows⟩ := hd.running hrec
    exact ⟨o, ho, hfollows.congr hf (by rw [ha]) (hhears o)⟩

theorem Steady.startSession (hd : r.Steady d)
    (hidle : (d.audience.journal r.journal).recording = false) (session : TrackedGraph.Session)
    (initial : List NodeId) :
    r.Steady { d with
      audience := d.audience.setJournal r.journal
        ((d.audience.journal r.journal).startSession session initial) } :=
  hd.setJournal rfl rfl (fun hrun => absurd (hidle.symm.trans hrun) (by simp))
    (hd.journal.startSession session initial)

theorem Steady.startFrom (roots : List NodeId) :
    Keeps r.Steady (r.startFrom roots : Edit τ Unit) := by
  intro d hd
  rcases r.startFrom_ends roots d with ⟨hidle, hexist⟩ | ⟨hsame, -⟩
  · -- The journal starts anew; then the recorder joins.
    have hstarted := hd.startSession hidle ⟨d.sessions, roots⟩ (d.forest.closure roots)
    have hself := Audience.journal_setJournal_self (a := d.audience)
      (j := (d.audience.journal r.journal).startSession ⟨d.sessions, roots⟩
        (d.forest.closure roots)) hd.stored
    rw [Recording.startFrom_apply hidle hexist]
    refine (hstarted.join ?_ ?_).congr rfl rfl rfl
    · dsimp only
      rw [hself]
      exact hidle
    · dsimp only
      rw [hself]
      rfl
  · rw [hsame]
    exact hd

theorem Steady.modify {g : Journal → Journal}
    (hg : ∀ j f generation, j.Reliable f generation → (g j).recording = j.recording ∧
      (g j).seat = j.seat ∧ (g j).session = j.session ∧ (g j).Reliable f generation) :
    Keeps r.Steady (Edit.modifyJournal r.journal g : Edit τ Unit) := by
  intro d hd
  obtain ⟨hrec, hseat, hsession, hj⟩ := hg _ _ _ hd.journal
  refine hd.setJournal hrec hseat (fun _ => ?_) hj
  unfold Journal.roots
  rw [hsession]

/-- **A recorder leaves.** -/
theorem Steady.stop : Keeps r.Steady (r.stop : Edit τ Unit) := by
  intro d hd
  cases hrec : (d.audience.journal r.journal).recording with
  | false =>
    rw [Recording.stop_of_idle hrec]
    exact hd
  | true =>
    obtain ⟨o, hseat, hfollows⟩ := hd.running hrec
    rw [Recording.stop_apply hrec hseat]
    have hj := Audience.journal_left (o := o) hd.stored
    have hsubs := Audience.subscriptions_left (k := r.journal) hfollows.seated
    refine ⟨hd.sound, hd.owning, ?_, ?_, fun o' n hnone h => ?_, fun o' s hs => ?_,
      fun hrun => ?_, ?_⟩
    · dsimp only
      rw [Audience.length_left]
      exact hd.stored
    · dsimp only
      rw [hsubs]
      exact hd.once.filter _
    · -- The one that leaves hears nothing any more, so this is somebody else.
      unfold Document.Hears at h
      dsimp only at h hnone
      rw [hsubs, Subscriptions.has_drop] at h
      obtain ⟨hne, h⟩ := h
      rw [Audience.member?_left, if_neg hne] at hnone
      exact hd.tidy o' n hnone h
    · -- A recorder has one seat only, and it leaves that.
      dsimp only at hs
      rw [Audience.member?_left] at hs
      by_cases hne : o' = o
      · rw [if_pos hne] at hs
        exact absurd hs (by simp)
      · rw [if_neg hne] at hs
        have hseat' := (hd.alone o' s hs).2
        rw [hseat, Option.some.injEq] at hseat'
        exact absurd hseat'.symm hne
    · dsimp only at hrun
      rw [hj] at hrun
      exact absurd hrun (by simp)
    · dsimp only
      rw [hj]
      exact hd.journal.congr rfl rfl rfl rfl rfl rfl rfl rfl rfl

theorem Steady.start : Keeps r.Steady (r.start : Edit τ Unit) :=
  .bind (.of_same fun _ => rfl) fun _ => Steady.startFrom _

theorem Steady.extendInitial (hd : r.Steady d)
    (hidle : (d.audience.journal r.journal).recording = false) (nodes : List NodeId) :
    r.Steady { d with
      audience := d.audience.setJournal r.journal
        ((d.audience.journal r.journal).extendInitial nodes) } :=
  hd.setJournal rfl rfl (fun hrun => absurd (hidle.symm.trans hrun) (by simp))
    (hd.journal.aged.reliable (Nat.lt_succ_self _) rfl rfl rfl hd.journal.indexed
      hd.journal.recordable hd.journal.exist)

/-- **A recorder joins again.** -/
theorem Steady.resume : Keeps r.Steady (r.resume : Edit τ Unit) := by
  intro d hd
  cases hrec : (d.audience.journal r.journal).recording with
  | true =>
    rw [resume_of_running hrec]
    exact hd
  | false =>
    cases hsession : (d.audience.journal r.journal).session with
    | none =>
      unfold Recording.resume
      rw [Recording.read_bind, hrec, hsession]
      exact Steady.start d hd
    | some session =>
      have hself := Audience.journal_setJournal_self (a := d.audience)
        (j := (d.audience.journal r.journal).extendInitial (r.unseen d)) hd.stored
      rw [resume_apply hrec hsession]
      refine (hd.extendInitial hrec (r.unseen d)).join ?_ ?_
      · dsimp only
        rw [hself]
        exact hrec
      · dsimp only
        rw [hself]
        exact congrArg d.forest.closure (Journal.roots_of_session hsession).symm

theorem Steady.reduceJournal :
    Keeps r.Steady (Edit.reduceJournal r.journal r.policy.prune : Edit τ Reduction) := by
  intro d hd
  obtain ⟨-, -, hj⟩ := Journal.reduce_eq_ok d.forest r.policy.prune
    fun x hx => (Journal.forall_allEarliest hd.journal.recordable x hx).exists_slot hd.sound.toTyped
  have hreliable : ((d.audience.journal r.journal).reduce d.forest r.policy.prune).2.Reliable
    d.forest d.generation := (hd.journal.reduce hd.sound.toTyped).2
  generalize hj' : ((d.audience.journal r.journal).reduce d.forest r.policy.prune).2 = j
    at hj hreliable
  have hset : r.Steady { d with audience := d.audience.setJournal r.journal j } :=
    hd.setJournal (by rw [hj]) (by rw [hj]) (fun _ => by rw [hj]; rfl) hreliable
  rw [← hj'] at hset
  exact hset

theorem Steady.reduce : Keeps r.Steady (r.reduce : Edit τ Reduction) :=
  .bind (.of_same fun _ => rfl) fun _ =>
    .ite (.bind (.throw _) fun _ => reduceJournal) reduceJournal

/-- **Reverting** edits the forest while nobody writes the journal, or while somebody does. -/
theorem Steady.revert : Keeps r.Steady (r.revert : Edit τ Revert.Report) := by
  have hforget : Keeps r.Steady (Edit.modifyJournal r.journal (·.forget) : Edit τ Unit) :=
    Steady.modify fun j f generation hj => ⟨rfl, rfl, rfl, hj.forget⟩
  have hrun : Keeps r.Steady (Revert.run r.policy r.journal : Edit τ Revert.Report) :=
    Revert.keeps_run Steady.mutation Steady.reduceJournal hforget
  refine .bind (.of_same fun _ => rfl) fun j => .ite (.bind (.throw _) fun _ => ?_) ?_ <;>
    exact .ite (.bind (.throw _) fun _ => hrun) hrun

/-- **Every call** keeps a recording in order. -/
theorem Steady.perform (c : Call) : Keeps r.Steady (r.perform c : Edit τ Outcome) := by
  have hread : Keeps r.Steady (r.read : Edit τ Journal) := .of_same fun _ => rfl
  have hsuspended : ∀ b, Keeps r.Steady
      (r.modify fun j => { j with suspended := b } : Edit τ Unit) := fun b =>
    Steady.modify fun j f generation hj =>
      ⟨rfl, rfl, rfl, hj.congr rfl rfl rfl rfl rfl rfl rfl rfl rfl⟩
  cases c with
  | start => exact .bind Steady.start fun _ => .pure _
  | startFrom roots => exact .bind (Steady.startFrom roots) fun _ => .pure _
  | resume => exact .bind Steady.resume fun _ => .pure _
  | stop => exact .bind Steady.stop fun _ => .pure _
  | suspend => exact .bind (hsuspended true) fun _ => .pure _
  | unsuspend => exact .bind (hsuspended false) fun _ => .pure _
  | reduceRunning =>
    refine .bind (.bind hread fun j => ?_) fun _ => .pure _
    exact .ite (.bind (.throw _) fun _ => Steady.reduce) Steady.reduce
  | reduce => exact .bind Steady.reduce fun _ => .pure _
  | revert => exact .bind Steady.revert fun _ => .pure _
  | undo =>
    refine .bind (.bind hread fun j => ?_) fun _ => .pure _
    exact .ite (.bind Steady.stop fun _ => Steady.revert) Steady.revert

theorem Steady.ask (question : Journal.Question) (hd : r.Steady d) :
    r.Steady (r.ask question d).2 := by
  have hreliable := hd.journal.answered question
  obtain ⟨_, _, _, _, hj, -⟩ := question.answered_frame d.forest d.generation
    (d.audience.journal r.journal)
  generalize hj' : question.answered d.forest d.generation (d.audience.journal r.journal) = j
    at hj hreliable
  have hset : r.Steady { d with audience := d.audience.setJournal r.journal j } :=
    hd.setJournal (by rw [hj]) (by rw [hj]) (fun _ => by rw [hj]; rfl) hreliable
  rw [← hj'] at hset
  exact hset

/-! ## A recording among others -/

/-- What others do with the audience: they come and go, and remember what they like. They leave
the recorders of the journal on their seats, and with their subscriptions. -/
structure Undisturbed (r : Recording) (d d' : Document τ) : Prop where
  forest : d'.forest = d.forest
  generation : d'.generation = d.generation
  journal : d'.audience.journal r.journal = d.audience.journal r.journal
  stored : d.audience.journals.length ≤ d'.audience.journals.length
  seats : ∀ o s, d'.audience.member? o = some (.recorder r.journal s) ↔
    d.audience.member? o = some (.recorder r.journal s)
  hears : ∀ o s n, d.audience.member? o = some (.recorder r.journal s) →
    (d'.Hears o n ↔ d.Hears o n)
  once : d'.audience.subscriptions.pairs.Nodup
  tidy : ∀ o n, d'.audience.member? o = none → ¬ d'.Hears o n

theorem Steady.undisturbed (hd : r.Steady d) (h : r.Undisturbed d d') : r.Steady d' := by
  refine ⟨by rw [h.forest]; exact hd.sound, by rw [h.forest]; exact hd.owning,
    Nat.lt_of_lt_of_le hd.stored h.stored, h.once, h.tidy, fun o s ho => ?_, fun hrec => ?_, ?_⟩
  · rw [h.journal]
    exact hd.alone o s ((h.seats o s).mp ho)
  · rw [h.journal] at hrec ⊢
    obtain ⟨o, hseat, hfollows⟩ := hd.running hrec
    have hseated := (h.seats o _).mpr hfollows.seated
    exact ⟨o, hseat, hfollows.congr h.forest (hseated.trans hfollows.seated.symm)
      fun n => h.hears o _ n hfollows.seated⟩
  · rw [h.journal, h.forest, h.generation]
    exact hd.journal

/-- A recording is used in whatever way, while the document is edited and others do what they
like. -/
inductive Among (r : Recording) (d₀ : Document τ) : Document τ → Prop
  | start : Among r d₀ d₀
  | edit (d : Document τ) (m : Mutation) (h : Among r d₀ d) : Among r d₀ (m.run d).2
  | call (d : Document τ) (c : Call) (h : Among r d₀ d) : Among r d₀ (r.perform c d).2
  | ask (d : Document τ) (question : Journal.Question) (h : Among r d₀ d) :
      Among r d₀ (r.ask question d).2
  | others (d d' : Document τ) (h : Among r d₀ d) (ho : r.Undisturbed d d') : Among r d₀ d'

/-- **However a recording is used**, and whatever others do, it stays in order. -/
theorem Among.steady (h : r.Among d₀ d) (h₀ : r.Steady d₀) : r.Steady d := by
  induction h with
  | start => exact h₀
  | edit d m _ ih => exact Steady.mutation m d ih
  | call d c _ ih => exact Steady.perform c d ih
  | ask d question _ ih => exact ih.ask question
  | others d d' _ ho ih => exact ih.undisturbed ho

/-- A recording that has not been used: its journal is empty, and nobody writes it. -/
structure Fresh (r : Recording) (d : Document τ) : Prop where
  stored : r.journal < d.audience.journals.length
  journal : d.audience.journal r.journal = {}
  alone : ∀ o s, d.audience.member? o ≠ some (.recorder r.journal s)
  once : d.audience.subscriptions.pairs.Nodup
  tidy : ∀ o n, d.audience.member? o = none → ¬ d.Hears o n

theorem Fresh.steady (h : r.Fresh d) (hf : d.forest.Sound True)
    (ho : d.forest.schema.OwningMembers) : r.Steady d := by
  refine ⟨hf, ho, h.stored, h.once, h.tidy, fun o s hs => absurd hs (h.alone o s), ?_, ?_⟩ <;>
    rw [h.journal]
  · exact fun hrun => absurd hrun (by simp)
  · exact Journal.reliable_new

end Recording

end TrackedGraph
