/-
What a recording hears.

The journal of a recording is written by the recorder of its running session, which is told of
the changes to nodes that it is subscribed to and changes its subscriptions when it is told. So
what becomes of a recording while somebody else works on the document depends on the changes
that are announced, and on nothing else that is done: it can be replayed from them (`Ear.hear`).
One announcement is one step of the replay (`Tuned.ear_announce`).
-/
import TrackedGraph.Proofs.Recording.Remembering
import TrackedGraph.Proofs.Document.Respecting

set_option autoImplicit false

namespace TrackedGraph

variable {τ : Type} {d d' d₀ : Document τ} {o : ObserverId} {n : NodeId} {N : Notice}
  {r : Recording}

/-- The nodes that the recorder of a running session hears of. -/
def Recording.heard (r : Recording) (d : Document τ) (n : NodeId) : Bool :=
  (d.audience.journal r.journal).recording &&
    (d.audience.journal r.journal).seat.any (d.audience.subscriptions.has · n)

/-- **The journal is written by the recorder of its running session** and by nobody else. -/
structure Recording.Tuned (r : Recording) (d : Document τ) : Prop where
  stored : r.journal < d.audience.journals.length
  once : d.audience.subscriptions.pairs.Nodup
  alone : ∀ o s, d.audience.member? o = some (.recorder r.journal s) →
    (d.audience.journal r.journal).recording = true ∧
      (d.audience.journal r.journal).seat = some o
  running : (d.audience.journal r.journal).recording = true →
    ∃ o, (d.audience.journal r.journal).seat = some o ∧
      d.audience.member? o = some (.recorder r.journal r.policy.strict)

namespace Recording

theorem heard_of_idle (h : (d.audience.journal r.journal).recording = false) :
    r.heard d n = false := by
  rw [heard, h, Bool.false_and]

theorem heard_of_running (h : (d.audience.journal r.journal).recording = true)
    (hs : (d.audience.journal r.journal).seat = some o) : r.heard d n = true ↔ d.Hears o n := by
  rw [heard, h, hs, Bool.true_and, Option.any_some, Document.Hears]

/-- Nobody writes the journal while no session runs. -/
theorem Tuned.nobody (hd : r.Tuned d)
    (h : (d.audience.journal r.journal).recording = false) (o : ObserverId) (s : Bool) :
    d.audience.member? o ≠ some (.recorder r.journal s) := by
  intro ho
  have hrec := (hd.alone o s ho).1
  rw [h] at hrec
  exact absurd hrec (by simp)

/-- **What an accepted change does to the recording**: it reaches the journal, which records it
once, and the recorder goes along with the children that leave and enter; or nothing happens. -/
theorem Tuned.announced (hd : r.Tuned d) (h : (Edit.announce N d).1 = .ok ()) :
    (∃ q, r.heard d N.node = true ∧ Tracking.plan r.policy.strict d.forest N = .ok q ∧
        (Edit.announce N d).2.audience.journal r.journal =
          Tracking.record N q (d.audience.journal r.journal) ∧
        ∀ m, (r.heard (Edit.announce N d).2 m = true ↔
          r.heard d m = true ∧ m ∉ q.leaving.flatMap d.forest.contents ∨
            m ∈ q.entering.flatMap d.forest.contents)) ∨
      r.heard d N.node = false ∧
        (Edit.announce N d).2.audience.journal r.journal = d.audience.journal r.journal ∧
        ∀ m, r.heard (Edit.announce N d).2 m = r.heard d m := by
  have htold := (announce_apply N d).1.symm.trans h
  have haudience := audience_announce (d := d) N
  cases hrec : (d.audience.journal r.journal).recording with
  | false =>
    -- No session runs: nobody in the audience writes this journal.
    have hj : (Edit.announce N d).2.audience.journal r.journal = d.audience.journal r.journal := by
      rw [haudience]
      exact Audience.journal_announce_of_none (hd.nobody hrec)
    refine .inr ⟨heard_of_idle hrec, hj, fun m => ?_⟩
    rw [heard_of_idle hrec, heard_of_idle (by rw [hj]; exact hrec)]
  | true =>
    obtain ⟨o, hseat, hseated⟩ := hd.running hrec
    have hwritten : d.audience.WrittenBy r.journal o := by
      intro o' s ho'
      exact Option.some.inj ((hd.alone o' s ho').2.symm.trans hseat)
    have hn : r.heard d N.node = true ↔ d.audience.subscriptions.has o N.node = true :=
      heard_of_running hrec hseat
    rcases Audience.journal_announce_once htold hseated hwritten hd.stored hd.once
      with ⟨q, hhas, hq, hj⟩ | ⟨hnot, hj⟩
    · -- The recorder is subscribed to the node: it is told, and told once.
      rw [← haudience] at hj
      have hsame := Journal.sameSession_record (N := N) (q := q) (j := d.audience.journal r.journal)
      rw [← hj] at hsame
      refine .inl ⟨q, hn.mpr hhas, hq, hj, fun m => ?_⟩
      rw [heard_of_running (hsame.1.trans hrec) (hsame.2.2.1.trans hseat),
        heard_of_running hrec hseat]
      obtain ⟨q', hq', hhears⟩ := Audience.announce_has htold hseated hhas
      rw [hq, Except.ok.injEq] at hq'
      rw [hq', Document.Hears, haudience]
      exact hhears m
    · -- The recorder is not subscribed to the node, and nobody else writes its journal.
      rw [← haudience] at hj
      refine .inr ⟨Bool.eq_false_iff.mpr fun hx => hnot (hn.mp hx), hj, fun m => ?_⟩
      rw [Bool.eq_iff_iff, heard_of_running (by rw [hj]; exact hrec) (by rw [hj]; exact hseat),
        heard_of_running hrec hseat, Document.Hears, haudience,
        Audience.announce_has_of_not hnot]
      exact Iff.rfl

end Recording

/-! ## Replaying announcements -/

/-- What a recording hears of, and the journal that is written from it. -/
structure Ear where
  hears : NodeId → Bool
  journal : Journal

/-- **Hears of one change.** A change to a node that is heard of is recorded, and the contents of
the children that leave and enter are left and joined. -/
def Ear.hear (strict : Bool) (e : Ear) (a : Announcement) : Ear :=
  if e.hears a.notice.node then
    match Tracking.plan strict a.forest a.notice with
    | .ok q =>
      { hears := fun m => e.hears m && !(q.leaving.flatMap a.forest.contents).contains m ||
          (q.entering.flatMap a.forest.contents).contains m
        journal := Tracking.record a.notice q e.journal }
    | .error _ => e
  else e

namespace Recording

/-- What the recording hears of in a document, and its journal there. -/
def ear (r : Recording) (d : Document τ) : Ear := ⟨r.heard d, d.audience.journal r.journal⟩

/-- **An accepted change is heard of once.** -/
theorem Tuned.ear_announce (hd : r.Tuned d) (h : (Edit.announce N d).1 = .ok ()) :
    r.ear (Edit.announce N d).2 = (r.ear d).hear r.policy.strict ⟨N, d.forest⟩ := by
  rcases hd.announced h with ⟨q, hn, hq, hj, hhears⟩ | ⟨hn, hj, hhears⟩
  · unfold Ear.hear ear
    simp only [hn, hq, if_true, hj, Ear.mk.injEq, and_true]
    funext m
    rw [Bool.eq_iff_iff, hhears m]
    simp
  · unfold Ear.hear ear
    simp only [hn, hj, Bool.false_eq_true, if_false, Ear.mk.injEq, and_true]
    exact funext hhears

/-- The ear depends on the journal and on what its seat is subscribed to. -/
theorem ear_congr (hj : d'.audience.journal r.journal = d.audience.journal r.journal)
    (hs : ∀ o, (d.audience.journal r.journal).recording = true →
      (d.audience.journal r.journal).seat = some o →
      ∀ n, d'.audience.subscriptions.has o n = d.audience.subscriptions.has o n) :
    r.ear d' = r.ear d := by
  unfold ear heard
  rw [hj, Ear.mk.injEq]
  refine ⟨funext fun n => ?_, rfl⟩
  cases hrec : (d.audience.journal r.journal).recording with
  | false => rfl
  | true =>
    cases hseat : (d.audience.journal r.journal).seat with
    | none => rfl
    | some o => exact hs o hrec hseat n

/-- **What became of a recording since** is what it heard of the changes that were announced. -/
def Replays (r : Recording) (d₀ d : Document τ) : Prop :=
  ∃ l, d.history = d₀.history ++ l ∧ r.ear d = l.foldl (Ear.hear r.policy.strict) (r.ear d₀)

theorem Replays.refl (r : Recording) (d : Document τ) : r.Replays d d :=
  ⟨[], (List.append_nil _).symm, rfl⟩

theorem Replays.congr (h : r.Replays d₀ d) (hh : d'.history = d.history)
    (he : r.ear d' = r.ear d) : r.Replays d₀ d' := by
  obtain ⟨l, hl, hear⟩ := h
  exact ⟨l, hh.trans hl, he.trans hear⟩

theorem Replays.poll (h : r.Replays d₀ d) : r.Replays d₀ (Edit.poll N d).2 := by
  refine h.congr ?_ (ear_congr ?_ fun _ _ _ _ => ?_) <;> rw [(poll_apply N d).2]
  · simp only [Audience.poll]
    rw [Audience.askAll_memory]
    rfl
  · simp only [Audience.poll]
    rw [Audience.askAll_memory]

/-- One announcement is one step of the replay, and none if it is refused. -/
theorem Replays.announce (h : r.Replays d₀ d) (hd : r.Tuned d) :
    r.Replays d₀ (Edit.announce N d).2 := by
  cases hres : (Edit.announce N d).1 with
  | ok _ =>
    obtain ⟨l, hl, hear⟩ := h
    refine ⟨l ++ [⟨N, d.forest⟩], ?_, ?_⟩
    · rw [history_announce_ok hres, ← List.append_assoc, ← hl]
    · rw [hd.ear_announce hres, hear, List.foldl_append]
      rfl
  | error fault =>
    -- Those who were asked before the refusal may remember it, but nobody was told.
    have haudience : (Edit.announce N d).2.audience =
        { d.audience with memory := (Edit.announce N d).2.audience.memory } := by
      rw [audience_announce]
      exact Audience.announce_error ((announce_apply N d).1.symm.trans hres)
    refine h.congr ?_ (ear_congr ?_ fun _ _ _ _ => ?_)
    · exact history_announce_error hres
    · rw [haudience]
      rfl
    · rw [haudience]

end Recording

/-! ### Without effect on the journal -/

namespace Ear

variable {e : Ear} {strict : Bool}

end Ear

end TrackedGraph
