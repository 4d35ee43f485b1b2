/-
Several recordings of one document.

A document may have any number of recordings, which are called in any order while it is edited
and observers come and go. That a session runs is written down three times: in the journal, in
the seat that the journal notes, and in the seats of the audience, where seats that are left are
given away again. These agree at every moment (`Audience.Attuned`), as long as nobody from
outside empties the seat of a recorder. And since each recorder writes its own journal only, what
becomes of one recording while somebody else acts can be replayed from the changes that are
announced (`Document.Turn.untouched`).
-/
import TrackedGraph.Proofs.Document.Seating
import TrackedGraph.Proofs.Recording.Calling
import TrackedGraph.Proofs.Recording.Hearing
import TrackedGraph.Proofs.Recording.Noting

set_option autoImplicit false

namespace TrackedGraph

open Edit (Keeps)

variable {τ : Type} {a b : Audience τ} {d d' d₀ : Document τ} {o : ObserverId} {n : NodeId}
  {r q : Recording} {rs : List Recording} {k : Nat} {f : Forest} {N : Notice}
  {tracked : List NodeId}

/-! ## Seats, journals and sessions -/

/-- **The recordings of an audience**, one for each journal: a recorder has a seat exactly if its
session runs, and it is the seat that its journal notes. -/
structure Audience.Attuned (rs : List Recording) (a : Audience τ) : Prop where
  numbered : rs.map (·.journal) = List.range a.journals.length
  once : a.subscriptions.pairs.Nodup
  seated : ∀ o k s, a.member? o = some (.recorder k s) ↔
    ∃ r ∈ rs, r.journal = k ∧ r.policy.strict = s ∧ (a.journal k).recording = true ∧
      (a.journal k).seat = some o
  begun : ∀ r ∈ rs, (a.journal r.journal).recording = true →
    (a.journal r.journal).seat.isSome = true ∧ (a.journal r.journal).session.isSome = true

namespace Audience

/-- A journal that is added is as empty as one that was not there. -/
theorem journal_addJournal : (a.addJournal {}).2.journal k = a.journal k := by
  unfold journal addJournal
  by_cases hk : k < a.journals.length
  · simp only [List.getElem?_append_left hk]
  · rw [List.getElem?_append_right (Nat.le_of_not_lt hk),
      List.getElem?_eq_none (Nat.le_of_not_lt hk)]
    cases k - a.journals.length <;> rfl

namespace Attuned

variable (h : a.Attuned rs)

include h

theorem stored (hr : r ∈ rs) : r.journal < a.journals.length := by
  rw [← List.mem_range, ← h.numbered]
  exact List.mem_map_of_mem hr

/-- No two recordings write one journal. -/
theorem eq_of_journal (hr : r ∈ rs) (hq : q ∈ rs) (heq : q.journal = r.journal) : q = r := by
  have hnodup : (rs.map (·.journal)).Nodup := by
    rw [h.numbered]
    exact List.nodup_range
  exact List.inj_on_of_nodup_map hnodup hq hr heq

/-- A seat that a recorder has is the one noted in its journal. -/
theorem seat_of_member {s : Bool} (hr : r ∈ rs)
    (ho : a.member? o = some (.recorder r.journal s)) :
    (a.journal r.journal).recording = true ∧ (a.journal r.journal).seat = some o ∧
      s = r.policy.strict := by
  obtain ⟨q, hq, hk, hs, hrec, hseat⟩ := (h.seated o _ s).mp ho
  obtain rfl := h.eq_of_journal hr hq hk
  exact ⟨hrec, hseat, hs.symm⟩

theorem member_of_running (hr : r ∈ rs) (hrec : (a.journal r.journal).recording = true) :
    ∃ o, (a.journal r.journal).seat = some o ∧
      a.member? o = some (.recorder r.journal r.policy.strict) := by
  obtain ⟨o, hseat⟩ := Option.isSome_iff_exists.mp (h.begun r hr hrec).1
  exact ⟨o, hseat, (h.seated o _ _).mpr ⟨r, hr, rfl, rfl, hrec, hseat⟩⟩

/-- Nothing but seats, the number of journals and the sessions matters. -/
theorem of_same (hlength : b.journals.length = a.journals.length)
    (honce : b.subscriptions.pairs.Nodup) (hmember : ∀ o, b.member? o = a.member? o)
    (hj : ∀ k, (b.journal k).recording = (a.journal k).recording ∧
      (b.journal k).seat = (a.journal k).seat ∧
      ((a.journal k).session.isSome = true → (b.journal k).session.isSome = true)) :
    b.Attuned rs := by
  refine ⟨by rw [h.numbered, hlength], honce, fun o k s => ?_, fun r hr hrec => ?_⟩
  · rw [hmember, (hj k).1, (hj k).2.1]
    exact h.seated o k s
  · rw [(hj _).1] at hrec
    obtain ⟨hseat, hsession⟩ := h.begun r hr hrec
    exact ⟨by rw [(hj _).2.1]; exact hseat, (hj _).2.2 hsession⟩

/-! ### What keeps it -/

theorem poll : (a.poll f N).2.Attuned rs := by
  have hmemory : (a.poll f N).2 = { a with memory := (a.poll f N).2.memory } := askAll_memory
  rw [hmemory]
  exact h.of_same rfl h.once (fun _ => rfl) fun _ => ⟨rfl, rfl, id⟩

/-- Announcements are nothing to sessions. -/
theorem announce : (a.announce f N).2.Attuned rs := by
  refine h.of_same length_journals_announce (nodup_announce h.once) (fun _ => member?_announce)
    fun k => ?_
  have hsame : (a.journal k).SameSession ((a.announce f N).2.journal k) :=
    journal_announce_of (P := (a.journal k).SameSession)
      (fun _ _ _ _ hj => hj.trans Journal.sameSession_record) (.refl _)
  exact ⟨hsame.1, hsame.2.2.1, fun hs => by rw [hsame.2.2.2.1]; exact hs⟩

/-- A journal may be written where that is nothing to its session. -/
theorem setJournal {j : Journal} (hrec : j.recording = (a.journal k).recording)
    (hseat : j.seat = (a.journal k).seat)
    (hsession : (a.journal k).session.isSome = true → j.session.isSome = true) :
    (a.setJournal k j).Attuned rs := by
  refine h.of_same length_setJournal h.once (fun _ => rfl) fun i => ?_
  rw [journal_setJournal]
  split_ifs with hk
  · obtain ⟨rfl, -⟩ := hk
    exact ⟨hrec, hseat, hsession⟩
  · exact ⟨rfl, rfl, id⟩

/-- **A recorder joins** on a seat that was free. -/
theorem joined (hr : r ∈ rs) (hidle : (a.journal r.journal).recording = false)
    (hsession : (a.journal r.journal).session.isSome = true) :
    (a.joined r tracked).Attuned rs := by
  have hk := h.stored hr
  generalize hx : (a.add (.recorder r.journal r.policy.strict)).1 = o
  have hfree : a.member? o = none := by rw [← hx]; exact member?_add_free
  have hmember : ∀ o', o' ≠ o → (a.joined r tracked).member? o' = a.member? o' := by
    intro o' hne
    rw [← hx] at hne
    exact member?_add_of_ne hne
  have hseated : (a.joined r tracked).member? o = some (.recorder r.journal r.policy.strict) := by
    rw [← hx]
    exact member?_joined
  have hj : (a.joined r tracked).journal r.journal =
      { a.journal r.journal with seat := some o, recording := true } := by
    rw [← hx]
    exact journal_joined hk
  refine ⟨by rw [h.numbered, length_joined], ?_, fun o' k s => ?_, fun q hq hrec => ?_⟩
  · rw [subscriptions_joined]
    exact Subscriptions.nodup_changeAll h.once _
  · by_cases hne : o' = o
    · subst hne
      rw [hseated, Option.some.injEq, Member.recorder.injEq]
      constructor
      · rintro ⟨rfl, rfl⟩
        rw [hj]
        exact ⟨r, hr, rfl, rfl, rfl, rfl⟩
      · rintro ⟨q, hq, rfl, rfl, hrec, hseat⟩
        by_cases heq : q.journal = r.journal
        · obtain rfl := h.eq_of_journal hr hq heq
          exact ⟨rfl, rfl⟩
        · -- The seat was free, so no other session is on it.
          rw [journal_joined_of_ne heq] at hrec hseat
          have ho := (h.seated o' q.journal q.policy.strict).mpr ⟨q, hq, rfl, rfl, hrec, hseat⟩
          rw [hfree] at ho
          exact absurd ho (by simp)
    · rw [hmember o' hne, h.seated]
      by_cases hkr : k = r.journal
      · -- No other seat was this recorder's, since no session of it was running.
        subst hkr
        rw [hj, hidle]
        simp [Ne.symm hne]
      · rw [journal_joined_of_ne hkr]
  · by_cases heq : q.journal = r.journal
    · rw [heq, hj]
      exact ⟨rfl, hsession⟩
    · rw [journal_joined_of_ne heq] at hrec ⊢
      exact h.begun q hq hrec

/-- **A recorder leaves.** -/
theorem left (hr : r ∈ rs) (hrec : (a.journal r.journal).recording = true)
    (hseat : (a.journal r.journal).seat = some o) : (a.left r.journal o).Attuned rs := by
  have hk := h.stored hr
  have hseated : a.member? o = some (.recorder r.journal r.policy.strict) :=
    (h.seated o _ _).mpr ⟨r, hr, rfl, rfl, hrec, hseat⟩
  refine ⟨by rw [h.numbered, length_left], ?_, fun o' k s => ?_, fun q hq hrec' => ?_⟩
  · rw [subscriptions_left hseated]
    exact h.once.filter _
  · rw [member?_left]
    by_cases hkr : k = r.journal
    · subst hkr
      rw [journal_left hk]
      constructor
      · -- It had no second seat.
        intro ho
        split_ifs at ho with hne
        exact absurd (Option.some.inj ((h.seat_of_member hr ho).2.1.symm.trans hseat)) hne
      · rintro ⟨_, _, _, _, hfalse, _⟩
        exact absurd hfalse (by simp)
    · rw [journal_left_of_ne hkr]
      by_cases hne : o' = o
      · rw [if_pos hne]
        refine ⟨fun ho => absurd ho (by simp), fun hq => ?_⟩
        have ho := (h.seated o' k s).mpr hq
        rw [hne, hseated, Option.some.injEq, Member.recorder.injEq] at ho
        exact absurd ho.1.symm hkr
      · rw [if_neg hne]
        exact h.seated o' k s
  · by_cases heq : q.journal = r.journal
    · rw [heq, journal_left hk] at hrec'
      exact absurd hrec' (by simp)
    · rw [journal_left_of_ne heq] at hrec' ⊢
      exact h.begun q hq hrec'

/-! ### What is done from outside -/

theorem seat (x : Observer τ) : (a.add (.observer x)).2.Attuned rs := by
  have hj : ∀ k, (a.add (.observer x)).2.journal k = a.journal k := by
    intro k
    unfold journal
    rw [journals_add]
  have hmember : ∀ o k s, (a.add (.observer x)).2.member? o = some (.recorder k s) ↔
      a.member? o = some (.recorder k s) := by
    intro o k s
    by_cases ho : o = (a.add (.observer x)).1
    · rw [ho, member?_add, member?_add_free]
      simp
    · rw [member?_add_of_ne ho]
  refine ⟨by rw [h.numbered, journals_add], by rw [subscriptions_add]; exact h.once,
    fun o k s => ?_, fun r hr => ?_⟩
  · rw [hmember, hj]
    exact h.seated o k s
  · rw [hj]
    exact h.begun r hr

/-- Somebody other than a recorder leaves. -/
theorem unseat (ho : ∀ k s, a.member? o ≠ some (.recorder k s)) : (a.remove o).2.Attuned rs := by
  have hj : ∀ k, (a.remove o).2.journal k = a.journal k := by
    intro k
    unfold journal
    rw [journals_remove]
  refine ⟨by rw [h.numbered, journals_remove], ?_, fun o' k s => ?_, fun r hr => ?_⟩
  · unfold remove
    split
    · exact h.once.filter _
    · exact h.once
  · rw [member?_remove, hj, ← h.seated o' k s]
    split_ifs with heq
    · subst heq
      exact ⟨fun hx => absurd hx (by simp), fun hx => absurd hx (ho k s)⟩
    · exact Iff.rfl
  · rw [hj]
    exact h.begun r hr

theorem subscriptions {s : Subscriptions} (hs : s.pairs.Nodup) :
    Attuned rs { a with subscriptions := s } :=
  h.of_same rfl hs (fun _ => rfl) fun _ => ⟨rfl, rfl, id⟩

/-- One recording more, with a journal of its own. -/
theorem enroll (policy : Policy) :
    (a.addJournal {}).2.Attuned (rs ++ [⟨a.journals.length, policy⟩]) := by
  refine ⟨?_, h.once, fun o k s => ?_, fun r hr hrec => ?_⟩
  · rw [List.map_append, h.numbered]
    simp [addJournal, List.range_succ]
  · rw [journal_addJournal]
    refine (h.seated o k s).trans (exists_congr fun r => ?_)
    rw [List.mem_append, List.mem_singleton]
    refine ⟨fun hr => ⟨.inl hr.1, hr.2⟩, fun hr => ⟨hr.1.resolve_right ?_, hr.2⟩⟩
    -- The journal that is added is idle, so no seat is its recorder's.
    rintro rfl
    obtain ⟨-, rfl, -, hrec, -⟩ := hr
    rw [journal_of_le (Nat.le_refl _)] at hrec
    exact absurd hrec (by simp)
  · rw [journal_addJournal] at hrec ⊢
    rcases List.mem_append.mp hr with hr | hr
    · exact h.begun r hr hrec
    · obtain rfl := List.mem_singleton.mp hr
      rw [journal_of_le (Nat.le_refl _)] at hrec
      exact absurd hrec (by simp)

end Attuned

theorem attuned_nil (memory : τ) : Attuned [] ({ memory } : Audience τ) :=
  ⟨rfl, List.nodup_nil, by simp [member?], by simp⟩

end Audience

theorem Audience.Attuned.tuned (h : d.audience.Attuned rs) (hr : r ∈ rs) : r.Tuned d :=
  ⟨h.stored hr, h.once, fun _ _ ho => ⟨(h.seat_of_member hr ho).1, (h.seat_of_member hr ho).2.1⟩,
    fun hrec => h.member_of_running hr hrec⟩

/-! ## Calls -/

namespace Recording

theorem attuned_mutation (m : Mutation) :
    Keeps (fun d : Document τ => d.audience.Attuned rs) m.run :=
  m.keeps_audience (fun _ _ _ h => h.poll) fun _ _ _ h => h.announce

/-- **The calls of a recording** keep all recordings in tune. -/
theorem attuned_sustains (hr : r ∈ rs) :
    r.Sustains (fun d : Document τ => d.audience.Attuned rs) where
  edits := attuned_mutation
  sessions := fun _ _ h => h
  writes := fun _ _ hsame _ h => h.setJournal (hsame _).1 (hsame _).2.1 (hsame _).2.2
  reduces := fun d h => by
    obtain ⟨hrec, -, hseat, hsession, -⟩ := Journal.sameSession_reduce d.forest r.policy.prune
      (d.audience.journal r.journal)
    have hkept : (d.audience.journal r.journal).session.isSome = true →
        ((d.audience.journal r.journal).reduce d.forest r.policy.prune).2.session.isSome = true :=
      fun hs => by rw [hsession]; exact hs
    exact h.setJournal hrec hseat hkept
  joins := fun d tracked h hidle hsession => h.joined hr hidle (hsession (h.stored hr))
  leaves := fun d h hrec => by
    obtain ⟨o, hseat, -⟩ := h.member_of_running hr hrec
    rw [stop_apply hrec hseat]
    exact h.left hr hrec hseat

/-! ## One recording while others act -/

/-- The journal of another recording may be written. -/
theorem Replays.setJournal (h : r.Replays d₀ d) (hne : q.journal ≠ r.journal) (j : Journal) :
    r.Replays d₀ { d with audience := d.audience.setJournal q.journal j } := by
  refine h.congr rfl (ear_congr ?_ fun _ _ _ _ => rfl)
  dsimp only
  rw [Audience.journal_setJournal, if_neg fun hk => hne hk.1]

end Recording

/-! ## Turns -/

/-- Whoever leaves a seat is no recorder, and no recorder is seated. -/
def Deed.Spares (a : Audience τ) : Deed τ → Prop
  | .seat (.recorder _ _) => False
  | .unseat o => ∀ k s, a.member? o ≠ some (.recorder k s)
  | _ => True

/-- **What is done next**, and by which recording, if one is called or asked. -/
inductive Document.Turn (rs : List Recording) (d : Document τ) :
    Option Recording → List Recording → Document τ → Prop
  /-- Anything from outside that spares the recorders. -/
  | outside (deed : Deed τ) (h : deed.Spares d.audience) : Turn rs d none rs (deed.run d).2
  /-- One recording more, which is the one that is returned. -/
  | enroll (policy : Policy) :
      Turn rs d none (rs ++ [⟨d.audience.journals.length, policy⟩]) (Recording.new policy d).2
  | call (r : Recording) (c : Recording.Call) (hr : r ∈ rs) :
      Turn rs d (some r) rs (r.perform c d).2
  | ask (r : Recording) (question : Journal.Question) (hr : r ∈ rs) :
      Turn rs d (some r) rs (r.ask question d).2

/-- A document with recordings, and all that was done to it since it was new. -/
inductive Document.Shared : List Recording → Document τ → Prop
  | new {schema : Schema} {rootType : String} {memory : τ} {d : Document τ}
      (h : Document.new schema rootType memory = .ok d) : Shared [] d
  | turn {rs rs' : List Recording} {d d' : Document τ} {who : Option Recording} (h : Shared rs d)
      (ht : d.Turn rs who rs' d') : Shared rs' d'

theorem Deed.attuned (h : d.audience.Attuned rs) (deed : Deed τ)
    (hspares : deed.Spares d.audience) : (deed.run d).2.audience.Attuned rs := by
  cases deed with
  | edit m => exact Recording.attuned_mutation m d h
  | seat x =>
    cases x with
    | recorder k s => exact absurd hspares id
    | observer x => exact h.seat x
  | unseat o => exact h.unseat hspares
  | subscribe o n =>
    exact h.subscriptions (Subscriptions.nodup_change h.once (.subscribe n))
  | unsubscribe o n => exact h.subscriptions (h.once.filter _)

/-- **A turn keeps the recordings in tune.** -/
theorem Document.Turn.attuned {rs' : List Recording} {who : Option Recording}
    (h : d.audience.Attuned rs) (ht : d.Turn rs who rs' d') : d'.audience.Attuned rs' := by
  cases ht with
  | outside deed hspares => exact Deed.attuned h deed hspares
  | enroll policy => exact h.enroll policy
  | call r c hr => exact (Recording.attuned_sustains hr).perform c d h
  | ask r question hr =>
    obtain ⟨_, _, _, _, hj, -⟩ := question.answered_frame d.forest d.generation
      (d.audience.journal r.journal)
    refine h.setJournal ?_ ?_ ?_ <;> rw [hj]
    exact id

theorem Document.Shared.attuned (h : d.Shared rs) : d.audience.Attuned rs := by
  induction h with
  | new h =>
    rw [Document.audience_new h]
    exact Audience.attuned_nil _
  | turn _ ht ih => exact ht.attuned ih

/-- What becomes of a recording in a turn of somebody else: its journal is what it has heard of the
changes that were announced, and nothing where no session runs or the journal is suspended. -/
structure Recording.Untouched (r : Recording) (d d' : Document τ) (l : List Announcement) :
    Prop where
  history : d'.history = d.history ++ l
  journal : d'.audience.journal r.journal =
    (l.foldl (Ear.hear r.policy.strict) (r.ear d)).journal
  /-- From outside a recorder may be subscribed and unsubscribed, while nothing is announced. -/
  hears : l = [] ∨ r.ear d' = l.foldl (Ear.hear r.policy.strict) (r.ear d)
  idle : r.isRunning d = false ∨ (d.audience.journal r.journal).suspended = true →
    d'.audience.journal r.journal = d.audience.journal r.journal

theorem Recording.Untouched.of_quiet (hh : d'.history = d.history)
    (hj : d'.audience.journal r.journal = d.audience.journal r.journal) : r.Untouched d d' [] :=
  ⟨hh.trans (List.append_nil _).symm, hj, .inl rfl, fun _ => hj⟩

end TrackedGraph
