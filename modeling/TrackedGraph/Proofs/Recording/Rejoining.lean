/-
Ending a session and resuming it at once: the difference it makes.

This should be as if nothing had happened, and nearly is. The recorder gets its seat back and
hears what it heard, since a session over one root hears all of its contents; and nobody reads
the journal. But the journal counts the nodes below the root that it has no notice of as there
from the start from then on, and such nodes there are while the session runs already: of a
subtree that comes in, only the top is noted (`Recording.unseen`).

So two documents, one with the two calls behind it and one without, are related by a difference
in the initial nodes of the journal (`Document.Rejoined`). No edit tells them apart, and what the
journals answer is read off the relation.
-/
import TrackedGraph.Proofs.Document.Respecting
import TrackedGraph.Proofs.Recording.Solitary

set_option autoImplicit false

namespace TrackedGraph

open Edit (Keeps Respects)

variable {τ : Type} {x y : Document τ} {o : ObserverId} {n : NodeId} {N : Notice}
  {r : Recording} {j i : Journal} {f : Forest} {a b : Audience τ} {unseen : List NodeId}
  {q : Tracking.Plan} {k : Nat}

/-! ## Journals -/

/-- The journals differ in which nodes count as there from the start: in the second one the
given nodes do as well. -/
structure Journal.Rejoined (unseen : List NodeId) (j i : Journal) : Prop where
  records : i.records = j.records
  entered : i.entered = j.entered
  left : i.left = j.left
  session : i.session = j.session
  begun : j.session.isSome = true
  recording : i.recording = j.recording
  suspended : i.suspended = j.suspended
  seat : i.seat = j.seat
  initial : ∀ n, n ∈ i.initial ↔ n ∈ j.initial ∨ n ∈ unseen

namespace Journal

theorem Rejoined.noteExit (h : Rejoined unseen j i) (n : NodeId) :
    Rejoined unseen (j.noteExit n) (i.noteExit n) :=
  ⟨h.records, h.entered, congrArg (· ++ [n]) h.left, h.session, h.begun, h.recording, h.suspended,
    h.seat, h.initial⟩

theorem Rejoined.noteEntry (h : Rejoined unseen j i) (n : NodeId) :
    Rejoined unseen (j.noteEntry n) (i.noteEntry n) :=
  ⟨h.records, congrArg (FirstSeen.add · n) h.entered, h.left, h.session, h.begun, h.recording,
    h.suspended, h.seat, h.initial⟩

theorem Rejoined.foldl {note : Journal → NodeId → Journal} (ns : List NodeId)
    (h : Rejoined unseen j i)
    (hn : ∀ j i n, Rejoined unseen j i → Rejoined unseen (note j n) (note i n)) :
    Rejoined unseen (ns.foldl note j) (ns.foldl note i) := by
  induction ns generalizing j i with
  | nil => exact h
  | cons n ns ih => exact ih (hn j i n h)

theorem Rejoined.record (h : Rejoined unseen j i) :
    Rejoined unseen (Tracking.record N q j) (Tracking.record N q i) := by
  unfold Tracking.record
  rw [h.suspended]
  split_ifs
  · exact h
  · have hexits := h.foldl q.leaving fun _ _ n h => h.noteExit n
    have hentries := hexits.foldl q.entering fun _ _ n h => h.noteEntry n
    exact ⟨congrArg (appendRecord _) hentries.records, hentries.entered, hentries.left,
      hentries.session, hentries.begun, hentries.recording, hentries.suspended, hentries.seat,
      hentries.initial⟩

theorem Rejoined.roots (h : Rejoined unseen j i) : i.roots = j.roots := by
  unfold Journal.roots
  rw [h.session]

theorem Rejoined.wasInitial_iff (h : Rejoined unseen j i) :
    i.wasInitial n = true ↔ j.wasInitial n = true ∨ n ∈ unseen := by
  simp only [wasInitial, List.contains_iff_mem, h.initial]

/-- Reducing looks at the records alone. -/
theorem Rejoined.reduce (h : Rejoined unseen j i) (prune : Bool) :
    (i.reduce f prune).1 = (j.reduce f prune).1 ∧
      Rejoined unseen (j.reduce f prune).2 (i.reduce f prune).2 := by
  have hall : i.allEarliest = j.allEarliest := by
    unfold allEarliest
    rw [h.records]
  unfold Journal.reduce
  rw [h.records, hall]
  dsimp only
  split <;> exact ⟨rfl, rfl, h.entered, h.left, h.session, h.begun, h.recording, h.suspended,
    h.seat, h.initial⟩

/-- Where both take the nodes of a tree as there from the start that they have no notice of, the
same nodes make the difference. -/
theorem Rejoined.extendInitial (h : Rejoined unseen j i) (tracked : List NodeId) :
    Rejoined unseen
      (j.extendInitial (tracked.filter fun n => !j.wasInitial n && !j.entered.contains n))
      (i.extendInitial (tracked.filter fun n => !i.wasInitial n && !i.entered.contains n)) := by
  refine ⟨h.records, h.entered, h.left, h.session, h.begun, h.recording, h.suspended, h.seat,
    fun n => ?_⟩
  simp only [Journal.extendInitial, bump, FirstSeen.mem_addAll, List.mem_filter, Bool.and_eq_true,
    Bool.not_eq_true', Bool.eq_false_iff, ne_eq, h.wasInitial_iff, h.initial, h.entered]
  simp only [wasInitial, List.contains_iff_mem]
  tauto

theorem Rejoined.suspend (h : Rejoined unseen j i) (b : Bool) :
    Rejoined unseen { j with suspended := b } { i with suspended := b } :=
  ⟨h.records, h.entered, h.left, h.session, h.begun, h.recording, rfl, h.seat, h.initial⟩

theorem Rejoined.forget (h : Rejoined unseen j i) : Rejoined unseen j.forget i.forget :=
  ⟨rfl, rfl, rfl, h.session, h.begun, h.recording, h.suspended, h.seat, h.initial⟩

theorem Rejoined.answered {generation : Nat} (h : Rejoined unseen j i) (question : Question) :
    Rejoined unseen (question.answered f generation j) (question.answered f generation i) := by
  obtain ⟨_, _, _, _, hj, -⟩ := question.answered_frame f generation j
  obtain ⟨_, _, _, _, hi, -⟩ := question.answered_frame f generation i
  rw [hj, hi]
  exact ⟨h.records, h.entered, h.left, h.session, h.begun, h.recording, h.suspended, h.seat,
    h.initial⟩

/-! ### Answers -/

theorem Rejoined.isCreated_iff (h : Rejoined unseen j i) :
    i.isCreated n = true ↔ j.isCreated n = true ∧ n ∉ unseen := by
  simp only [isCreated, wasInitial, Bool.and_eq_true, Bool.not_eq_true', Bool.eq_false_iff, ne_eq,
    List.contains_iff_mem, h.initial, h.entered]
  tauto

theorem Rejoined.created_eq (h : Rejoined unseen j i) :
    i.created = j.created.filter fun n => !unseen.contains n := by
  unfold created
  rw [h.entered, List.filter_filter]
  refine List.filter_congr fun n _ => ?_
  rw [Bool.eq_iff_iff]
  simp only [Bool.and_eq_true, Bool.not_eq_true', Bool.eq_false_iff, ne_eq, h.wasInitial_iff,
    List.contains_iff_mem]
  tauto

/-- **The answers differ** for created nodes that were unseen, and for no others. -/
theorem Rejoined.computed_iff (h : Rejoined unseen j i) :
    (i.computed f n).deleted = (j.computed f n).deleted ∧
      (i.computed f n).states = (j.computed f n).states ∧
      (i.computed f n = j.computed f n ↔ ¬ (j.isCreated n = true ∧ n ∈ unseen)) := by
  have hdeleted : findDeleted f i = findDeleted f j := by
    unfold findDeleted
    rw [h.left, h.entered, h.roots]
  have hrecollect : i.recollect f n = j.recollect f n := recollect_of_records h.records
  refine ⟨?_, hrecollect, ⟨fun heq hn => ?_, fun hn => ?_⟩⟩
  · show (findDeleted f i).contains n = (findDeleted f j).contains n
    rw [hdeleted]
  · have hcreated : i.isCreated n = j.isCreated n := congrArg Answers.created heq
    exact (h.isCreated_iff.mp (hcreated.trans hn.1)).2 hn.2
  · have hcreated : i.isCreated n = j.isCreated n := by
      rw [Bool.eq_iff_iff, h.isCreated_iff]
      exact and_iff_left_of_imp fun hc hu => hn ⟨hc, hu⟩
    have hplaces : findPriorPlaces f i = findPriorPlaces f j := by
      unfold findPriorPlaces allEarliest
      rw [h.records]
    unfold computed recordsOf
    rw [hcreated, hdeleted, h.records, hrecollect, hplaces]

end Journal

/-! ## Audiences -/

/-- The audiences differ in what the journal counts as there from the start, and in the order in
which the subscriptions were made. Nobody but the recorder of the journal is in them. -/
structure Audience.Rejoined (r : Recording) (unseen : List NodeId) (a b : Audience τ) : Prop where
  lone : a.Lone r.journal r.policy.strict ⟨0⟩
  seats : b.seats = a.seats
  memory : b.memory = a.memory
  has : ∀ o n, b.subscriptions.has o n = a.subscriptions.has o n
  once : a.subscriptions.pairs.Nodup ∧ b.subscriptions.pairs.Nodup
  stored : r.journal < a.journals.length
  length : b.journals.length = a.journals.length
  journal : Journal.Rejoined unseen (a.journal r.journal) (b.journal r.journal)

namespace Audience

theorem Rejoined.member? (h : a.Rejoined r unseen b) : b.member? o = a.member? o := by
  unfold Audience.member?
  rw [h.seats]

theorem Rejoined.isSeated (h : a.Rejoined r unseen b) : b.isSeated o = a.isSeated o := by
  unfold Audience.isSeated
  rw [h.member?]

theorem Rejoined.lone' (h : a.Rejoined r unseen b) : b.Lone r.journal r.policy.strict ⟨0⟩ :=
  fun o x hx => h.lone o x (by rw [← h.member?]; exact hx)

/-- Journals and subscriptions are written on both sides. -/
theorem Rejoined.write {s t : Subscriptions} (h : a.Rejoined r unseen b)
    (hj : Journal.Rejoined unseen j i) (hs : ∀ o n, t.has o n = s.has o n)
    (hnodup : s.pairs.Nodup ∧ t.pairs.Nodup) :
    Audience.Rejoined r unseen { a.setJournal r.journal j with subscriptions := s }
      { b.setJournal r.journal i with subscriptions := t } := by
  have hstored' : r.journal < b.journals.length := h.length.symm ▸ h.stored
  have hself : (a.setJournal r.journal j).journal r.journal = j :=
    Audience.journal_setJournal_self h.stored
  have hself' : (b.setJournal r.journal i).journal r.journal = i :=
    Audience.journal_setJournal_self hstored'
  refine ⟨h.lone, h.seats, h.memory, hs, hnodup, ?_, ?_, ?_⟩
  · exact length_setJournal.symm ▸ h.stored
  · exact length_setJournal.trans (h.length.trans length_setJournal.symm)
  · show Journal.Rejoined unseen ((a.setJournal r.journal j).journal r.journal)
      ((b.setJournal r.journal i).journal r.journal)
    rw [hself, hself']
    exact hj

theorem Rejoined.setJournal (h : a.Rejoined r unseen b) (hj : Journal.Rejoined unseen j i) :
    Audience.Rejoined r unseen (a.setJournal r.journal j) (b.setJournal r.journal i) :=
  h.write hj h.has h.once

theorem Rejoined.poll (h : a.Rejoined r unseen b) :
    (b.poll f N).1 = (a.poll f N).1 ∧ (a.poll f N).2.Rejoined r unseen (b.poll f N).2 := by
  rw [h.lone.poll, h.lone'.poll, h.has, h.isSeated]
  exact ⟨rfl, h⟩

/-- **An announcement** is accepted by both or by none, and leaves them related. -/
theorem Rejoined.announce (h : a.Rejoined r unseen b) :
    (b.announce f N).1 = (a.announce f N).1 ∧
      (a.announce f N).2.Rejoined r unseen (b.announce f N).2 := by
  rw [h.lone.announce h.once.1, h.lone'.announce h.once.2, h.has, h.isSeated]
  -- Both recorders are told or none is, and the plan depends on the forest alone.
  split_ifs
  · cases Tracking.plan r.policy.strict f N with
    | error fault => exact ⟨rfl, h⟩
    | ok q =>
      refine ⟨rfl, h.write h.journal.record (fun o n => ?_)
        ⟨Subscriptions.nodup_changeAll h.once.1 _, Subscriptions.nodup_changeAll h.once.2 _⟩⟩
      by_cases ho : o = ⟨0⟩
      · rw [ho, Bool.eq_iff_iff, Tracking.has_subscriptionChanges,
          Tracking.has_subscriptionChanges, h.has]
      · rw [Subscriptions.has_changeAll_of_ne ho, Subscriptions.has_changeAll_of_ne ho, h.has]
  · exact ⟨rfl, h⟩

end Audience

/-! ## Documents -/

/-- The second document differs from the first one in the initial nodes of the journal at
most, and in the order of subscriptions. -/
def Document.Rejoined (r : Recording) (unseen : List NodeId) (x y : Document τ) : Prop :=
  ∃ a, y = { x with audience := a } ∧ x.audience.Rejoined r unseen a

namespace Document

theorem Rejoined.journal (h : x.Rejoined r unseen y) : Journal.Rejoined unseen
    (x.audience.journal r.journal) (y.audience.journal r.journal) := by
  obtain ⟨a, rfl, ha⟩ := h
  exact ha.journal

/-- **No edit tells them apart**: nobody reads the journal. -/
theorem Rejoined.blind (r : Recording) (unseen : List NodeId) :
    Blind (Rejoined r unseen : Document τ → Document τ → Prop) :=
  .of_audience (fun _ _ h => h.memory) (fun _ _ h => h.has) (fun _ _ h _ _ => h.poll)
    fun _ _ h _ _ => h.announce

/-- The journals are changed alike on both sides. -/
theorem Rejoined.setJournal (h : x.Rejoined r unseen y) (hj : Journal.Rejoined unseen j i) :
    Document.Rejoined r unseen { x with audience := x.audience.setJournal r.journal j }
      { y with audience := y.audience.setJournal r.journal i } := by
  obtain ⟨a, rfl, ha⟩ := h
  exact ⟨_, rfl, ha.setJournal hj⟩

theorem Rejoined.modify {g : Journal → Journal}
    (hg : ∀ j i, Journal.Rejoined unseen j i → Journal.Rejoined unseen (g j) (g i)) :
    Respects (Rejoined r unseen) (Edit.modifyJournal r.journal g : Edit τ Unit) :=
  fun _ _ h => ⟨rfl, h.setJournal (hg _ _ h.journal)⟩

theorem Rejoined.reduceJournal :
    Respects (Rejoined r unseen)
      (Edit.reduceJournal r.journal r.policy.prune : Edit τ Reduction) := by
  rintro x _ ⟨a, rfl, ha⟩
  obtain ⟨hres, hj⟩ := ha.journal.reduce (f := x.forest) r.policy.prune
  rw [reduceJournal_apply, reduceJournal_apply]
  exact ⟨hres, _, rfl, ha.setJournal hj⟩

end Document

/-! ## Calls -/

namespace Audience

/-- The recorder leaves both. -/
theorem Rejoined.left {z : Member τ} (h : a.Rejoined r unseen b)
    (hseated : a.member? ⟨0⟩ = some z) :
    (a.left r.journal ⟨0⟩).Rejoined r unseen (b.left r.journal ⟨0⟩) := by
  have hseated' : b.member? ⟨0⟩ = some z := h.member?.trans hseated
  have hseats : ∀ c : Audience τ, c.member? ⟨0⟩ = some z →
      (c.left r.journal ⟨0⟩).seats = c.seats.set 0 none := by
    intro c hc
    have hlt : 0 < c.seats.length := by
      rw [List.length_pos_iff]
      intro hnil
      rw [Audience.member?, hnil] at hc
      exact absurd hc (by simp)
    show (c.remove ⟨0⟩).2.seats = _
    rw [Audience.remove, if_pos hlt]
  have hstored' : r.journal < b.journals.length := h.length.symm ▸ h.stored
  refine ⟨h.lone.left, ?_, ?_, fun o n => ?_, ⟨?_, ?_⟩, ?_, ?_, ?_⟩
  · rw [hseats a hseated, hseats b hseated', h.seats]
  · rw [memory_left, memory_left, h.memory]
  · rw [subscriptions_left hseated, subscriptions_left hseated', Bool.eq_iff_iff,
      Subscriptions.has_drop, Subscriptions.has_drop, h.has]
  · rw [subscriptions_left hseated]
    exact h.once.1.filter _
  · rw [subscriptions_left hseated']
    exact h.once.2.filter _
  · rw [length_left]
    exact h.stored
  · rw [length_left, length_left, h.length]
  · rw [journal_left h.stored, journal_left hstored']
    have hj := h.journal
    exact ⟨hj.records, hj.entered, hj.left, hj.session, hj.begun, rfl, rfl, rfl, hj.initial⟩

/-- The recorder joins both. -/
theorem Rejoined.joined {tracked : List NodeId} (h : a.Rejoined r unseen b)
    (hempty : ∀ o, a.member? o = none) :
    (a.joined r tracked).Rejoined r unseen (b.joined r tracked) := by
  have hempty' : ∀ o, b.member? o = none := fun o => h.member?.trans (hempty o)
  have hseat : (a.add (.recorder r.journal r.policy.strict)).1 = ⟨0⟩ := seat_add_of_empty hempty
  have hseat' : (b.add (.recorder r.journal r.policy.strict)).1 = ⟨0⟩ := seat_add_of_empty hempty'
  have hsubs : (a.joined r tracked).subscriptions =
      a.subscriptions.changeAll ⟨0⟩ (tracked.map .subscribe) := by
    rw [subscriptions_joined, hseat]
  have hsubs' : (b.joined r tracked).subscriptions =
      b.subscriptions.changeAll ⟨0⟩ (tracked.map .subscribe) := by
    rw [subscriptions_joined, hseat']
  have hstored' : r.journal < b.journals.length := h.length.symm ▸ h.stored
  refine ⟨lone_joined hempty, ?_, ?_, fun o n => ?_, ⟨?_, ?_⟩, ?_, ?_, ?_⟩
  · exact seats_add_congr h.seats
  · rw [memory_joined, memory_joined, h.memory]
  · rw [hsubs, hsubs']
    by_cases ho : o = ⟨0⟩
    · rw [ho, Bool.eq_iff_iff, Subscriptions.has_changeAll_subscribe,
        Subscriptions.has_changeAll_subscribe, h.has]
    · rw [Subscriptions.has_changeAll_of_ne ho, Subscriptions.has_changeAll_of_ne ho, h.has]
  · rw [hsubs]
    exact Subscriptions.nodup_changeAll h.once.1 _
  · rw [hsubs']
    exact Subscriptions.nodup_changeAll h.once.2 _
  · rw [length_joined]
    exact h.stored
  · rw [length_joined, length_joined, h.length]
  · rw [journal_joined h.stored, journal_joined hstored', hseat, hseat']
    have hj := h.journal
    exact ⟨hj.records, hj.entered, hj.left, hj.session, hj.begun, rfl, hj.suspended, rfl,
      hj.initial⟩

/-- **The recorder leaves and joins again**, and nodes are noted as there from the start in
between. -/
theorem Rejoined.rejoined {tracked nodes : List NodeId}
    (hlone : a.Lone r.journal r.policy.strict ⟨0⟩)
    (hseated : a.member? ⟨0⟩ = some (.recorder r.journal r.policy.strict))
    (hstored : r.journal < a.journals.length) (honce : a.subscriptions.pairs.Nodup)
    (hheard : ∀ n, a.subscriptions.has ⟨0⟩ n = true ↔ n ∈ tracked)
    (hbegun : (a.journal r.journal).session.isSome = true)
    (hsuspended : (a.journal r.journal).suspended = false)
    (hseat : (a.journal r.journal).seat = some ⟨0⟩)
    (hrec : (a.journal r.journal).recording = true) :
    a.Rejoined r nodes (((a.left r.journal ⟨0⟩).setJournal r.journal
      (((a.left r.journal ⟨0⟩).journal r.journal).extendInitial nodes)).joined r tracked) := by
  have hempty : ∀ o, (a.left r.journal ⟨0⟩).member? o = none := by
    intro o
    rw [member?_left]
    split_ifs with ho
    · rfl
    · cases hx : a.member? o with
      | none => rfl
      | some x => exact absurd (hlone o x hx).1 ho
  generalize hextended : (a.left r.journal ⟨0⟩).setJournal r.journal
    (((a.left r.journal ⟨0⟩).journal r.journal).extendInitial nodes) = b
  have hempty' : ∀ o, b.member? o = none := by
    rw [← hextended]
    exact hempty
  have hstored' : r.journal < (a.left r.journal ⟨0⟩).journals.length := by
    rw [length_left]
    exact hstored
  have hlength : b.journals.length = a.journals.length := by
    rw [← hextended, length_setJournal, length_left]
  have hsubs : b.subscriptions = (a.subscriptions.drop ⟨0⟩).2 := by
    rw [← subscriptions_left (k := r.journal) hseated, ← hextended]
    rfl
  have hseats : b.seats = (a.remove ⟨0⟩).2.seats := by
    rw [← hextended]
    rfl
  have hjournal : b.journal r.journal =
      ((a.left r.journal ⟨0⟩).journal r.journal).extendInitial nodes := by
    rw [← hextended, journal_setJournal_self hstored']
  refine ⟨hlone, ?_, ?_, fun o n => ?_, ⟨honce, ?_⟩, hstored, ?_, ?_⟩
  · rw [seats_joined, seats_add_congr hseats, seats_add_remove hseated]
  · rw [memory_joined, ← memory_left (a := a) (k := r.journal) (o := ⟨0⟩), ← hextended]
    rfl
  · -- What it heard was dropped when it left, and it hears the tracked nodes now: the same.
    rw [subscriptions_joined, seat_add_of_empty hempty', hsubs, Bool.eq_iff_iff]
    by_cases ho : o = ⟨0⟩
    · rw [ho, Subscriptions.has_changeAll_subscribe, Subscriptions.has_drop, hheard]
      simp
    · rw [Subscriptions.has_changeAll_of_ne ho, Subscriptions.has_drop]
      exact and_iff_right ho
  · rw [subscriptions_joined, seat_add_of_empty hempty', hsubs]
    exact Subscriptions.nodup_changeAll (honce.filter _) _
  · rw [length_joined, hlength]
  · rw [journal_joined (hlength.symm ▸ hstored), seat_add_of_empty hempty', hjournal,
      journal_left hstored]
    refine ⟨rfl, rfl, rfl, rfl, hbegun, hrec.symm, hsuspended.symm, hseat.symm, fun n => ?_⟩
    simp only [Journal.extendInitial, Journal.bump, FirstSeen.mem_addAll]

end Audience

namespace Document

theorem Rejoined.stop (h : x.Rejoined r unseen y) (hx : r.Solo x) :
    (r.stop y).1 = (r.stop x).1 ∧ Document.Rejoined r unseen (r.stop x).2 (r.stop y).2 := by
  obtain ⟨a, rfl, ha⟩ := h
  have hj := ha.journal
  cases hrec : (x.audience.journal r.journal).recording with
  | false =>
    rw [Recording.stop_of_idle hrec, Recording.stop_of_idle (hj.recording.trans hrec)]
    exact ⟨rfl, a, rfl, ha⟩
  | true =>
    obtain ⟨hseat, _, _, -, -, hfollows⟩ := hx.follows hrec
    rw [Recording.stop_apply hrec hseat,
      Recording.stop_apply (hj.recording.trans hrec) (hj.seat.trans hseat)]
    exact ⟨rfl, _, rfl, ha.left hfollows.seated⟩

theorem Rejoined.resume (h : x.Rejoined r unseen y) (hx : r.Solo x) :
    (r.resume y).1 = (r.resume x).1 ∧ Document.Rejoined r unseen (r.resume x).2 (r.resume y).2 := by
  obtain ⟨a, rfl, ha⟩ := h
  have hj := ha.journal
  cases hrec : (x.audience.journal r.journal).recording with
  | true =>
    rw [Recording.resume_of_running hrec,
      Recording.resume_of_running (hj.recording.trans hrec)]
    exact ⟨rfl, a, rfl, ha⟩
  | false =>
    obtain ⟨session, hsession⟩ := Option.isSome_iff_exists.mp hj.begun
    rw [Recording.resume_apply hrec hsession,
      Recording.resume_apply (hj.recording.trans hrec) (hj.session.trans hsession),
      Recording.join_apply, Recording.join_apply]
    refine ⟨rfl, _, rfl, (ha.setJournal ?_).joined (hx.empty hrec)⟩
    unfold Recording.unseen
    rw [hj.roots]
    exact hj.extendInitial _

theorem Rejoined.reduce :
    Respects (Rejoined r unseen) (r.reduce : Edit τ Reduction) := by
  intro x y h
  unfold Recording.reduce
  rw [Recording.read_bind, Recording.read_bind, h.journal.session]
  exact Respects.ite (.bind (.throw _) fun _ => reduceJournal) reduceJournal x y h

end Document

/-- **The two calls**, at once: both succeed, the recorder is back on its seat and hears what it
heard, and the nodes that were unseen count as there from the start. -/
theorem Recording.Solo.rejoins (hx : r.Solo x)
    (hrec : (x.audience.journal r.journal).recording = true)
    (hsuspended : (x.audience.journal r.journal).suspended = false) :
    (r.stop x).1 = .ok () ∧ (r.resume (r.stop x).2).1 = .ok () ∧
      x.Rejoined r (r.unseen x) (r.resume (r.stop x).2).2 := by
  obtain ⟨hseat, id, root, hsession, -, hfollows⟩ := hx.follows hrec
  have hroots : (x.audience.journal r.journal).roots = [root] := Journal.roots_of_session hsession
  have hj := Audience.journal_left (o := ⟨0⟩) hx.stored
  have hidle : ((x.audience.left r.journal ⟨0⟩).journal r.journal).recording = false := by rw [hj]
  have hsession' : ((x.audience.left r.journal ⟨0⟩).journal r.journal).session =
      some ⟨id, [root]⟩ := by
    rw [hj]
    exact hsession
  -- Ending the session leaves in the journal what it has noted, so the same nodes are unseen.
  have hunseen : r.unseen { x with audience := x.audience.left r.journal ⟨0⟩ } = r.unseen x := by
    unfold Recording.unseen
    dsimp only
    rw [hj]
    rfl
  have hresume := Recording.resume_apply
    (d := { x with audience := x.audience.left r.journal ⟨0⟩ }) hidle hsession'
  rw [hunseen, Recording.join_apply] at hresume
  rw [Recording.stop_apply hrec hseat, hresume]
  refine ⟨rfl, rfl, _, rfl, ?_⟩
  refine Audience.Rejoined.rejoined hx.lone hfollows.seated hx.stored hx.once ?_ ?_ hsuspended
    hseat hrec
  · intro n
    rw [← hroots]
    exact hx.hears_closure hrec
  · rw [hsession]
    rfl

end TrackedGraph
