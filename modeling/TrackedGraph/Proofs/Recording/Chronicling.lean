/-
The order in which nodes enter and are touched.

A journal lists the nodes that entered the tracked tree and the nodes with a record. That both
lists are in order of time is said against a chronicle, which is written beside the run of the
document and not by the journal: of each change that was announced and that the journal noted, the
children that enter and the node that is changed, as often as it happens. Where the journal drops
a node, because a session starts, because the journal is cleared or because a reduction leaves
nothing of the node, the node is struck off the chronicle as well, and is touched for the first
time again when it is changed the next time (`Document.Chronicled`).

What a journal lists is then what the chronicle mentions, in order of first mention
(`Document.Chronicled.lists`), and the list of all changed nodes and the tally are made up from it
(`Document.Journaled.changes_accounted`).

This is true of any schema that was built, as far as there are answers. Which nodes were deleted is
found by climbs to the roots, and where a default lists a child, an unset may close a circle of
containers that a climb does not come out of. So in the end defaults list no child.
-/
import TrackedGraph.Proofs.Document.Failing
import TrackedGraph.Proofs.Journal.Accounting
import TrackedGraph.Proofs.Recording.Expanding

set_option autoImplicit false

namespace TrackedGraph

variable {τ : Type} {d d' : Document τ} {f : Forest} {j j' : Journal} {i : Nat}
  {l told : List Announcement} {schema : Schema}

/-! ## Changes that a journal notes -/

/-- **While changes are announced** a journal may note some of them: each of the list `l` when it is
announced or not at all, or more than once if there are several recorders. What it notes, in order
of time, is `told`. -/
inductive Journal.Listens (j : Journal) : (l told : List Announcement) → Journal → Prop
  | silence : Listens j [] [] j
  | miss {l told : List Announcement} {j' : Journal} (a : Announcement)
      (h : Listens j l told j') : Listens j (l ++ [a]) told j'
  | note {l told : List Announcement} {j' : Journal} {a : Announcement} {strict : Bool}
      {q : Tracking.Plan} (hq : Tracking.plan strict a.forest a.notice = .ok q)
      (hs : j'.suspended = false) (h : Listens j (l ++ [a]) told j') :
      Listens j (l ++ [a]) (told ++ [a]) (Tracking.record a.notice q j')

namespace Journal

theorem touched_record {N : Notice} {q : Tracking.Plan} (h : j.suspended = false) :
    (Tracking.record N q j).touched = FirstSeen.add j.touched N.node := by
  unfold touched
  rw [(record_plan h).2, map_fst_appendRecord]

/-- **What a journal lists after changes** is what it listed before, and after it what it noted that
is new, in order of time. -/
theorem Listens.lists (h : j.Listens l told j') :
    j'.entered = FirstSeen.addAll j.entered (told.flatMap (·.entering)) ∧
      j'.touched = FirstSeen.addAll j.touched (told.map (·.notice.node)) := by
  induction h with
  | silence => exact ⟨rfl, rfl⟩
  | miss a _ ih => exact ih
  | note hq hs _ ih =>
    obtain ⟨hentered, htouched⟩ := ih
    constructor
    · rw [entered_record hs, hentered, ← FirstSeen.addAll_append, List.flatMap_append,
        List.flatMap_singleton, Announcement.entering_eq (Tracking.plan_eq_ok hq).1]
    · rw [touched_record hs, htouched, List.map_append, List.map_singleton,
        FirstSeen.addAll_concat]

end Journal

/-! ## Edits -/

/-- Since `d₀` changes were announced, and the journal noted some of them. -/
def Document.Listened (i : Nat) (d₀ d : Document τ) : Prop :=
  ∃ l told, d.history = d₀.history ++ l ∧
    (d₀.audience.journal i).Listens l told (d.audience.journal i)

theorem Document.Listened.refl (i : Nat) (d : Document τ) : d.Listened i d :=
  ⟨[], [], (List.append_nil _).symm, .silence⟩

theorem Document.Listened.poll {d₀ : Document τ} (N : Notice) (h : d₀.Listened i d) :
    d₀.Listened i (Edit.poll N d).2 := by
  obtain ⟨l, told, hl, hj⟩ := h
  refine ⟨l, told, ?_, by rwa [journal_poll]⟩
  rw [history_poll]
  exact hl

/-- **A change that is accepted** is announced to the journal, which may note it. -/
theorem Document.Listened.announce {d₀ : Document τ} (N : Notice) (h : d₀.Listened i d) :
    d₀.Listened i (Edit.announce N d).2 := by
  obtain ⟨l, told, hl, hj⟩ := h
  cases hres : (Edit.announce N d).1 with
  | error fault =>
    refine ⟨l, told, ?_, by rwa [journal_refused hres]⟩
    rw [history_announce_error hres]
    exact hl
  | ok _ =>
    have hhistory : (Edit.announce N d).2.history = d₀.history ++ (l ++ [⟨N, d.forest⟩]) := by
      rw [history_announce_ok hres, hl, List.append_assoc]
    have hnote : ∀ strict q j, Tracking.plan strict d.forest N = .ok q →
        (∃ told, (d₀.audience.journal i).Listens (l ++ [⟨N, d.forest⟩]) told j) →
        ∃ told, (d₀.audience.journal i).Listens (l ++ [⟨N, d.forest⟩]) told
          (Tracking.record N q j) := by
      rintro strict q j hq ⟨told, hj⟩
      cases hs : j.suspended with
      | false => exact ⟨_, hj.note hq hs⟩
      | true =>
        -- A suspended journal notes nothing.
        have hsame : Tracking.record N q j = j := if_pos hs
        exact ⟨told, by rwa [hsame]⟩
    obtain ⟨told', hj'⟩ := journal_announced hnote ⟨told, hj.miss ⟨N, d.forest⟩⟩
    exact ⟨_, told', hhistory, hj'⟩

/-- That a journal listens goes along with every edit. -/
def Document.listening (d₀ : Document τ) (i : Nat) : Edit.Cargo τ where
  Holds := d₀.Listened i
  poll := fun _ N _ h => h.poll N
  announce := fun _ N _ h => h.announce N
  grow := fun _ _ _ h => h
  advance := fun _ h => h
  repair := fun _ _ h => h

/-! ## Chronicles -/

/-- What a journal noted, in order of time and as often as it happened. -/
structure Chronicle where
  /-- The nodes that entered the tracked tree. -/
  entries : List NodeId := []
  /-- The nodes that were changed. -/
  touches : List NodeId := []

namespace Chronicle

/-- Goes on with changes that were noted. -/
def after (c : Chronicle) (told : List Announcement) : Chronicle where
  entries := c.entries ++ told.flatMap (·.entering)
  touches := c.touches ++ told.map (·.notice.node)

/-- Strikes off what the journal does not list any more. -/
def within (c : Chronicle) (j : Journal) : Chronicle where
  entries := c.entries.filter (· ∈ j.entered)
  touches := c.touches.filter (· ∈ j.touched)

end Chronicle

/-- What is done without an edit: a journal is written, reduced or asked, or forest and journals
stay as they are. -/
inductive Document.Quiet (d : Document τ) : Document τ → Prop
  | write (k : Nat) {g : Journal → Journal} (hg : Recording.Writes g) :
      Quiet d (Edit.modifyJournal k g d).2
  | reduce (k : Nat) (prune : Bool) : Quiet d (Edit.reduceJournal k prune d).2
  | ask (a : Recording) (question : Journal.Question) : Quiet d (a.ask question d).2
  | other (d' : Document τ) (hf : d'.forest = d.forest) (hr : d'.root = d.root)
      (hj : ∀ k, d'.audience.journal k = d.audience.journal k) : Quiet d d'

/-- **The chronicle of a journal**, written along with the run of the document: what the journal
notes of an edit is added, and what the journal drops in between is struck off. -/
inductive Document.Chronicled (schema : Schema) (i : Nat) : Chronicle → Document τ → Prop
  | new (rootType : String) (memory : τ) (d : Document τ)
      (h : Document.new schema rootType memory = .ok d) : Chronicled schema i {} d
  | edit (c : Chronicle) (d : Document τ) (m : Mutation) (l told : List Announcement)
      (h : Chronicled schema i c d) (hl : (m.run d).2.history = d.history ++ l)
      (hj : (d.audience.journal i).Listens l told ((m.run d).2.audience.journal i)) :
      Chronicled schema i (c.after told) (m.run d).2
  | quiet (c : Chronicle) (d d' : Document τ) (h : Chronicled schema i c d) (hq : d.Quiet d') :
      Chronicled schema i (c.within (d'.audience.journal i)) d'

variable {c : Chronicle}

theorem Document.Journaled.quiet (h : d.Journaled schema) (hq : d.Quiet d') :
    d'.Journaled schema := by
  cases hq with
  | write k hg => exact .write d k hg h
  | reduce k prune => exact .reduce d k prune h
  | ask a question => exact .ask d a question h
  | other _ hf hr hj => exact .other d d' h hf hr hj

theorem Document.Chronicled.journaled (h : d.Chronicled schema i c) : d.Journaled schema := by
  induction h with
  | new rootType memory d h => exact .new rootType memory d h
  | edit c d m l told _ _ _ ih => exact .edit d m ih
  | quiet c d d' _ hq ih => exact ih.quiet hq

/-! ### What journals drop -/

/-- The journal lists nothing new, and what it lists is in the same order. -/
structure Journal.Shrinks (j j' : Journal) : Prop where
  entered : j'.entered.Sublist j.entered
  touched : j'.touched.Sublist j.touched

namespace Journal.Shrinks

theorem refl (j : Journal) : j.Shrinks j := ⟨.refl _, .refl _⟩

theorem written {g : Journal → Journal} (hg : Recording.Writes g) (j : Journal) :
    j.Shrinks (g j) := by
  cases hg with
  | start session initial => exact ⟨List.nil_sublist _, List.nil_sublist _⟩
  | forget => exact ⟨List.nil_sublist _, List.nil_sublist _⟩
  | extendInitial nodes => exact ⟨.refl _, .refl _⟩
  | mark seat recording suspended => exact ⟨.refl _, .refl _⟩

theorem reduced {prune : Bool} (hr : ∀ r ∈ j.allEarliest, ∃ s, f.slot r.node r.property = .ok s) :
    j.Shrinks (j.reduce f prune).2 := by
  rw [Journal.reduce_apply f prune hr]
  refine ⟨.refl _, ?_⟩
  have hnodes : (j.records.map fun x =>
      (x.1, (Journal.earliest x.2).filter (!Journal.superfluous f prune ·))).map Prod.fst =
        j.touched := by
    rw [List.map_map]
    rfl
  rw [← hnodes]
  exact List.filter_sublist.map _

theorem asked {generation : Nat} (question : Journal.Question) (j : Journal) :
    j.Shrinks (question.answered f generation j) := by
  obtain ⟨_, _, _, _, hj, -, -⟩ := question.answered_frame f generation j
  rw [hj]
  exact ⟨.refl _, .refl _⟩

end Journal.Shrinks

theorem Document.shrinks_setJournal {k : Nat} (h : (d.audience.journal k).Shrinks j) (i : Nat) :
    (d.audience.journal i).Shrinks ((d.audience.setJournal k j).journal i) := by
  rw [Audience.journal_setJournal]
  split
  · next hik =>
    obtain ⟨rfl, -⟩ := hik
    exact h
  · exact .refl _

section built

variable {declarations : List TypeDeclaration} (hb : Schema.build declarations = .ok schema)

include hb

theorem Document.Quiet.shrinks (hq : d.Quiet d') (h : d.Journaled schema) (i : Nat) :
    (d.audience.journal i).Shrinks (d'.audience.journal i) := by
  have hshaped := h.reachable.shaped (Schema.coherent_of_build hb)
  cases hq with
  | write k hg => exact shrinks_setJournal (.written hg _) i
  | reduce k prune =>
    apply shrinks_setJournal
    exact .reduced ((h.legible hb k).exists_slot hshaped)
  | ask a question => exact shrinks_setJournal (.asked question _) i
  | other _ hf hr hj =>
    rw [hj]
    exact .refl _

/-! ### What journals list -/

/-- **What a journal lists** is what its chronicle mentions, in order of first mention. -/
theorem Document.Chronicled.lists (h : d.Chronicled schema i c) :
    (d.audience.journal i).entered = FirstSeen.ofList c.entries ∧
      (d.audience.journal i).touched = FirstSeen.ofList c.touches := by
  induction h with
  | new rootType memory d h =>
    rw [journal_new h]
    exact ⟨rfl, rfl⟩
  | edit c d m l told _ _ hj ih =>
    obtain ⟨hentered, htouched⟩ := hj.lists
    unfold Chronicle.after
    rw [FirstSeen.ofList_append, FirstSeen.ofList_append, ← ih.1, ← ih.2]
    exact ⟨hentered, htouched⟩
  | quiet c d d' h hq ih =>
    -- What is struck off is what the journal has dropped, and the rest stays in order.
    obtain ⟨hentered, htouched⟩ := hq.shrinks hb h.journaled i
    rw [ih.1] at hentered
    rw [ih.2] at htouched
    unfold Chronicle.within
    rw [← FirstSeen.filter_ofList, ← FirstSeen.filter_ofList]
    exact ⟨(FirstSeen.filter_mem_of_sublist hentered (FirstSeen.nodup_ofList _)).symm,
      (FirstSeen.filter_mem_of_sublist htouched (FirstSeen.nodup_ofList _)).symm⟩

/-- **Every journal has a chronicle.** -/
theorem Document.Journaled.exists_chronicled (h : d.Journaled schema) (i : Nat) :
    ∃ c, d.Chronicled schema i c := by
  have hc := Schema.coherent_of_build hb
  induction h with
  | new rootType memory d h => exact ⟨_, .new rootType memory d h⟩
  | edit d m h ih =>
    obtain ⟨c, hchronicled⟩ := ih
    -- What the journal notes of the edit is what listening to it carries along.
    obtain ⟨l, told, hl, hj⟩ := (Edit.Carries.mutation (P := Document.listening d i) m d
      ⟨.refl i d, h.reachable.shaped hc, .refl _⟩).1
    exact ⟨_, .edit c d m l told hchronicled hl hj⟩
  | write d k hg _ ih =>
    obtain ⟨c, hchronicled⟩ := ih
    exact ⟨_, .quiet c d _ hchronicled (.write k hg)⟩
  | reduce d k prune _ ih =>
    obtain ⟨c, hchronicled⟩ := ih
    exact ⟨_, .quiet c d _ hchronicled (.reduce k prune)⟩
  | ask d a question _ ih =>
    obtain ⟨c, hchronicled⟩ := ih
    exact ⟨_, .quiet c d _ hchronicled (.ask a question)⟩
  | other d d' _ hf hr hj ih =>
    obtain ⟨c, hchronicled⟩ := ih
    exact ⟨_, .quiet c d d' hchronicled (.other d' hf hr hj)⟩

/-- **Changes are accounted for**, whatever was edited, recorded, reduced and asked before. What a
journal says of single nodes, the list of all that were changed and the tally agree. The nodes that
entered and the nodes with a record, out of which the list is made up behind the deleted ones,
are in the order in which the chronicle of the journal mentions them first. A node is touched as
long as it has a record, and for the first time by the first change that was noted since it had
none. The climbs that tell which nodes were deleted come to an end. -/
theorem Document.Journaled.changes_accounted (hn : schema.NullContainment)
    (hp : schema.PlainDefaults) (h : d.Journaled schema) (i : Nat) :
    (∀ n, ∃ k, d.forest.ancestor k n = none) ∧
    (d.audience.journal i).Accounts d.forest d.generation ∧
    (∃ c, d.Chronicled schema i c) ∧
    ∀ c, d.Chronicled schema i c →
      FirstSeen.Lists c.entries (d.audience.journal i).entered ∧
      FirstSeen.Lists c.touches (d.audience.journal i).touched := by
  have hf : d.forest.Sound False :=
    h.reachable.sound ⟨Schema.coherent_of_build hb, hn, hp⟩ fun hs => absurd hs id
  refine ⟨Forest.acyclic_iff_climbs_end.mp hf.acyclic, (h.legible hb i).beside.tidy.accounts,
    h.exists_chronicled hb i, ?_⟩
  intro c hc
  obtain ⟨hentered, htouched⟩ := hc.lists hb
  rw [hentered, htouched]
  exact ⟨FirstSeen.lists_ofList _, FirstSeen.lists_ofList _⟩

end built

/-! ## An example -/

/-- An outline with one entry is tracked. A second entry is added, the root and the first entry are
given titles, and the first entry is taken out again. -/
def Outline.reworked : Document Unit :=
  Outline.recording.acted Outline.blank [.edit (.create "Entry"),
    .edit (.add ⟨0⟩ Outline.entries (.node ⟨1⟩)), .call .start, .edit (.create "Entry"),
    .edit (.add ⟨0⟩ Outline.entries (.node ⟨2⟩)), .edit (.set ⟨2⟩ Outline.title (.str "Second")),
    .edit (.set ⟨1⟩ Outline.title (.str "First")), .edit (.set ⟨0⟩ Outline.title (.str "All")),
    .edit (.remove ⟨0⟩ Outline.entries 0), .ask .deleted]

/-- The deleted entry comes first, the created one second, and the root last. -/
theorem Document.Journaled.changes_accounted_reworked :
    let j := Outline.reworked.audience.journal 0
    let f := Outline.reworked.forest
    Outline.reworked.Journaled Outline.schema ∧
    (j.changed f Outline.reworked.generation).1 = [⟨1⟩, ⟨2⟩, ⟨0⟩] ∧
    (j.tally f Outline.reworked.generation).1 = ⟨1, 1, 1, 4⟩ ∧
    (j.changed f Outline.reworked.generation).1.countP (fun n =>
      (j.isModified f Outline.reworked.generation n).1) = 1 ∧
    ∃ c, Outline.reworked.Chronicled Outline.schema 0 c ∧ FirstSeen.Lists c.entries [⟨2⟩] ∧
      FirstSeen.Lists c.touches [⟨0⟩, ⟨2⟩, ⟨1⟩] := by
  intro j f
  have hjournaled : Outline.reworked.Journaled Outline.schema :=
    (Outline.blank_used.acted _).journaled
  have htally : (j.tally f Outline.reworked.generation).1 = ⟨1, 1, 1, 4⟩ := by decide +kernel
  have hentered : j.entered = [⟨2⟩] := by decide +kernel
  have htouched : j.touched = [⟨0⟩, ⟨2⟩, ⟨1⟩] := by decide +kernel
  obtain ⟨-, haccounts, ⟨c, hc⟩, hlists⟩ :=
    Document.Journaled.changes_accounted Outline.build_types (by decide) (by decide) hjournaled 0
  obtain ⟨hentries, htouches⟩ := hlists c hc
  refine ⟨hjournaled, by decide +kernel, htally, ?_, c, hc, ?_, ?_⟩
  · exact haccounts.modified.symm.trans (congrArg Tally.modified htally)
  · rwa [← hentered]
  · rwa [← htouched]

end TrackedGraph
