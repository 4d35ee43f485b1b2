/-
A session watches its tree.

While a session over one root runs, its journal does not only cover the tree as it was at the
start. It has noted every child that left a node of that tree and every child that came into
one (`Journal.Notes`), since a node of the tree is changed only while the recorder hears it.
So along the path that a node had to the root, the first child that no longer sits where it
sat is noted to have left; and along the path that a node has now, the last one that was not
in the tree is noted to have come. Memos stay true with that, because whatever is noted raises
the revision (`Step.current`).
-/
import TrackedGraph.Proofs.Journal.Views
import TrackedGraph.Proofs.Recording.Undoing

set_option autoImplicit false

namespace TrackedGraph

open Relation

variable {τ : Type} {d d' d₀ d₁ : Document τ} {o : ObserverId} {n c root : NodeId} {N : Notice}
  {r : Recording} {j j' : Journal} {f f' f₀ : Forest} {l : List Announcement}

/-! ## Children that left and children that came -/

/-- What a journal has noted of the children of a tree. -/
structure Journal.Notes (j : Journal) (f₀ f : Forest) (root : NodeId) : Prop where
  /-- A child that has not left sits where it sat. -/
  stays : ∀ n a, a ∈ f₀.contents root → f₀.Under n a → n ∉ j.left → f.Under n a
  /-- A child that was not in the tree has come. -/
  came : ∀ n a, a ∈ f₀.contents root → f.Under n a → n ∈ f₀.contents root ∨ n ∈ j.entered
  exist : ∀ c, c ∈ j.left ∨ c ∈ j.entered → f.contains c = true

namespace Journal

theorem Notes.congr (h : j.Notes f₀ f root) (hl : ∀ c, c ∈ j'.left ↔ c ∈ j.left)
    (he : ∀ c, c ∈ j'.entered ↔ c ∈ j.entered) : j'.Notes f₀ f root := by
  refine ⟨fun n a ha hu hnot => ?_, fun n a ha hu => ?_, fun c hc => ?_⟩
  · rw [hl] at hnot
    exact h.stays n a ha hu hnot
  · rw [he]
    exact h.came n a ha hu
  · rw [hl, he] at hc
    exact h.exist c hc

/-- A forest in which the same sits in the same nodes has the same noted. -/
theorem Notes.of_under (h : j.Notes f₀ f root) (hu : ∀ a b, f'.Under a b ↔ f.Under a b)
    (hc : ∀ c, f.contains c = true → f'.contains c = true) : j.Notes f₀ f' root := by
  refine ⟨fun n a ha hn hleft => ?_, fun n a ha hn => ?_, fun c hcn => hc c (h.exist c hcn)⟩
  · rw [hu]
    exact h.stays n a ha hn hleft
  · rw [hu] at hn
    exact h.came n a ha hn

section write

variable {p : PropertyId} {g : Feature} {old new : Slot} {freed : List NodeId}
  {taken : List (NodeId × PropertyId)}

/-- **A change that is recorded** is noted with the children that it frees and those that enter. -/
theorem Notes.took_write {q : Tracking.Plan} (h : j.Notes f₀ f root) (hf : f.Sound True)
    (hw : f.Rewrite True n p g old new freed taken) (htook : j.Took q j')
    (hleaving : ∀ c, c ∈ q.leaving ↔ c ∈ freed)
    (hentering : ∀ c, c ∈ q.entering ↔ f.Enters n p old taken c) :
    j'.Notes f₀ (f.write n p new freed taken) root := by
  refine ⟨fun c a ha hu hnot => ?_, fun c a ha hu => ?_, fun c hc => ?_⟩
  · rw [htook.left, not_or, hleaving] at hnot
    exact (hw.under_write hf).mpr (.inl ⟨h.stays c a ha hu hnot.1, hnot.2⟩)
  · rw [htook.entered, hentering]
    rcases (hw.under_write hf).mp hu with ⟨hu, -⟩ | ⟨henters, -⟩
    · exact (h.came c a ha hu).imp_right .inl
    · exact .inr (.inr henters)
  · rw [htook.left, htook.entered, hleaving, hentering] at hc
    rw [Forest.contains_write]
    rcases hc with (hc | hc) | (hc | hc)
    · exact h.exist c (.inl hc)
    · exact (hw.under_of_freed hf hc).contains
    · exact h.exist c (.inr hc)
    · obtain ⟨x, hx, rfl⟩ := List.mem_map.mp hc.1
      exact hw.fits.contains_of_claims hf.regular hw.feature (hw.claimed x hx)

/-- **A change of a node that was not in the tree** need not be noted. -/
theorem Notes.write_outside (h : j.Notes f₀ f root) (hf : f.Sound True)
    (hw : f.Rewrite True n p g old new freed taken) (hn : n ∉ f₀.contents root) :
    j.Notes f₀ (f.write n p new freed taken) root := by
  refine ⟨fun c a ha hu hleft => ?_, fun c a ha hu => ?_, fun c hc => ?_⟩
  · have hstays := h.stays c a ha hu hleft
    refine (hw.under_write hf).mpr (.inl ⟨hstays, fun hfreed => hn ?_⟩)
    rw [(hw.under_of_freed hf hfreed).unique hstays]
    exact ha
  · rcases (hw.under_write hf).mp hu with ⟨hu, -⟩ | ⟨-, rfl⟩
    · exact h.came c a ha hu
    · exact absurd ha hn
  · rw [Forest.contains_write]
    exact h.exist c hc

end write

section paths

variable (h : j.Notes f₀ f root) (hf₀ : f₀.Sound True)

include h hf₀

/-- **What was in the tree is in it still**, or it is below a child that left. -/
theorem Notes.within_or_left (hn : n ∈ f₀.contents root) :
    f.Within n root ∨ ∃ c ∈ j.left, f.Within n c := by
  obtain ⟨hroot, hwithin⟩ := (Forest.mem_contents hf₀).mp hn
  clear hn
  induction hwithin using ReflTransGen.head_induction_on with
  | refl => exact .inl .refl
  | @head n b hu hb ih =>
    -- A child that has not left follows its container, wherever that is now.
    by_cases hleft : n ∈ j.left
    · exact .inr ⟨n, hleft, .refl⟩
    · have hstays := h.stays n b ((Forest.mem_contents hf₀).mpr ⟨hroot, hb⟩) hu hleft
      rcases ih with hin | ⟨c, hc, hin⟩
      · exact .inl (.head hstays hin)
      · exact .inr ⟨c, hc, .head hstays hin⟩

/-- **What is in the tree and was not** is below a child that came. -/
theorem Notes.below_entered (hroot : f₀.contains root = true) (hn : f.Within n root)
    (hnot : n ∉ f₀.contents root) :
    ∃ c ∈ j.entered, c ∉ f₀.contents root ∧ f.Within n c := by
  induction hn using ReflTransGen.head_induction_on with
  | refl => exact absurd ((Forest.mem_contents hf₀).mpr ⟨hroot, .refl⟩) hnot
  | @head n b hu hb ih =>
    -- The node came itself if its container was in the tree, else a container further up did.
    by_cases hmem : b ∈ f₀.contents root
    · have hcame := (h.came n b hmem hu).resolve_left hnot
      exact ⟨n, hcame, hnot, .refl⟩
    · obtain ⟨c, hc, hcnot, hin⟩ := ih hmem
      exact ⟨c, hc, hcnot, .head hu hin⟩

/-- **The deleted nodes** among those of the tree and those that came are those that are no
longer in the tree. -/
theorem Notes.mem_findDeleted (hf : f.Sound True) (hroots : j.roots = [root])
    (hn : n ∈ f₀.contents root ∨ n ∈ j.entered) :
    n ∈ findDeleted f j ↔ ¬ f.Within n root := by
  rw [Journal.mem_findDeleted hf, hroots, List.forall_mem_singleton]
  -- Out of the tree, a node of either kind is below one that is noted.
  refine and_iff_right_of_imp fun hout => ?_
  rcases hn with hn | hn
  · obtain ⟨c, hc, hin⟩ := (h.within_or_left hf₀ hn).resolve_left hout
    exact ⟨c, .inl hc, h.exist c (.inl hc), hin⟩
  · exact ⟨n, .inr hn, h.exist n (.inr hn), .refl⟩

end paths

end Journal

/-! ## One step -/

/-- What an accepted change does to the journal of a session: its node is in the tree and the
change is recorded, or nothing happens to the journal. -/
theorem Recording.Logs.announce_took (hd : r.Logs o f₀ root d)
    (h : (Edit.announce N d).1 = .ok ()) :
    (∃ q, d.forest.Within N.node root ∧ Tracking.plan r.policy.strict d.forest N = .ok q ∧
        (d.audience.journal r.journal).Took q
          ((Edit.announce N d).2.audience.journal r.journal)) ∨
      ¬ d.forest.Within N.node root ∧
        (Edit.announce N d).2.audience.journal r.journal = d.audience.journal r.journal := by
  have htold := (announce_apply N d).1.symm.trans h
  rw [audience_announce, ← hd.follows.hears_iff_within hd.hears]
  rcases Audience.journal_announce htold hd.follows.seated hd.alone hd.exist with
    ⟨q, i, hn, hq, hj⟩ | ⟨hn, hj⟩
  · rw [hj]
    exact .inl ⟨q, hn, hq, Journal.took_iterate hd.running.suspended i⟩
  · exact .inr ⟨hn, hj⟩

/-- **A step of an edit** notes the children that leave the tree and those that come into it. -/
theorem Step.notes (h : Step True d d') (hd : r.Logs o f₀ root d)
    (hnotes : (d.audience.journal r.journal).Notes f₀ d.forest root)
    (hl : d'.history = d.history ++ l) (hin : ∀ a ∈ l, a.WritesInside f₀ root) :
    (d'.audience.journal r.journal).Notes f₀ d'.forest root := by
  have hsound := hd.follows.sound
  cases h with
  | asked N =>
    rw [journal_poll, forest_poll]
    exact hnotes
  | refused N e h =>
    rw [journal_refused h, forest_announce]
    exact hnotes
  | counted k => exact hnotes
  | created t n f h =>
    refine hnotes.of_under (fun a b => ?_) fun c hc => ?_
    · unfold Forest.Under
      rw [Forest.place?_create h]
    · obtain ⟨u, hu⟩ := Forest.contains_iff.mp hc
      exact Forest.contains_iff.mpr ⟨u, Forest.typeOf_create_of_ok h hu⟩
  | unwritten N g h hn hg ho hm =>
    rw [forest_announce]
    rcases hd.announce_took h with ⟨q, -, hq, htook⟩ | ⟨-, hj⟩
    · -- What is recorded moves no child.
      have hmove := (Tracking.plan_eq_ok hq).1
      rw [hm, Except.ok.injEq, Prod.mk.injEq] at hmove
      refine hnotes.congr (fun c => ?_) fun c => ?_
      · rw [htook.left, ← hmove.1]
        simp
      · rw [htook.entered, ← hmove.2]
        simp
    · rw [hj]
      exact hnotes
  | changed N g old new freed taken h hc hw hm =>
    rcases hd.announce_took h with ⟨q, -, hq, htook⟩ | ⟨hout, hj⟩
    · obtain ⟨leaving, entering, hmove, hleaving, hentering⟩ := hm trivial
      rw [(Tracking.plan_eq_ok hq).1, Except.ok.injEq, Prod.mk.injEq] at hmove
      obtain ⟨rfl, rfl⟩ := hmove
      exact hnotes.took_write hsound hw htook hleaving hentering
    · -- The node is not in the tree now, so it was not at the start either.
      rw [show _ = _ from hj]
      refine hnotes.write_outside hsound hw fun hmem => ?_
      have hinside := hin _ (mem_of_announced h hl) hc hmem
      exact hout ((Forest.mem_contents hsound).mp hinside).2

/-- **A step of an edit leaves the memos true.** -/
theorem Step.current (h : Step True d d') (hd : r.Logs o f₀ root d)
    (hnotes : (d.audience.journal r.journal).Notes f₀ d.forest root)
    (hcurrent : (d.audience.journal r.journal).Current d.forest d.generation) :
    (d'.audience.journal r.journal).Current d'.forest d'.generation := by
  have htypes : ∀ m u, d.forest.typeOf m = .ok u → d'.forest.typeOf m = .ok u :=
    fun m u => h.typeOf
  have hplaces := Journal.findPriorPlaces_congr (fun x => hd.covers.of_allEarliest) h.schema htypes
  cases h with
  | asked N =>
    rw [journal_poll, forest_poll, generation_poll]
    exact hcurrent
  | refused N e h =>
    rw [journal_refused h, forest_announce, generation_announce]
    exact hcurrent
  | counted k => exact hcurrent
  | created t n f h =>
    -- The one step that raises neither count.
    exact hcurrent.of_forest (Nat.le_refl _) (fun _ => Journal.findDeleted_create
      hd.follows.sound hnotes.exist h) hplaces
  | unwritten N g h hn hg ho hm =>
    rw [forest_announce, generation_announce]
    rcases hd.announce_took h with ⟨q, -, -, htook⟩ | ⟨-, hj⟩
    · exact hcurrent.toDated.current htook.later htook.deletedMemo htook.priorPlacesMemo
    · rw [hj]
      exact hcurrent
  | changed N g old new freed taken h hc hw hm =>
    rcases hd.announce_took h with ⟨q, -, -, htook⟩ | ⟨-, hj⟩
    · exact hcurrent.toDated.current htook.later htook.deletedMemo htook.priorPlacesMemo
    · rw [show _ = _ from hj]
      refine hcurrent.of_forest (Nat.le_succ _) (fun heq => ?_) hplaces
      exact absurd heq (Nat.ne_of_lt (Nat.lt_succ_self _))

/-! ## A run of the session -/

/-- A session over one root logs and has noted the children of its tree. -/
structure Recording.Watches (r : Recording) (o : ObserverId) (f₀ : Forest) (root : NodeId)
    (d : Document τ) : Prop extends r.Logs o f₀ root d where
  rooted : d.root = root
  schema : d.forest.schema = f₀.schema
  types : ∀ n t, f₀.typeOf n = .ok t → d.forest.typeOf n = .ok t
  notes : (d.audience.journal r.journal).Notes f₀ d.forest root

/-- From the start there was what was in the tree. -/
theorem Recording.Watches.wasInitial_iff (hd : r.Watches o f₀ root d) (hf₀ : f₀.Sound True)
    (hroot : f₀.contains root = true) :
    (d.audience.journal r.journal).wasInitial n = true ↔ n ∈ f₀.contents root := by
  rw [Journal.wasInitial, List.contains_iff_mem, hd.running.initial, Forest.mem_closure hf₀,
    Forest.mem_contents hf₀]
  simp [hroot]

/-- The memos of a recording are true at this moment. -/
def Recording.Current (r : Recording) (d : Document τ) : Prop :=
  (d.audience.journal r.journal).Current d.forest d.generation

theorem Step.watches (h : Step True d d') (hd : r.Watches o f₀ root d)
    (hl : d'.history = d.history ++ l) (hin : ∀ a ∈ l, a.WritesInside f₀ root) :
    r.Watches o f₀ root d' :=
  ⟨h.logs hd.toLogs hl hin, h.root.trans hd.rooted, h.schema.trans hd.schema,
    fun n t hn => h.typeOf (hd.types n t hn), h.notes hd.toLogs hd.notes hl hin⟩

theorem Chain.watches (h : Chain True d d') (hd : r.Watches o f₀ root d)
    (hl : d'.history = d.history ++ l) (hin : ∀ a ∈ l, a.WritesInside f₀ root) :
    r.Watches o f₀ root d' ∧ (r.Current d → r.Current d') := by
  refine Chain.history_induction (P := fun l d' => (∀ a ∈ l, a.WritesInside f₀ root) →
    r.Watches o f₀ root d' ∧ (r.Current d → r.Current d')) h hl (fun _ => ⟨hd, id⟩) ?_ hin
  intro l₁ d₁ l₂ d₂ _ hs hl₂ ih hin
  rw [List.forall_mem_append] at hin
  obtain ⟨hd₁, hcurrent⟩ := ih hin.1
  exact ⟨hs.watches hd₁ hl₂ hin.2, fun h => hs.current hd₁.toLogs hd₁.notes (hcurrent h)⟩

theorem Recording.Logs.journal_set (hd : r.Logs o f₀ root d) :
    (d.audience.setJournal r.journal j).journal r.journal = j :=
  Audience.journal_setJournal_self hd.exist

/-- The journal may be written if what it notes of the children stays. -/
theorem Recording.Watches.set_journal (hd : r.Watches o f₀ root d)
    (hlogs : r.Logs o f₀ root { d with audience := d.audience.setJournal r.journal j })
    (hl : j.left = (d.audience.journal r.journal).left)
    (he : j.entered = (d.audience.journal r.journal).entered) :
    r.Watches o f₀ root { d with audience := d.audience.setJournal r.journal j } := by
  refine ⟨hlogs, hd.rooted, hd.schema, hd.types, ?_⟩
  show ((d.audience.setJournal r.journal j).journal r.journal).Notes _ _ _
  rw [hd.journal_set]
  exact hd.notes.congr (fun c => by rw [hl]) fun c => by rw [he]

/-- The document after a call that reduces the journal. -/
theorem Recording.Logs.perform_eq {c : Recording.Call} (hd : r.Logs o f₀ root d) (hc : c.Reduces) :
    (r.perform c d).2 = { d with
      audience := d.audience.setJournal r.journal
        ((d.audience.journal r.journal).reduce d.forest r.policy.prune).2 } := by
  cases c with
  | reduce =>
    simp only [Recording.perform, Edit.snd_bind_pure]
    rw [hd.reduce_apply]
  | reduceRunning =>
    simp only [Recording.perform, Edit.snd_bind_pure]
    rw [Recording.reduceRunning_apply hd.running.recording, hd.reduce_apply]
  | _ => exact hc.elim

/-- **Reducing the journal** leaves the memos true, since it raises the revision. -/
theorem Recording.Watches.perform {c : Recording.Call} (hd : r.Watches o f₀ root d)
    (hc : c.Reduces) :
    r.Watches o f₀ root (r.perform c d).2 ∧ (r.Current d → r.Current (r.perform c d).2) := by
  obtain ⟨-, -, hreduced⟩ := Journal.reduce_eq_ok d.forest r.policy.prune
    (hd.covers.exists_slot hd.follows.sound.toTyped)
  rw [hd.toLogs.perform_eq hc]
  refine ⟨hd.set_journal hd.reduced (by rw [hreduced]) (by rw [hreduced]), fun h => ?_⟩
  unfold Recording.Current
  rw [hd.journal_set, hreduced]
  exact Journal.Dated.current h.toDated (Nat.lt_succ_self _) rfl rfl

/-- **Asking the journal** leaves the memos true. -/
theorem Recording.Watches.ask (hd : r.Watches o f₀ root d) (question : Journal.Question) :
    r.Watches o f₀ root (r.ask question d).2 ∧ (r.Current d → r.Current (r.ask question d).2) := by
  obtain ⟨_, _, _, _, hanswered, -⟩ := question.answered_frame d.forest d.generation
    (d.audience.journal r.journal)
  refine ⟨hd.set_journal ?_ (by rw [hanswered]) (by rw [hanswered]), fun h => ?_⟩
  · refine ⟨⟨hd.follows.sound, hd.follows.seated, hd.follows.tracks⟩, hd.hears, hd.alone, ?_, ?_, ?_⟩
    · rw [Audience.length_setJournal]
      exact hd.exist
    · rw [hd.journal_set, hanswered]
      exact hd.running.congr (.refl _)
    · rw [hd.journal_set]
      exact hd.covers.of_records (by rw [hanswered])
  · unfold Recording.Current
    show ((d.audience.setJournal r.journal _).journal r.journal).Current _ _
    rw [hd.journal_set]
    exact Journal.Current.answered h question

/-- Calls that reduce the journal write nothing but the audience. -/
theorem Recording.perform_frame {c : Recording.Call} (hc : c.Reduces) :
    ∃ a, (r.perform c d).2 = { d with audience := a } := by
  cases c with
  | reduce =>
    simp only [Recording.perform, Edit.snd_bind_pure]
    exact Recording.reduce_frame
  | reduceRunning =>
    simp only [Recording.perform, Edit.snd_bind_pure]
    exact Recording.reduceRunning_frame
  | _ => exact hc.elim

/-- **The session watches its tree for as long as it runs**, and its memos stay true. -/
theorem Recording.Runs.watches (h : r.Runs Recording.Call.Reduces d₁ d)
    (h₁ : r.Watches o f₀ root d₁) (ho : f₀.schema.OwningMembers) :
    d.forest.Sound True ∧ d.forest.schema = f₀.schema ∧ ∃ l, d.history = d₁.history ++ l ∧
      ((∀ a ∈ l, a.WritesInside f₀ root) →
        r.Watches o f₀ root d ∧ (r.Current d₁ → r.Current d)) := by
  induction h with
  | start =>
    exact ⟨h₁.follows.sound, h₁.schema, [], (List.append_nil _).symm, fun _ => ⟨h₁, id⟩⟩
  | edit d m _ ih =>
    obtain ⟨hsound, hschema, l, hl, hwatches⟩ := ih
    have hchain := m.chain hsound fun _ _ =>
      m.not_overlooks hsound.toTyped (by rw [hschema]; exact ho)
    obtain ⟨l', hl'⟩ := hchain.history_le
    refine ⟨hchain.sound hsound, hchain.schema.trans hschema, l ++ l', ?_, fun hin => ?_⟩
    · rw [hl', hl, List.append_assoc]
    · -- What the edit tells comes after what was told before.
      rw [List.forall_mem_append] at hin
      obtain ⟨hd, hcurrent⟩ := hwatches hin.1
      obtain ⟨hd', hcurrent'⟩ := hchain.watches hd hl' hin.2
      exact ⟨hd', fun h => hcurrent' (hcurrent h)⟩
  | call d c hc _ ih =>
    obtain ⟨hsound, hschema, l, hl, hwatches⟩ := ih
    obtain ⟨a, ha⟩ := Recording.perform_frame (r := r) (d := d) hc
    refine ⟨ha ▸ hsound, ha ▸ hschema, l, ha ▸ hl, fun hin => ?_⟩
    obtain ⟨hd, hcurrent⟩ := hwatches hin
    obtain ⟨hd', hcurrent'⟩ := hd.perform hc
    exact ⟨hd', fun h => hcurrent' (hcurrent h)⟩
  | ask d question _ ih =>
    obtain ⟨hsound, hschema, l, hl, hwatches⟩ := ih
    refine ⟨hsound, hschema, l, hl, fun hin => ?_⟩
    obtain ⟨hd, hcurrent⟩ := hwatches hin
    obtain ⟨hd', hcurrent'⟩ := hd.ask question
    exact ⟨hd', fun h => hcurrent' (hcurrent h)⟩

/-- **A session that is started watches its tree**, and its memos are true. -/
theorem Recording.startFrom_watches (h : r.startFrom [root] d = (.ok (), d'))
    (hrooted : d.root = root) (hf : d.forest.Sound True)
    (hseat : (d'.audience.journal r.journal).seat = some o) (hclean : ∀ n, ¬ d.Hears o n)
    (halone : ∀ o' s, d.audience.member? o' ≠ some (.recorder r.journal s)) :
    d'.history = d.history ∧ r.Watches o d.forest root d' ∧
      ((d.audience.journal r.journal).Dated → r.Current d') := by
  obtain ⟨hforest, hhistory, hlogs⟩ := Recording.startFrom_logs h hf hseat hclean halone
  obtain ⟨hroot, seat, hj⟩ := Recording.startFrom_journal h hlogs.exist
  refine ⟨hhistory, ⟨hlogs, hroot.trans hrooted, by rw [hforest], fun n t hn => ?_, ?_⟩, fun hdated => ?_⟩
  · rw [hforest]
    exact hn
  · -- Nothing has left or entered, and the forest is the one that the session was started in.
    rw [hforest, hj]
    refine ⟨fun n a _ hu _ => hu, fun n a ha hu => ?_, fun c hc => ?_⟩
    · exact .inl (Forest.mem_contents_of_under hf ha hu).1
    · exact absurd hc (by simp [Journal.startSession, Journal.bump])
  · unfold Recording.Current
    rw [hj]
    exact hdated.current (Nat.lt_succ_self _) rfl rfl

/-- A recording starts on the tree of a document. Its recorder takes a seat that hears nothing
yet, and nobody else writes the journal. -/
structure Recording.Begins (r : Recording) (o : ObserverId) (d₀ d₁ : Document τ) : Prop where
  start : r.start d₀ = (.ok (), d₁)
  seat : (d₁.audience.journal r.journal).seat = some o
  clean : ∀ n, ¬ d₀.Hears o n
  alone : ∀ o' s, d₀.audience.member? o' ≠ some (.recorder r.journal s)

/-- **A session of the whole tree**, as long as no node of the tree at the start is written
while it is outside of the tree. -/
theorem Recording.Begins.watches (hbegins : r.Begins o d₀ d₁) (hf : d₀.forest.Sound True)
    (ho : d₀.forest.schema.OwningMembers) (h : r.Runs Recording.Call.Reduces d₁ d)
    (hin : ∀ a ∈ d.history.drop d₁.history.length, a.WritesInside d₀.forest d₀.root) :
    r.Watches o d₀.forest d₀.root d ∧
      ((d₀.audience.journal r.journal).Dated → r.Current d) := by
  have hstart := hbegins.start
  rw [Recording.start_apply] at hstart
  obtain ⟨-, hd₁, hdated⟩ := Recording.startFrom_watches hstart rfl hf hbegins.seat hbegins.clean
    hbegins.alone
  obtain ⟨-, -, l, hl, hwatches⟩ := h.watches hd₁ ho
  rw [hl, List.drop_left] at hin
  obtain ⟨hd, hcurrent⟩ := hwatches hin
  exact ⟨hd, fun h => hcurrent (hdated h)⟩

theorem Recording.Begins.contains_root (hbegins : r.Begins o d₀ d₁) :
    d₀.forest.contains d₀.root = true := by
  have hstart := hbegins.start
  rw [Recording.start_apply] at hstart
  exact (Recording.of_startFrom_ok (congrArg Prod.fst hstart)).2 _ (List.mem_singleton_self _)

/-! ## An example -/

/-- Three entries, of which the second is below the first and the third is on its own. -/
def Outline.spare : Document Unit :=
  blank.after [.create "Entry", .create "Entry", .add ⟨0⟩ entries (.node ⟨1⟩)]

theorem Outline.spare_reachable : spare.Reachable schema fun _ _ => True :=
  .edit _ _ (.edit _ _ (.edit _ _ (blank_reachable _) trivial) trivial) trivial

theorem Outline.spare_begins : recording.Begins ⟨0⟩ spare (recording.start spare).2 := by
  have hnobody : spare.audience.subscriptions = {} := by decide +kernel
  have hseats : spare.audience.seats = [] := rfl
  refine ⟨Prod.ext rfl rfl, by decide +kernel, fun n h => ?_, fun o s h => ?_⟩
  · rw [Document.Hears, hnobody] at h
    exact absurd h (by simp [Subscriptions.has])
  · rw [Audience.member?, hseats] at h
    exact absurd h (by simp)

end TrackedGraph
