/-
What the check after reverting vouches for.

Reverting ends with a check of the tree: no created node may be in it, and every node that
was there from the start and has left it has to be back. The check reads what the journal has
noted, so it says nothing of a node that was taken out of its container unseen. A node that no
change took out of its container since the start is put back with its container
(`Recording.Attested.resettled`), so along the path from a node up to the root of the session,
the only place where the way back can be lost is one that the journal has not noted
(`Recording.Runs.verified`).
-/
import TrackedGraph.Proofs.Document.Unrefused
import TrackedGraph.Proofs.Recording.Attesting
import TrackedGraph.Proofs.Recording.Undoing

set_option autoImplicit false

namespace TrackedGraph

open Relation

variable {τ : Type} {d d' d₀ d₁ : Document τ} {f f' f₀ : Forest} {n a : NodeId} {p : PropertyId}
  {j j' : Journal} {r : Recording} {roots : List NodeId} {l : List Announcement} {k : Nat}
  {policy : Policy} {report : Revert.Report}

/-! ## Calls while the session goes on -/

/-- What is done to the journal may leave anything but session, initial nodes and records. -/
theorem Recording.Attested.set_journal (hd : r.Attested f₀ roots l d) (hf : d'.forest = d.forest)
    (hj : d'.audience.journal r.journal = j') (hs : j'.session = (d.audience.journal r.journal).session)
    (hi : ∀ n ∈ (d.audience.journal r.journal).initial, n ∈ j'.initial)
    (hr : j'.records = (d.audience.journal r.journal).records) : r.Attested f₀ roots l d' := by
  subst hj
  exact hd.congr hf hs hi hr

theorem Recording.Attested.resume (hd : r.Attested f₀ roots l d) :
    (r.resume d).2.history = d.history ∧ r.Attested f₀ roots l (r.resume d).2 := by
  obtain ⟨id, hs⟩ := hd.journal.session
  unfold Recording.resume
  rw [Recording.read_bind]
  by_cases hrun : (d.audience.journal r.journal).recording = true
  · rw [if_pos hrun]
    exact ⟨rfl, hd⟩
  · rw [if_neg hrun, hs]
    -- What came in unseen counts as there from the start, then a recorder joins.
    refine ⟨rfl, hd.set_journal rfl (Audience.journal_joined ?_) ?_ (fun n hn => ?_) ?_⟩
    · rw [Audience.length_setJournal]
      exact hd.exist
    all_goals simp only [Audience.journal_setJournal, hd.exist, and_self, if_true]
    · rfl
    · exact FirstSeen.mem_addAll.mpr (.inl hn)
    · rfl

theorem Recording.Attested.stop (hd : r.Attested f₀ roots l d) :
    (r.stop d).2.history = d.history ∧ r.Attested f₀ roots l (r.stop d).2 := by
  unfold Recording.stop
  rw [Recording.read_bind]
  by_cases hrun : (d.audience.journal r.journal).recording = true
  · rw [if_neg (by simp [hrun])]
    cases hseat : (d.audience.journal r.journal).seat with
    | none =>
      refine ⟨rfl, hd.set_journal rfl (Audience.journal_setJournal_self hd.exist)
        rfl (fun _ => id) rfl⟩
    | some o =>
      have hj : (d.audience.remove o).2.journal r.journal = d.audience.journal r.journal := by
        simp only [Audience.journal, Audience.journals_remove]
      have hk : r.journal < (d.audience.remove o).2.journals.length := by
        rw [Audience.journals_remove]
        exact hd.exist
      refine ⟨rfl, hd.set_journal rfl (Audience.journal_setJournal_self hk)
        (congrArg Journal.session hj :) (fun n hn => ?_) (congrArg Journal.records hj :)⟩
      rw [← hj] at hn
      exact hn
  · rw [if_pos (by simp [hrun])]
    exact ⟨rfl, hd⟩

theorem Recording.Attested.modify {g : Journal → Journal} (hd : r.Attested f₀ roots l d)
    (hs : (g (d.audience.journal r.journal)).session = (d.audience.journal r.journal).session)
    (hi : (g (d.audience.journal r.journal)).initial = (d.audience.journal r.journal).initial)
    (hr : (g (d.audience.journal r.journal)).records = (d.audience.journal r.journal).records) :
    (r.modify g d).2.history = d.history ∧ r.Attested f₀ roots l (r.modify g d).2 := by
  refine ⟨rfl, hd.set_journal rfl (Audience.journal_setJournal_self hd.exist)
    hs (fun n hn => ?_) hr⟩
  rw [hi]
  exact hn

theorem Recording.Attested.reduce (hd : r.Attested f₀ roots l d) :
    (r.reduce d).2.history = d.history ∧ r.Attested f₀ roots l (r.reduce d).2 := by
  obtain ⟨id, hs⟩ := hd.journal.session
  obtain ⟨-, -, hj⟩ := Journal.reduce_eq_ok d.forest r.policy.prune
    fun x hx => (Journal.forall_allEarliest hd.journal.recordable x hx).exists_slot hd.sound.toTyped
  rw [Recording.reduce_apply (by rw [hs]; rfl)]
  refine ⟨rfl, hd.sound, hd.schema, hd.types, ?_, hd.stays⟩
  rw [Audience.journal_setJournal_self hd.exist, hj]
  exact hd.journal.kept rfl rfl rfl

/-- **Calls that go on with a session** add nothing to the history, and the journal attests as
much as before. -/
theorem Recording.Attested.perform {c : Recording.Call} (hd : r.Attested f₀ roots l d)
    (hc : c.Continues) :
    (r.perform c d).2.history = d.history ∧ r.Attested f₀ roots l (r.perform c d).2 := by
  cases c with
  | start => exact hc.elim
  | startFrom roots => exact hc.elim
  | revert => exact hc.elim
  | undo => exact hc.elim
  | resume =>
    simp only [Recording.perform, Edit.snd_bind_pure]
    exact hd.resume
  | stop =>
    simp only [Recording.perform, Edit.snd_bind_pure]
    exact hd.stop
  | suspend =>
    simp only [Recording.perform, Edit.snd_bind_pure]
    exact hd.modify rfl rfl rfl
  | unsuspend =>
    simp only [Recording.perform, Edit.snd_bind_pure]
    exact hd.modify rfl rfl rfl
  | reduce =>
    simp only [Recording.perform, Edit.snd_bind_pure]
    exact hd.reduce
  | reduceRunning =>
    simp only [Recording.perform, Edit.snd_bind_pure]
    unfold Recording.reduceRunning
    rw [Recording.read_bind]
    -- Where no session runs, nothing is reduced.
    split_ifs
    · exact ⟨rfl, hd⟩
    · exact hd.reduce

theorem Recording.Attested.ask {question : Journal.Question} (hd : r.Attested f₀ roots l d) :
    r.Attested f₀ roots l (r.ask question d).2 := by
  obtain ⟨_, _, _, _, hj, -⟩ := question.answered_frame d.forest d.generation
    (d.audience.journal r.journal)
  refine hd.set_journal rfl (Audience.journal_setJournal_self hd.exist) ?_ ?_ ?_
  all_goals rw [hj]
  exact fun _ => id

/-- **A session that is started attests** what happens from then on. -/
theorem Recording.startFrom_attested (h : r.startFrom roots d = (.ok (), d'))
    (hf : d.forest.Sound True) (hk : r.journal < d.audience.journals.length) :
    d'.forest = d.forest ∧ d'.history = d.history ∧ r.Attested d.forest roots [] d' := by
  obtain ⟨hidle, hroots⟩ := Recording.of_startFrom_ok (congrArg Prod.fst h)
  have hstart := h
  rw [Recording.startFrom_apply hidle hroots, Recording.join_apply, Prod.mk.injEq] at h
  obtain ⟨-, rfl⟩ := h
  obtain ⟨-, seat, hj⟩ := Recording.startFrom_journal hstart (by
    rw [Audience.length_joined, Audience.length_setJournal]
    exact hk)
  refine ⟨rfl, rfl, hf, rfl, fun _ _ => id, ?_, fun n a p hn => hn.1⟩
  rw [hj]
  exact ⟨⟨_, rfl⟩, fun _ => id, ⟨List.nodup_nil, by simp [Journal.startSession, Journal.bump]⟩,
    by simp [Journal.startSession, Journal.bump], by simp [Journal.startSession, Journal.bump]⟩

/-- **The journal attests for as long as the session goes on.** -/
theorem Recording.Runs.attested (h : r.Runs Recording.Call.Continues d₁ d)
    (h₁ : r.Attested f₀ roots [] d₁) (ho : d₁.forest.schema.OwningMembers) :
    ∃ l, d.history = d₁.history ++ l ∧ r.Attested f₀ roots l d := by
  induction h with
  | start => exact ⟨[], (List.append_nil _).symm, h₁⟩
  | edit d m _ ih =>
    obtain ⟨l, hl, hd⟩ := ih
    have hown : d.forest.schema.OwningMembers := by
      rw [hd.schema, ← h₁.schema]
      exact ho
    have hchain := m.chain hd.sound fun _ _ => m.not_overlooks hd.sound.toTyped hown
    obtain ⟨l', hl'⟩ := hchain.history_le
    exact ⟨l ++ l', by rw [hl', hl, List.append_assoc], hchain.attested hd hl'⟩
  | call d c hc _ ih =>
    obtain ⟨l, hl, hd⟩ := ih
    obtain ⟨hhist, hd'⟩ := hd.perform hc
    exact ⟨l, hhist.trans hl, hd'⟩
  | ask d question _ ih =>
    obtain ⟨l, hl, hd⟩ := ih
    exact ⟨l, hl, hd.ask⟩

/-! ## Children that stay are put back -/

/-- **A child that no change took out** of its container sits in it once the states are
resettled. -/
theorem Recording.Attested.resettled (hd : r.Attested f₀ roots l d)
    (hx : d.forest.Resettles (r.toRestore d) f') (hs : f₀.Stays l n a p) : f'.Under n a := by
  obtain ⟨-, -, hreduced⟩ := Journal.reduce_eq_ok d.forest r.policy.prune
    fun x hx => (Journal.forall_allEarliest hd.journal.recordable x hx).exists_slot hd.sound.toTyped
  have hj : ((d.audience.journal r.journal).reduce d.forest r.policy.prune).2.Attests d.forest
      (f₀.closure roots) roots (f₀.Stays l) := by
    rw [hreduced]
    exact hd.journal.kept rfl rfl rfl
  have hrec : ∀ x ∈ r.toRestore d, d.forest.Recordable x ∧
      (n ∈ (d.forest.listed x).map Prod.fst ↔ x.node = a ∧ x.property = p) := by
    intro x hx
    obtain ⟨y, hy, hxy⟩ := Journal.mem_recalled.mp hx
    have hxy := Journal.mem_of_mem_earliest hxy
    exact ⟨hj.recordable y hy x hxy, hj.lists n a p hs y hy x hxy⟩
  apply Forest.refill_under hx.2
  · intro x hx
    rw [Forest.listed_emptied]
    exact (hrec x hx).1.nodup_listed
  · intro x hx y hy
    rw [Forest.listed_emptied] at hy
    rw [Forest.contains_emptied]
    exact (hrec x hx).1.contains_of_listed hd.sound.regular hy
  · intro x hx hn
    rw [Forest.listed_emptied] at hn
    exact ((hrec x hx).2.mp hn).1
  · -- Either a state of the slot lists the child, or nothing frees it.
    by_cases hex : ∃ x ∈ r.toRestore d, x.node = a ∧ x.property = p
    · obtain ⟨x, hx, hxs⟩ := hex
      refine .inr ⟨x, hx, ?_⟩
      rw [Forest.listed_emptied]
      exact (hrec x hx).2.mpr hxs
    · have hown := hd.stays n a p hs
      obtain ⟨q, hq⟩ := hd.sound.under_of_slotOwns hown
      refine .inl ⟨q, ?_⟩
      rw [Forest.emptied, Forest.place?_free, if_neg, hq]
      intro hheld
      obtain ⟨x, hx, hnx⟩ := List.mem_flatMap.mp hheld
      obtain ⟨s, hs⟩ := (hrec x hx).1.exists_slot hd.sound.toTyped
      rw [Forest.held_of_slot hs] at hnx
      exact hex ⟨x, hx, hd.sound.slotOwns_unique hown ⟨s, hs, hnx⟩⟩

/-! ## A revert that passes its check -/

/-- **Reverting that goes through** has resettled the states, and all that the journal had
noted is checked. -/
theorem Revert.of_run_ok (hf : d.forest.Sound True)
    (hk : k < d.audience.journals.length) (hi : Journal.Indexed (d.audience.journal k).records)
    (hx : ∀ x ∈ (d.audience.journal k).allEarliest, d.forest.Recordable x)
    (hv : policy.verify = true) (h : run policy k d = (.ok report, d')) :
    ∃ h' j', d.forest.Resettles
        ((d.audience.journal k).reduce d.forest policy.prune).2.allEarliest h' ∧
      d'.forest.SamePlaces h' ∧ d'.forest.Sound True ∧ (d.audience.journal k).Extends j' ∧
      ∃ res, verify d'.forest j' = .ok res := by
  obtain ⟨-, -, hreduced⟩ := Journal.reduce_eq_ok d.forest policy.prune
    fun x hxk => (hx x hxk).exists_slot hf.toTyped
  generalize hj : ((d.audience.journal k).reduce d.forest policy.prune).2 = j at hreduced ⊢
  suffices hs : (run policy k).Ends d fun res d' => ∀ report, res = .ok report →
      ∃ h' j', d.forest.Resettles j.allEarliest h' ∧ d'.forest.SamePlaces h' ∧
        d'.forest.Sound True ∧ (d.audience.journal k).Extends j' ∧
        ∃ res, verify d'.forest j' = .ok res by
    unfold Edit.Ends at hs
    rw [h] at hs
    exact hs report rfl
  refine run_ends_of hf hk hx hj ?_
  have hrec : ∀ x ∈ j.allEarliest, d.forest.Recordable x :=
    fun x hxj => hx x (Journal.mem_of_mem_allEarliest_of_kept (by rw [hreduced]) hxj)
  have hpairwise : j.allEarliest.Pairwise fun x y => ¬ x.SameSlot y := by
    rw [Journal.allEarliest_eq, hreduced]
    exact hi.kept.pairwise_recalled
  have hends := writeBack_ends (d := { d with audience := d.audience.setJournal k j }) hf hrec
    hpairwise
  have hquiet := unrefused_writeBack (j.allEarliest.filter d.forest.structural)
    (j.allEarliest.filter (!d.forest.structural ·))
    { d with audience := d.audience.setJournal k j } ()
  unfold Edit.Ends at hends ⊢
  generalize writeBack _ _ { d with audience := d.audience.setJournal k j } = out at hends hquiet ⊢
  obtain ⟨res, d₁⟩ := out
  obtain ⟨hc, hwritten⟩ := hends
  -- Only the run that goes through has a report; nobody refused while it wrote.
  refine ⟨fun e _ report he => absurd he (by simp), fun hres => ⟨fun e _ _ report he =>
    absurd he (by simp), fun report d' hforest _ hverified _ _ => ?_⟩⟩
  obtain ⟨h', hh', -, hsame, -⟩ | ⟨-, e, he⟩ := hwritten (hquiet hres)
  · refine ⟨h', d₁.audience.journal k, hh', ?_, ?_, ?_, ?_⟩
    · rw [hforest]
      exact hsame
    · rw [hforest]
      exact hc.sound hf
    · -- Writing back announces changes as well, so the journal may have noted more by then.
      have hsame : (d.audience.journal k).Extends j := by
        rw [hreduced]
        exact ⟨rfl, rfl, fun _ => id, fun _ => id⟩
      have hextends := hc.journal_extends (k := k)
      rw [Audience.journal_setJournal_self hk] at hextends
      exact hsame.trans hextends
    · rw [hforest]
      exact hverified hv
  · exact absurd (hres.symm.trans he) (by simp)

theorem Recording.of_revert_ok (h : r.revert d = (.ok report, d')) :
    Revert.run r.policy r.journal d = (.ok report, d') := by
  unfold Recording.revert at h
  rw [Recording.read_bind] at h
  by_cases hrun : (d.audience.journal r.journal).recording = true
  · rw [if_pos hrun] at h
    have he : (Except.error .mustStopFirst : Except Fault Revert.Report) = .ok report :=
      congrArg Prod.fst h
    exact absurd he (by simp)
  · rw [if_neg hrun] at h
    by_cases hnone : (d.audience.journal r.journal).session.isNone = true
    · simp only [if_pos hnone] at h
      have he : (Except.error .notRunning : Except Fault Revert.Report) = .ok report :=
        congrArg Prod.fst h
      exact absurd he (by simp)
    · simp only [if_neg hnone] at h
      exact h

/-- A change has taken the node out of its container, and the journal has not noted it. -/
def Journal.Misses (j : Journal) (l : List Announcement) (n : NodeId) : Prop :=
  (∃ e ∈ l, n ∈ e.leaving) ∧ n ∉ j.left

/-- What was within the roots is within them again unless it was below a node that the journal
misses. -/
theorem Recording.Attested.within_or_misses {h' : Forest} (hd : r.Attested f₀ roots l d)
    (hf₀ : f₀.Sound True) (hx : d.forest.Resettles (r.toRestore d) h')
    (hplaces : f.SamePlaces h') (hf : f.Sound True)
    (hextends : (d.audience.journal r.journal).Extends j')
    (hback : ∀ n ∈ j'.left, j'.wasInitial n = true → f.isWithinAny n roots = true)
    (hn : n ∈ f₀.closure roots) : f.isWithinAny n roots = true ∨
      ∃ c, f₀.Within n c ∧ f.isWithinAny c roots = false ∧
        (d.audience.journal r.journal).Misses l c := by
  obtain ⟨root, hroot, hc, hwithin⟩ := (Forest.mem_closure hf₀).mp hn
  clear hn
  -- From the root down: a child is put back with its container, unless it has been taken out.
  induction hwithin using ReflTransGen.head_induction_on with
  | refl => exact .inl ((Forest.isWithinAny_iff hf.acyclic).mpr ⟨root, hroot, .refl⟩)
  | @head n b hu hb ih =>
    rcases ih with ih | ⟨c, hbc, hlost⟩
    swap
    · exact .inr ⟨c, .head hu hbc, hlost⟩
    by_cases hout : ∃ e ∈ l, n ∈ e.leaving
    · -- The check itself vouches for a child that is noted to have left.
      by_cases hleft : n ∈ (d.audience.journal r.journal).left
      · have hinitial : j'.wasInitial n = true := by
          rw [Journal.wasInitial, List.contains_iff_mem, hextends.initial]
          exact hd.journal.initial n
            ((Forest.mem_closure hf₀).mpr ⟨root, hroot, hc, .head hu hb⟩)
        exact .inl (hback n (hextends.left n hleft) hinitial)
      · by_cases hin : f.isWithinAny n roots = true
        · exact .inl hin
        · exact .inr ⟨n, .refl, Bool.eq_false_iff.mpr hin, hout, hleft⟩
    · obtain ⟨p, hp⟩ := hf₀.exists_slotOwns hu
      have hstays : f₀.Stays l n b p := ⟨hp, fun e he hne => hout ⟨e, he, hne⟩⟩
      obtain ⟨q, hq⟩ := hd.resettled hx hstays
      obtain ⟨root', hroot', hin⟩ := (Forest.isWithinAny_iff hf.acyclic).mp ih
      refine .inl ((Forest.isWithinAny_iff hf.acyclic).mpr ⟨root', hroot', .head ⟨q, ?_⟩ hin⟩)
      rw [← hplaces.place?]
      exact hq

/-- **A revert that passes its check** leaves no created node within the roots of the session,
and what was within them at the start is within them again, unless it was below a node that
a change has taken out of its container without the journal noting it. -/
theorem Recording.Runs.verified {declarations : List TypeDeclaration} {schema : Schema}
    (hb : Schema.build declarations = .ok schema) (hn : schema.NullContainment)
    (hp : schema.PlainDefaults) (ho : schema.OwningMembers)
    (h₀ : d₀.Reachable schema fun _ _ => True) (hk : r.journal < d₀.audience.journals.length)
    (hstart : r.startFrom roots d₀ = (.ok (), d₁)) (h : r.Runs Recording.Call.Continues d₁ d)
    (hv : r.policy.verify = true) (hrevert : r.revert d = (.ok report, d')) :
    (∀ n, (d.audience.journal r.journal).isCreated n = true →
        d'.forest.isWithinAny n roots = false) ∧
      ∀ n ∈ d₀.forest.closure roots, d'.forest.isWithinAny n roots = true ∨
        ∃ c, d₀.forest.Within n c ∧ d'.forest.isWithinAny c roots = false ∧
          (d.audience.journal r.journal).Misses (d.history.drop d₁.history.length) c := by
  obtain ⟨hf₀, ho₀⟩ := h₀.sound_of_owning hb hn hp ho
  obtain ⟨hf₁, -, hd₁⟩ := Recording.startFrom_attested hstart hf₀ hk
  obtain ⟨l, hl, hd⟩ := h.attested hd₁ (by rw [hf₁]; exact ho₀)
  rw [hl, List.drop_left]
  obtain ⟨h', j', hh', hplaces, hf', hextends, res, hres⟩ := Revert.of_run_ok hd.sound hd.exist
    hd.journal.indexed (Journal.forall_allEarliest hd.journal.recordable) hv
    (Recording.of_revert_ok hrevert)
  obtain ⟨hout, hback⟩ := Revert.verify_ok_iff.mp ⟨res, hres⟩
  have hroots : j'.roots = roots := by
    obtain ⟨id, hs⟩ := hd.journal.session
    rw [Journal.roots, hextends.session, hs]
  rw [hroots] at hout hback
  refine ⟨fun n hcreated => hout n ?_, fun n hn =>
    hd.within_or_misses hf₀ hh' hplaces hf' hextends hback hn⟩
  -- What was created before the revert still counts as created when the tree is checked.
  simp only [Journal.isCreated, Journal.wasInitial, Bool.and_eq_true, List.contains_iff_mem,
    ← hextends.initial] at hcreated
  exact List.mem_filter.mpr ⟨hextends.entered n hcreated.1, hcreated.2⟩

/-- Three entries, one below the other. -/
def Outline.deep : Document Unit :=
  blank.after [.create "Entry", .create "Entry", .add ⟨0⟩ entries (.node ⟨1⟩),
    .add ⟨1⟩ entries (.node ⟨2⟩)]

/-- An entry that was taken out is put back with what is below it. If that was taken out of
the entry in turn, the check still passes, but it stays out. -/
theorem Recording.Runs.verified_deep :
    let d₁ := (Outline.recording.startFrom [⟨0⟩] Outline.deep).2
    let d := (Outline.recording.perform .stop (d₁.after [.remove ⟨0⟩ Outline.entries 0])).2
    let d' := (Outline.recording.perform .stop
      (d₁.after [.remove ⟨0⟩ Outline.entries 0, .remove ⟨1⟩ Outline.entries 0])).2
    (∀ n ∈ Outline.deep.forest.closure [⟨0⟩],
      (Outline.recording.revert d).2.forest.isWithinAny n [⟨0⟩] = true) ∧
    (Outline.recording.revert d').2.forest.isWithinAny ⟨2⟩ [⟨0⟩] = false ∧
      ∃ c, Outline.deep.forest.Within ⟨2⟩ c ∧
        (d'.audience.journal 0).Misses (d'.history.drop d₁.history.length) c := by
  have hreach : Outline.deep.Reachable Outline.schema fun _ _ => True :=
    .edit _ _ (.edit _ _ (.edit _ _ (.edit _ _ (Outline.blank_reachable _) trivial) trivial)
      trivial) trivial
  have hstart : Outline.recording.startFrom [⟨0⟩] Outline.deep =
      (.ok (), (Outline.recording.startFrom [⟨0⟩] Outline.deep).2) := Prod.ext rfl rfl
  intro d₁ d d'
  have hgoes : ∀ d₂ : Document Unit, (Outline.recording.revert d₂).1.isOk = true →
      ∃ report, Outline.recording.revert d₂ = (.ok report, (Outline.recording.revert d₂).2) := by
    intro d₂ h
    rcases hr : Outline.recording.revert d₂ with ⟨_ | report, d₃⟩
    · rw [hr] at h
      exact absurd h (by simp [Except.isOk, Except.toBool])
    · exact ⟨report, rfl⟩
  constructor
  · have hnoted : ∀ e ∈ d.history.drop d₁.history.length, ∀ c ∈ e.leaving,
        c ∈ (d.audience.journal 0).left := by decide +kernel
    obtain ⟨report, hrevert⟩ := hgoes d (by decide +kernel)
    have hrun : Outline.recording.Runs Recording.Call.Continues d₁ d :=
      .call _ _ trivial (.edit _ _ .start)
    intro n hn
    rcases (verified Outline.build_types (by decide) (by decide) (by decide) hreach
      (by decide +kernel) hstart hrun rfl hrevert).2 n hn with
      hin | ⟨c, -, -, ⟨e, he, hc⟩, hmissed⟩
    · exact hin
    · exact absurd (hnoted e he c hc) hmissed
  · have hout : (Outline.recording.revert d').2.forest.isWithinAny ⟨2⟩ [⟨0⟩] = false := by
      decide +kernel
    have hmem : ⟨2⟩ ∈ Outline.deep.forest.closure [⟨0⟩] := by decide +kernel
    obtain ⟨report, hrevert⟩ := hgoes d' (by decide +kernel)
    have hrun : Outline.recording.Runs Recording.Call.Continues d₁ d' :=
      .call _ _ trivial (.edit _ _ (.edit _ _ .start))
    refine ⟨hout, ?_⟩
    rcases (verified Outline.build_types (by decide) (by decide) (by decide) hreach
      (by decide +kernel) hstart hrun rfl hrevert).2 _ hmem with hin | ⟨c, hwithin, -, hmissed⟩
    · exact absurd (hin.symm.trans hout) (by simp)
    · exact ⟨c, hwithin, hmissed⟩

end TrackedGraph
