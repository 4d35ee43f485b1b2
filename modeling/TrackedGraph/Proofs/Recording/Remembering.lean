/-
What a recorder remembers.

While a session over one root runs, the journal covers the tree as it was at the start:
of every property of every node that was in it, the journal recalls the state at the
start, or it recalls none and the property is still in that state (`Journal.Covers`). A
change of a node in the tree is recorded before it is written, so the recorded state is
the present one, and a state that is recalled already is not replaced. That the nodes of
the tree at the start are not changed while they are outside of it has to be asked for;
everything else follows from the recorder hearing exactly the contents of the root.
-/
import TrackedGraph.Proofs.Forest.Resettling
import TrackedGraph.Proofs.Journal
import TrackedGraph.Proofs.Recording.Session
import TrackedGraph.Proofs.Value

set_option autoImplicit false

namespace TrackedGraph

variable {τ : Type} {d d' d₁ : Document τ} {o : ObserverId} {n m root : NodeId} {p : PropertyId}
  {r : Recording} {j j' : Journal} {f f' f₀ : Forest} {s : Slot} {x : PriorState}
  {loose : Bool} {tree : NodeId → Prop} {initial : List NodeId} {k : Nat}

/-! ## States that can be brought back -/

/-- The state as the contents of a slot. -/
def PriorState.slot (x : PriorState) : Slot := ⟨x.value, x.isSet⟩

/-- The state is one that its property could be in. -/
def Forest.Recordable (f : Forest) (x : PriorState) : Prop :=
  ∃ g, f.feature x.node x.property = .ok g ∧ g.owner = none ∧
    f.SlotFits x.node x.property g x.slot ∧
    ((f.claims x.node x.property x.value).map Prod.fst).Nodup

theorem Forest.Recordable.of_types (h : f.Recordable x) (hs : f'.schema = f.schema)
    (ht : ∀ m u, f.typeOf m = .ok u → f'.typeOf m = .ok u) : f'.Recordable x := by
  obtain ⟨g, hg, ho, hfits, hd⟩ := h
  obtain ⟨t, htn, -⟩ := Forest.feature_eq_ok.mp hg
  have hfeature : ∀ q, f'.feature x.node q = f.feature x.node q :=
    Forest.feature_congr hs ((ht _ _ htn).trans htn.symm)
  refine ⟨g, (hfeature _).trans hg, ho, hfits.of_types hs ht, ?_⟩
  rw [Forest.claims_congr hfeature]
  exact hd

theorem Forest.Recordable.exists_slot (h : f.Recordable x) (ht : f.Typed) :
    ∃ s, f.slot x.node x.property = .ok s := by
  obtain ⟨g, hg, -⟩ := h
  exact ht.slot_of_feature _ _ g hg

theorem Forest.Recordable.nodup_listed (h : f.Recordable x) : ((f.listed x).map Prod.fst).Nodup := by
  obtain ⟨-, -, -, -, hd⟩ := h
  exact hd

theorem Forest.Recordable.contains_of_listed {y : NodeId × PropertyId} (h : f.Recordable x)
    (hr : f.schema.Regular) (hy : y ∈ f.listed x) : f.contains y.1 = true := by
  obtain ⟨g, hg, -, hfits, -⟩ := h
  exact hfits.contains_of_claims hr hg hy

theorem Forest.Sound.recordable {g : Feature} (hf : f.Sound True)
    (hg : f.feature n p = .ok g) (ho : g.owner = none) (hs : f.slot n p = .ok s) :
    f.Recordable ⟨n, p, s.value, s.isSet⟩ :=
  ⟨g, hg, ho, hf.fits n p g s hg ho hs, (hf.linked trivial).once n p s hs⟩

/-! ## What a journal covers -/

/-- The journal recalls a state of the property. -/
def Journal.Recalls (j : Journal) (n : NodeId) (p : PropertyId) : Prop :=
  ∃ x ∈ j.allEarliest, x.node = n ∧ x.property = p

/-- Of the property the journal recalls a state that matches the slot, or it recalls none
and the property is in such a state at present. -/
def Journal.Remembers (j : Journal) (f : Forest) (loose : Bool) (n : NodeId) (p : PropertyId)
    (s : Slot) : Prop :=
  (∃ x ∈ j.allEarliest, x.node = n ∧ x.property = p ∧ x.slot.Matches loose s) ∨
    (∀ x ∈ j.allEarliest, ¬ (x.node = n ∧ x.property = p)) ∧
      ∃ now, f.slot n p = .ok now ∧ now.Matches loose s

/-- The journal covers the slots that the nodes of a tree had in an earlier forest. -/
structure Journal.Covers (j : Journal) (f : Forest) (loose : Bool) (f₀ : Forest)
    (tree : NodeId → Prop) : Prop where
  indexed : Journal.Indexed j.records
  recordable : ∀ y ∈ j.records, ∀ x ∈ y.2, f.Recordable x
  remembered : ∀ n p s, tree n → f₀.slot n p = .ok s → j.Remembers f loose n p s

namespace Journal

theorem Covers.of_allEarliest (h : j.Covers f loose f₀ tree) (hx : x ∈ j.allEarliest) :
    f.Recordable x :=
  forall_allEarliest h.recordable x hx

/-- The forest may change where the journal recalls a state. -/
theorem Covers.of_slots (h : j.Covers f loose f₀ tree) (hs : f'.schema = f.schema)
    (ht : ∀ m u, f.typeOf m = .ok u → f'.typeOf m = .ok u)
    (hslot : ∀ n p s, tree n → (∀ x ∈ j.allEarliest, ¬ (x.node = n ∧ x.property = p)) →
      f.slot n p = .ok s → f'.slot n p = .ok s) : j.Covers f' loose f₀ tree := by
  refine ⟨h.indexed, fun y hy x hx => (h.recordable y hy x hx).of_types hs ht, ?_⟩
  intro n p s hn hs₀
  rcases h.remembered n p s hn hs₀ with hx | ⟨hnone, now, hnow, hm⟩
  · exact .inl hx
  · exact .inr ⟨hnone, now, hslot n p now hn hnone hnow, hm⟩

theorem Covers.of_records (h : j.Covers f loose f₀ tree) (hr : j'.records = j.records) :
    j'.Covers f loose f₀ tree := by
  have hall := allEarliest_of_records hr
  refine ⟨by rw [hr]; exact h.indexed, by rw [hr]; exact h.recordable, ?_⟩
  unfold Remembers
  rw [hall]
  exact h.remembered

/-- **Recording the present state of a property.** -/
theorem Covers.append (h : j.Covers f loose f₀ tree) (hx : f.Recordable x)
    (hs : f.slot x.node x.property = .ok x.slot) (hr : j'.records = appendRecord x j.records) :
    j'.Covers f loose f₀ tree ∧ j'.Recalls x.node x.property ∧
      ∀ n p, j.Recalls n p → j'.Recalls n p := by
  have hmem : ∀ y, y ∈ j'.allEarliest ↔
      y ∈ j.allEarliest ∨ y = x ∧ ∀ z ∈ j.allEarliest, ¬ z.SameSlot x :=
    fun _ => mem_allEarliest_append h.indexed hr
  refine ⟨⟨by rw [hr]; exact h.indexed.append x, fun y hy z hz => ?_, fun n p s hn hs₀ => ?_⟩, ?_,
    fun n p hy => ?_⟩
  · rw [hr] at hy
    exact forall_appendRecord (P := fun _ z => f.Recordable z) h.recordable hx y hy z hz
  · rcases h.remembered n p s hn hs₀ with ⟨y, hy, hyx⟩ | ⟨hnone, now, hnow, hm⟩
    · exact .inl ⟨y, (hmem y).mpr (.inl hy), hyx⟩
    · by_cases heq : x.node = n ∧ x.property = p
      · -- The slot is still as it was at the start, and that is what is recorded.
        obtain ⟨rfl, rfl⟩ := heq
        obtain rfl := ok_unique hs hnow
        exact .inl ⟨x, (hmem x).mpr (.inr ⟨rfl, hnone⟩), rfl, rfl, hm⟩
      · refine .inr ⟨fun y hy => ?_, now, hnow, hm⟩
        rcases (hmem y).mp hy with hy | ⟨rfl, -⟩
        · exact hnone y hy
        · exact heq
  · by_cases hold : ∃ y ∈ j.allEarliest, y.SameSlot x
    · obtain ⟨y, hy, hyx⟩ := hold
      exact ⟨y, (hmem y).mpr (.inl hy), hyx⟩
    · simp only [not_exists, not_and] at hold
      exact ⟨x, (hmem x).mpr (.inr ⟨rfl, hold⟩), rfl, rfl⟩
  · obtain ⟨y, hy, hyn⟩ := hy
    exact ⟨y, (hmem y).mpr (.inl hy), hyn⟩

/-- **Reducing** a journal that remembers the slots of the tree. What is superfluous is back in
the state it was in at the start. -/
theorem Covers.of_kept (hi : Indexed j.records) (hx : ∀ x ∈ j.allEarliest, f.Recordable x)
    (h : ∀ n p s, tree n → f₀.slot n p = .ok s → j.Remembers f loose n p s)
    (hr : j'.records = Journal.kept f loose j.records) : j'.Covers f loose f₀ tree := by
  have hall := allEarliest_of_kept hr
  refine ⟨by rw [hr]; exact hi.kept, fun y hy x hxy => ?_, fun n p s hn hs₀ => ?_⟩
  · rw [hr] at hy
    obtain ⟨z, hz, rfl⟩ := List.mem_map.mp (List.mem_filter.mp hy).1
    exact hx x (mem_recalled.mpr ⟨z, hz, (List.mem_filter.mp hxy).1⟩)
  · unfold Remembers
    rw [hall]
    rcases h n p s hn hs₀ with ⟨x, hx, hn', hp', hm⟩ | ⟨hnone, hnow⟩
    · -- A state that is dropped is the present one, so the slot needs no record of the start.
      by_cases hsup : superfluous f loose x = true
      · right
        refine ⟨fun y hy heq => ?_, ?_⟩
        · obtain ⟨hy, hkeep⟩ := List.mem_filter.mp hy
          obtain rfl : y = x := hi.eq_of_sameSlot hy hx
            ⟨heq.1.trans hn'.symm, heq.2.trans hp'.symm⟩
          rw [hsup] at hkeep
          simp at hkeep
        · obtain ⟨hl, now, hnow, hset, hv⟩ := superfluous_iff.mp hsup
          rw [hn', hp'] at hnow
          exact ⟨now, hnow, .trans (.inr ⟨hl, hset, hv⟩) hm⟩
      · exact .inl ⟨x, List.mem_filter.mpr ⟨hx, by simpa using hsup⟩, hn', hp', hm⟩
    · exact .inr ⟨fun x hx => hnone x (List.mem_filter.mp hx).1, hnow⟩

theorem Covers.kept (h : j.Covers f loose f₀ tree) (hr : j'.records = kept f loose j.records) :
    j'.Covers f loose f₀ tree :=
  .of_kept h.indexed (fun _ => h.of_allEarliest) h.remembered hr

/-! ## The journal of a running session -/

/-- What the start of a session over one root fixes for as long as it runs. -/
structure Running (j : Journal) (o : ObserverId) (initial : List NodeId) (root : NodeId) :
    Prop where
  recording : j.recording = true
  suspended : j.suspended = false
  seat : j.seat = some o
  session : ∃ id, j.session = some ⟨id, [root]⟩
  initial : j.initial = initial

/-- A journal that differs in what it records only. -/
def SameSession (j j' : Journal) : Prop :=
  j'.recording = j.recording ∧ j'.suspended = j.suspended ∧ j'.seat = j.seat ∧
    j'.session = j.session ∧ j'.initial = j.initial

theorem SameSession.refl (j : Journal) : j.SameSession j := ⟨rfl, rfl, rfl, rfl, rfl⟩

theorem SameSession.trans {j'' : Journal} (h : j.SameSession j') (h' : j'.SameSession j'') :
    j.SameSession j'' := by
  obtain ⟨h₁, h₂, h₃, h₄, h₅⟩ := h
  obtain ⟨k₁, k₂, k₃, k₄, k₅⟩ := h'
  exact ⟨k₁.trans h₁, k₂.trans h₂, k₃.trans h₃, k₄.trans h₄, k₅.trans h₅⟩

theorem Running.congr (h : j.Running o initial root) (hs : j.SameSession j') :
    j'.Running o initial root := by
  obtain ⟨hr, hp, hseat, hsession, hi⟩ := hs
  refine ⟨hr.trans h.recording, hp.trans h.suspended, hseat.trans h.seat, ?_, hi.trans h.initial⟩
  rw [hsession]
  exact h.session

theorem Running.roots (h : j.Running o initial root) : j.roots = [root] :=
  roots_of_session h.session.choose_spec

theorem foldl_note (note : Journal → NodeId → Journal)
    (hn : ∀ j n, j.SameSession (note j n) ∧ (note j n).records = j.records) (ns : List NodeId)
    (j : Journal) : j.SameSession (ns.foldl note j) ∧ (ns.foldl note j).records = j.records := by
  induction ns generalizing j with
  | nil => exact ⟨.refl j, rfl⟩
  | cons n ns ih => exact ⟨(hn j n).1.trans (ih _).1, (ih _).2.trans (hn j n).2⟩

/-- Recording a planned change appends the state of the property before it. -/
theorem record_plan {N : Notice} {q : Tracking.Plan} (h : j.suspended = false) :
    j.SameSession (Tracking.record N q j) ∧ (Tracking.record N q j).records =
      appendRecord ⟨N.node, N.property, q.prior.value, q.prior.isSet⟩ j.records := by
  obtain ⟨hexit, hr⟩ := foldl_note noteExit (fun j _ => ⟨.refl j, rfl⟩) q.leaving j
  obtain ⟨hentry, hr'⟩ := foldl_note noteEntry (fun j _ => ⟨.refl j, rfl⟩) q.entering
    (q.leaving.foldl noteExit j)
  unfold Tracking.record
  rw [if_neg (by simp [h])]
  exact ⟨hexit.trans (hentry.trans (.refl _)), congrArg (appendRecord _) (hr'.trans hr)⟩

/-- Recording is nothing to the session, whether or not the journal is suspended. -/
theorem sameSession_record {N : Notice} {q : Tracking.Plan} :
    j.SameSession (Tracking.record N q j) := by
  by_cases hj : j.suspended = true
  · unfold Tracking.record
    rw [if_pos hj]
    exact .refl j
  · rw [Bool.not_eq_true] at hj
    exact (record_plan hj).1

/-- Reducing is nothing to the session either, even if the records are lost by it. -/
theorem sameSession_reduce (f : Forest) (prune : Bool) (j : Journal) :
    j.SameSession (j.reduce f prune).2 := by
  unfold reduce
  dsimp only
  split <;> exact ⟨rfl, rfl, rfl, rfl, rfl⟩

/-- **Recording a change**, once or more than once. -/
theorem Covers.record_plan {N : Notice} {q : Tracking.Plan} (h : j.Covers f loose f₀ tree)
    (hj : j.suspended = false)
    (hx : f.Recordable ⟨N.node, N.property, q.prior.value, q.prior.isSet⟩)
    (hs : f.slot N.node N.property = .ok q.prior) (i : Nat) :
    j.SameSession ((Tracking.record N q)^[i + 1] j) ∧
      ((Tracking.record N q)^[i + 1] j).Covers f loose f₀ tree ∧
      ((Tracking.record N q)^[i + 1] j).Recalls N.node N.property ∧
      ∀ n p, j.Recalls n p → ((Tracking.record N q)^[i + 1] j).Recalls n p := by
  have hone : ∀ k : Journal, j.SameSession k → k.Covers f loose f₀ tree →
      j.SameSession (Tracking.record N q k) ∧ (Tracking.record N q k).Covers f loose f₀ tree ∧
        (Tracking.record N q k).Recalls N.node N.property ∧
        ∀ n p, k.Recalls n p → (Tracking.record N q k).Recalls n p := by
    intro k hsame hk
    obtain ⟨hsame', hr⟩ := Journal.record_plan (N := N) (q := q) (hsame.2.1.trans hj)
    exact ⟨hsame.trans hsame', hk.append hx hs hr⟩
  induction i with
  | zero => exact hone j (.refl j) h
  | succ i ih =>
    rw [Function.iterate_succ_apply']
    obtain ⟨hsame, hcovers, -, hmono⟩ := ih
    obtain ⟨hsame', hcovers', hrecalls, hmono'⟩ := hone _ hsame hcovers
    exact ⟨hsame', hcovers', hrecalls, fun n p hn => hmono' n p (hmono n p hn)⟩

end Journal

/-! ## Running a session -/

/-- A session over one root is running: the recorder follows the root, nobody else writes
the journal, and the journal covers the tree in which the session was started. -/
structure Recording.Logs (r : Recording) (o : ObserverId) (f₀ : Forest) (root : NodeId)
    (d : Document τ) : Prop where
  follows : d.Follows o r.journal r.policy.strict [root]
  hears : d.Hears o root
  alone : d.audience.WrittenBy r.journal o
  exist : r.journal < d.audience.journals.length
  running : (d.audience.journal r.journal).Running o (f₀.closure [root]) root
  covers : (d.audience.journal r.journal).Covers d.forest r.policy.prune f₀
    (· ∈ f₀.contents root)

theorem Document.Follows.hears_iff_within (h : d.Follows o k loose [root]) (hr : d.Hears o root) :
    d.Hears o n ↔ d.forest.Within n root := by
  rw [h.tracks.iff]
  constructor
  · rintro ⟨x, hx, -, hw⟩
    rw [← List.mem_singleton.mp hx]
    exact hw
  · exact fun hw => ⟨root, List.mem_singleton_self _, hr, hw⟩

/-- Nothing severs the one root from its own session: a tracked node is below it, so no
child of a tracked node has it below. -/
theorem Document.Follows.hears_step (h : Step True d d') (hd : d.Follows o k loose [root])
    (hr : d.Hears o root) : d'.Hears o root := by
  cases h with
  | asked N => exact hears_poll.mpr hr
  | refused N e h => exact (hears_refused h).mpr hr
  | created t n f h => exact hr
  | counted k => exact hr
  | unwritten N g h hn hg ho hm =>
    rcases hd.hears_announce h with ⟨-, q, hq, hhears⟩ | ⟨-, hhears⟩
    · have hmove := (Tracking.plan_eq_ok hq).1
      rw [hm, Except.ok.injEq, Prod.mk.injEq] at hmove
      exact (hhears root).mpr (.inl ⟨hr, by rw [← hmove.1]; simp⟩)
    · exact (hhears root).mpr hr
  | changed N g old new freed taken h hc hw hm =>
    rcases hd.hears_announce h with ⟨hn, q, hq, hhears⟩ | ⟨-, hhears⟩
    · refine (hhears root).mpr (.inl ⟨hr, fun hin => ?_⟩)
      obtain ⟨c, hc, hwithin⟩ := ((hm trivial).mem_contents (m := root) hd.sound hw
        (Tracking.plan_eq_ok hq).1).1.mp hin
      have hup := (hd.hears_iff_within hr).mp hn
      exact hd.sound.acyclic.not_within (hw.under_of_freed hd.sound hc) (hup.trans hwithin)
    · exact (hhears root).mpr hr

/-- **What an accepted change does to the journal**: either its node is in the tracked tree
and the journal recalls a state of the property, or nothing happens to the journal. What was
recalled before is recalled after. -/
theorem Recording.Logs.announce {N : Notice} {g : Feature} (hd : r.Logs o f₀ root d)
    (h : (Edit.announce N d).1 = .ok ()) (hg : d.forest.feature N.node N.property = .ok g)
    (ho : g.owner = none) :
    let j := d.audience.journal r.journal
    let j' := (Edit.announce N d).2.audience.journal r.journal
    j.SameSession j' ∧ j'.Covers d.forest r.policy.prune f₀ (· ∈ f₀.contents root) ∧
      (d.forest.Within N.node root → j'.Recalls N.node N.property) ∧
      ∀ n p, j.Recalls n p → j'.Recalls n p := by
  have htold := (announce_apply N d).1.symm.trans h
  rw [audience_announce]
  rcases Audience.journal_announce htold hd.follows.seated hd.alone hd.exist with
    ⟨q, i, -, hq, hj⟩ | ⟨hn, hj⟩
  · have hs := (Tracking.plan_eq_ok hq).2
    obtain ⟨hsame, hcovers, hrecalls, hmono⟩ := hd.covers.record_plan (N := N) (q := q)
      hd.running.suspended (hd.follows.sound.recordable hg ho hs) hs i
    rw [hj]
    exact ⟨hsame, hcovers, fun _ => hrecalls, hmono⟩
  · rw [hj]
    refine ⟨.refl _, hd.covers, fun hwithin => absurd ?_ hn, fun _ _ => id⟩
    exact (hd.follows.hears_iff_within hd.hears).mpr hwithin

theorem Recording.Logs.congr (hd : r.Logs o f₀ root d) (hf : d'.forest = d.forest)
    (hm : ∀ o, d'.audience.member? o = d.audience.member? o)
    (hs : ∀ m, d'.Hears o m ↔ d.Hears o m)
    (hj : d'.audience.journals = d.audience.journals) : r.Logs o f₀ root d' := by
  have hj' : d'.audience.journal r.journal = d.audience.journal r.journal := by
    unfold Audience.journal
    rw [hj]
  refine ⟨hd.follows.congr hf (hm o) hs, (hs root).mpr hd.hears, fun o' s ho' => ?_, ?_, ?_, ?_⟩
  · rw [hm] at ho'
    exact hd.alone o' s ho'
  · rw [hj]
    exact hd.exist
  · rw [hj']
    exact hd.running
  · rw [hj', hf]
    exact hd.covers

/-- A node of the earlier tree is not written while it is outside of the tree. -/
def Announcement.WritesInside (a : Announcement) (f₀ : Forest) (root : NodeId) : Prop :=
  a.forest.CanWrite a.notice → a.notice.node ∈ f₀.contents root →
    a.notice.node ∈ a.forest.contents root

/-- Since `d` the journal has come to recall what was changed in the tree, and it has not lost
what it recalled then. -/
structure Recording.Recalled (r : Recording) (root : NodeId) (l : List Announcement)
    (d d' : Document τ) : Prop where
  changed : ∀ a ∈ l, a.notice.node ∈ a.forest.contents root →
    (d'.audience.journal r.journal).Recalls a.notice.node a.notice.property
  kept : ∀ n p, (d.audience.journal r.journal).Recalls n p →
    (d'.audience.journal r.journal).Recalls n p

/-- **A step of an edit keeps the session logging**, as long as it changes no node of the
tree at the start while that node is outside of the tree, unless a state of the property is
recalled already. -/
theorem Step.logs_recalls {l : List Announcement} (h : Step True d d') (hd : r.Logs o f₀ root d)
    (hl : d'.history = d.history ++ l)
    (hin : ∀ a ∈ l, a.WritesInside f₀ root ∨
      (d.audience.journal r.journal).Recalls a.notice.node a.notice.property) :
    r.Logs o f₀ root d' ∧ r.Recalled root l d d' := by
  have hfollows := h.follows hd.follows
  have hhears := hd.follows.hears_step h hd.hears
  have hmember : ∀ {o'}, d'.audience.member? o' = d.audience.member? o' := h.member?
  have halone : d'.audience.WrittenBy r.journal o := fun o' s ho' => hd.alone o' s (hmember ▸ ho')
  have hexist : r.journal < d'.audience.journals.length := h.journals_length.symm ▸ hd.exist
  -- A step that announces nothing leaves the journals alone.
  have hquiet : r.Logs o f₀ root d' → d'.history = d.history →
      d'.audience.journals = d.audience.journals →
      r.Logs o f₀ root d' ∧ r.Recalled root l d d' := by
    intro hlogs hhistory hjournals
    obtain rfl := Document.history_same hl hhistory
    refine ⟨hlogs, ⟨List.forall_mem_nil _, fun n p hn => ?_⟩⟩
    unfold Audience.journal
    rw [hjournals]
    exact hn
  cases h with
  | asked N =>
    exact hquiet (hd.congr (forest_poll N) (fun _ => hmember) (fun _ => hears_poll) journals_poll)
      (history_poll N) journals_poll
  | refused N e h =>
    exact hquiet (hd.congr (forest_announce N) (fun _ => hmember) (fun _ => hears_refused h)
      (journals_refused h)) (history_announce_error h) (journals_refused h)
  | counted k => exact hquiet (hd.congr rfl (fun _ => rfl) (fun _ => Iff.rfl) rfl) rfl rfl
  | created t n f h =>
    refine hquiet ⟨hfollows, hhears, halone, hexist, hd.running, hd.covers.of_slots
      (Forest.schema_create h) (fun _ _ => Forest.typeOf_create_of_ok h) ?_⟩ rfl rfl
    exact fun _ _ _ _ _ => Forest.slot_create_of_ok h
  | changed N g old new freed taken h hc hw hm =>
    obtain ⟨hsame, hcovers, hrecalls, hmono⟩ := hd.announce h hw.feature hw.direct
    obtain rfl := Document.history_announced hl h rfl
    rw [List.forall_mem_singleton] at hin
    have hinside : N.node ∈ d.forest.contents root →
        ((Edit.announce N d).2.audience.journal r.journal).Recalls N.node N.property := fun hn =>
      hrecalls ((Forest.mem_contents hd.follows.sound).mp hn).2
    refine ⟨⟨hfollows, hhears, halone, hexist, hd.running.congr hsame, hcovers.of_slots
        Forest.schema_write (fun _ _ => Forest.typeOf_write.trans) fun n p s hn hnone hs => ?_⟩,
      ⟨List.forall_mem_singleton.mpr hinside, hmono⟩⟩
    refine (Forest.slot_write_of_ne fun heq => ?_).trans hs
    obtain ⟨rfl, rfl⟩ := Prod.mk.injEq .. ▸ heq
    obtain ⟨y, hy, hynode⟩ := hin.elim (fun hin => hinside (hin hc hn)) (hmono _ _)
    exact hnone y hy hynode
  | unwritten N g h hn hg ho hm =>
    obtain ⟨hsame, hcovers, hrecalls, hmono⟩ := hd.announce h hg ho
    obtain rfl := Document.history_announced hl h rfl
    refine ⟨⟨hfollows, hhears, halone, hexist, hd.running.congr hsame, ?_⟩,
      ⟨List.forall_mem_singleton.mpr fun hn => ?_, hmono⟩⟩
    · rw [forest_announce]
      exact hcovers
    · exact hrecalls ((Forest.mem_contents hd.follows.sound).mp hn).2

theorem Step.logs {l : List Announcement} (h : Step True d d') (hd : r.Logs o f₀ root d)
    (hl : d'.history = d.history ++ l) (hin : ∀ a ∈ l, a.WritesInside f₀ root) :
    r.Logs o f₀ root d' :=
  (h.logs_recalls hd hl fun a ha => .inl (hin a ha)).1

theorem Chain.logs {l : List Announcement} (h : Chain True d d') (hd : r.Logs o f₀ root d)
    (hl : d'.history = d.history ++ l)
    (hin : ∀ a ∈ l, a.WritesInside f₀ root) :
    r.Logs o f₀ root d' := by
  refine Chain.history_induction (P := fun l d' => (∀ a ∈ l, a.WritesInside f₀ root) →
    r.Logs o f₀ root d') h hl (fun _ => hd) ?_ hin
  intro l₁ d₁ l₂ d₂ _ hs hl₂ ih hin
  rw [List.forall_mem_append] at hin
  exact hs.logs (ih hin.1) hl₂ hin.2

/-! ## Reducing while the session runs -/

/-- What starts by reading a journal goes on with it. -/
theorem Edit.journal_bind {α : Type} {k : Nat} {g : Journal → Edit τ α} :
    (Edit.journal k >>= g) d = g (d.audience.journal k) d := rfl

theorem Recording.read_bind {α : Type} {g : Journal → Edit τ α} :
    (r.read >>= g) d = g (d.audience.journal r.journal) d := rfl

theorem reduceJournal_apply {k : Nat} {prune : Bool} : Edit.reduceJournal k prune d =
    (((d.audience.journal k).reduce d.forest prune).1, { d with
      audience := d.audience.setJournal k ((d.audience.journal k).reduce d.forest prune).2 }) :=
  rfl

/-- **Reducing**, once there has been a session. -/
theorem Recording.reduce_apply (hs : (d.audience.journal r.journal).session.isSome = true) :
    r.reduce d = (((d.audience.journal r.journal).reduce d.forest r.policy.prune).1, { d with
      audience := d.audience.setJournal r.journal
        ((d.audience.journal r.journal).reduce d.forest r.policy.prune).2 }) := by
  unfold Recording.reduce
  rw [Recording.read_bind, if_neg (by simpa using Option.isSome_iff_ne_none.mp hs)]
  rfl

theorem Recording.reduceRunning_apply
    (hrunning : (d.audience.journal r.journal).recording = true) :
    r.reduceRunning d = r.reduce d := by
  unfold Recording.reduceRunning
  rw [Recording.read_bind, if_neg (by simp [hrunning])]

theorem Journal.Covers.exists_slot (h : j.Covers f loose f₀ tree) (ht : f.Typed) :
    ∀ x ∈ j.allEarliest, ∃ s, f.slot x.node x.property = .ok s :=
  fun _ hx => (h.of_allEarliest hx).exists_slot ht

theorem Recording.Logs.reduced (hd : r.Logs o f₀ root d) :
    r.Logs o f₀ root { d with
      audience := d.audience.setJournal r.journal
        ((d.audience.journal r.journal).reduce d.forest r.policy.prune).2 } := by
  obtain ⟨report, -, hj⟩ := Journal.reduce_eq_ok d.forest r.policy.prune
    (hd.covers.exists_slot hd.follows.sound.toTyped)
  refine ⟨⟨hd.follows.sound, hd.follows.seated, hd.follows.tracks⟩, hd.hears, hd.alone, ?_, ?_, ?_⟩
  · rw [Audience.length_setJournal]
    exact hd.exist
  · rw [Audience.journal_setJournal_self hd.exist, hj]
    exact hd.running.congr (.refl _)
  · rw [Audience.journal_setJournal_self hd.exist, hj]
    exact hd.covers.kept rfl

theorem Recording.Logs.reduce_apply (hd : r.Logs o f₀ root d) :
    r.reduce d = (((d.audience.journal r.journal).reduce d.forest r.policy.prune).1, { d with
      audience := d.audience.setJournal r.journal
        ((d.audience.journal r.journal).reduce d.forest r.policy.prune).2 }) := by
  obtain ⟨id, hsession⟩ := hd.running.session
  exact Recording.reduce_apply (by rw [hsession]; rfl)

theorem Recording.Logs.reduceRunning (hd : r.Logs o f₀ root d) :
    r.Logs o f₀ root (r.reduceRunning d).2 := by
  rw [Recording.reduceRunning_apply hd.running.recording, hd.reduce_apply]
  exact hd.reduced

/-! ## A session from its start -/

/-- A run of a session in which documents are edited and the journal is reduced. -/
inductive Recording.Logged (r : Recording) (d₁ : Document τ) : Document τ → Prop
  | start : Logged r d₁ d₁
  | edit (d : Document τ) (m : Mutation) (h : Logged r d₁ d) : Logged r d₁ (m.run d).2
  | reduce (d : Document τ) (h : Logged r d₁ d) : Logged r d₁ (r.reduceRunning d).2

theorem Audience.member?_add_of_ne {a : Audience τ} {y : Member τ} (h : o ≠ (a.add y).1) :
    (a.add y).2.member? o = a.member? o := by
  unfold Audience.add at h ⊢
  unfold Audience.member?
  split at h
  · next i hi =>
    have hne : i ≠ o.index := fun heq => h (by rw [heq])
    simp only [List.getElem?_set_ne hne]
  · have hne : o.index ≠ a.seats.length := fun heq => h (by rw [← heq])
    rcases Nat.lt_or_gt_of_ne hne with hlt | hgt
    · simp only [List.getElem?_append_left hlt]
    · simp only [List.getElem?_append_right (Nat.le_of_lt hgt)]
      rw [List.getElem?_eq_none (by simp; omega), List.getElem?_eq_none (Nat.le_of_lt hgt)]

theorem Audience.member?_add_eq {a : Audience τ} {y : Member τ} :
    (a.add y).2.member? o = if o = (a.add y).1 then some y else a.member? o := by
  split_ifs with heq
  · rw [heq]
    exact member?_add
  · exact member?_add_of_ne heq

theorem Audience.member?_joined_eq {a : Audience τ} {r : Recording} {tracked : List NodeId} :
    (a.joined r tracked).member? o = if o = (a.add (.recorder r.journal r.policy.strict)).1 then
      some (.recorder r.journal r.policy.strict) else a.member? o :=
  member?_add_eq

theorem Audience.journals_add {a : Audience τ} {y : Member τ} :
    (a.add y).2.journals = a.journals := by
  unfold Audience.add
  split <;> rfl

theorem Audience.memory_add {a : Audience τ} {y : Member τ} : (a.add y).2.memory = a.memory := by
  unfold Audience.add
  split <;> rfl

theorem Audience.memory_joined {a : Audience τ} {tracked : List NodeId} :
    (a.joined r tracked).memory = a.memory := memory_add

theorem Audience.length_joined {a : Audience τ} {tracked : List NodeId} :
    (a.joined r tracked).journals.length = a.journals.length := by
  unfold Audience.joined
  simp only [Audience.length_setJournal, Audience.journals_add]

theorem Audience.journal_joined {a : Audience τ} {tracked : List NodeId}
    (hk : r.journal < a.journals.length) :
    (a.joined r tracked).journal r.journal = { a.journal r.journal with
      seat := some (a.add (.recorder r.journal r.policy.strict)).1
      recording := true } := by
  unfold Audience.joined
  simp only [Audience.journal_setJournal, Audience.journals_add, hk, and_self, if_true]
  rfl

theorem Audience.journal_joined_of_ne {a : Audience τ} {tracked : List NodeId} {k : Nat}
    (hk : k ≠ r.journal) : (a.joined r tracked).journal k = a.journal k := by
  unfold Audience.joined
  rw [Audience.journal_setJournal, if_neg fun h => hk h.1.symm]
  unfold Audience.journal
  rw [Audience.journals_add]

/-- The journal of a session that is started. -/
theorem Recording.startFrom_journal {roots : List NodeId} (h : r.startFrom roots d = (.ok (), d'))
    (hk : r.journal < d'.audience.journals.length) : d'.root = d.root ∧
      ∃ o, d'.audience.journal r.journal = { (d.audience.journal r.journal).startSession
        ⟨d.sessions, roots⟩ (d.forest.closure roots) with
          seat := some o
          recording := true } := by
  obtain ⟨hidle, hroots⟩ := Recording.of_startFrom_ok (congrArg Prod.fst h)
  rw [Recording.startFrom_apply hidle hroots, Recording.join_apply, Prod.mk.injEq] at h
  generalize ha : d.audience.setJournal r.journal _ = a at h
  obtain ⟨-, rfl⟩ := h
  have hlength : r.journal < a.journals.length := by
    rw [← Audience.length_joined]
    exact hk
  have hj : a.journal r.journal = (d.audience.journal r.journal).startSession
      ⟨d.sessions, roots⟩ (d.forest.closure roots) := by
    rw [← ha, Audience.length_setJournal] at hlength
    rw [← ha, Audience.journal_setJournal_self hlength]
  refine ⟨rfl, (a.add (.recorder r.journal r.policy.strict)).1, ?_⟩
  rw [← hj]
  exact Audience.journal_joined hlength

/-- **A session that is started logs** what happens from then on, if nobody else writes its
journal. -/
theorem Recording.startFrom_logs (h : r.startFrom [root] d = (.ok (), d'))
    (hf : d.forest.Sound True) (hseat : (d'.audience.journal r.journal).seat = some o)
    (hclean : ∀ n, ¬ d.Hears o n)
    (halone : ∀ o' s, d.audience.member? o' ≠ some (.recorder r.journal s)) :
    d'.forest = d.forest ∧ d'.history = d.history ∧ r.Logs o d.forest root d' := by
  obtain ⟨hforest, hhistory, hd'⟩ := Recording.startFrom_recorded h hf hseat hclean
  have hk : r.journal < d'.audience.journals.length := by
    by_contra hnot
    rw [Audience.journal_of_le (Nat.le_of_not_lt hnot)] at hseat
    exact absurd hseat (by simp)
  obtain ⟨-, seat, hj⟩ := Recording.startFrom_journal h hk
  have hheard := hd'.heard (by simp) root (List.mem_singleton_self _)
  -- Nothing is recorded yet, and nothing has changed.
  refine ⟨hforest, hhistory, hd'.toFollows, hheard, fun o' s ho' => ?_, hk, ?_, ?_⟩
  · obtain ⟨hidle, hroots⟩ := Recording.of_startFrom_ok (congrArg Prod.fst h)
    rw [Recording.startFrom_apply hidle hroots, Recording.join_apply, Prod.mk.injEq] at h
    obtain ⟨-, rfl⟩ := h
    obtain rfl := Audience.seat_joined hseat
    by_contra hne
    exact halone o' s ((Audience.member?_add_of_ne hne).symm.trans ho')
  · rw [hj] at hseat ⊢
    exact ⟨rfl, rfl, hseat, ⟨_, rfl⟩, rfl⟩
  · rw [hj]
    have hnone : ((d.audience.journal r.journal).startSession ⟨d.sessions, [root]⟩
        (d.forest.closure [root])).records = [] := rfl
    refine ⟨⟨List.nodup_nil, by simp [hnone]⟩, by simp [hnone],
      fun n p s _ hs => .inr ⟨?_, s, by rw [hforest]; exact hs, .refl s⟩⟩
    simp [Journal.allEarliest, hnone]

/-- Reducing writes the journal and nothing else. -/
theorem Recording.reduce_frame : ∃ a, (r.reduce d).2 = { d with audience := a } := by
  unfold Recording.reduce
  rw [Recording.read_bind]
  split_ifs
  · exact ⟨d.audience, rfl⟩
  · exact ⟨_, rfl⟩

theorem Recording.reduceRunning_frame : ∃ a, (r.reduceRunning d).2 = { d with audience := a } := by
  unfold Recording.reduceRunning
  rw [Recording.read_bind]
  split_ifs
  · exact ⟨d.audience, rfl⟩
  · exact Recording.reduce_frame

theorem Recording.Logged.sound (h : r.Logged d₁ d) (hf : d₁.forest.Sound True)
    (ho : d₁.forest.schema.OwningMembers) : d.forest.Sound True ∧
      d.forest.schema = d₁.forest.schema ∧
      (∀ n t, d₁.forest.typeOf n = .ok t → d.forest.typeOf n = .ok t) ∧
      ∃ l, d.history = d₁.history ++ l := by
  induction h with
  | start => exact ⟨hf, rfl, fun _ _ => id, [], (List.append_nil _).symm⟩
  | edit d m _ ih =>
    obtain ⟨hd, hs, ht, l, hl⟩ := ih
    have hchain := m.chain hd fun _ _ => m.not_overlooks hd.toTyped (by rw [hs]; exact ho)
    obtain ⟨l', hl'⟩ := hchain.history_le
    exact ⟨hchain.sound hd, hchain.schema.trans hs, fun n t h => hchain.typeOf (ht n t h),
      l ++ l', by rw [hl', hl, List.append_assoc]⟩
  | reduce d _ ih =>
    obtain ⟨a, ha⟩ := Recording.reduceRunning_frame (r := r) (d := d)
    rw [ha]
    exact ih

/-- **The session logs for as long as it runs.** -/
theorem Recording.Logged.logs {l : List Announcement} (h : r.Logged d₁ d)
    (h₁ : r.Logs o f₀ root d₁) (ho : d₁.forest.schema.OwningMembers)
    (hl : d.history = d₁.history ++ l)
    (hin : ∀ a ∈ l, a.WritesInside f₀ root) :
    r.Logs o f₀ root d := by
  induction h generalizing l with
  | start => exact h₁
  | edit d m h ih =>
    obtain ⟨hd, hs, -, l₁, hl₁⟩ := h.sound h₁.follows.sound ho
    have hchain := m.chain hd fun _ _ => m.not_overlooks hd.toTyped (by rw [hs]; exact ho)
    obtain ⟨l₂, hl₂⟩ := hchain.history_le
    obtain rfl := Document.history_append hl₁ hl₂ hl
    rw [List.forall_mem_append] at hin
    exact hchain.logs (ih hl₁ hin.1) hl₂ hin.2
  | reduce d h ih =>
    obtain ⟨a, ha⟩ := Recording.reduceRunning_frame (r := r) (d := d)
    refine (ih ?_ hin).reduceRunning
    rw [← hl, ha]

end TrackedGraph
