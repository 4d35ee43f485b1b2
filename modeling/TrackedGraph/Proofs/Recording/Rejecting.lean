/-
What a rejected edit leaves in a journal.

Where an edit fails the forest is as it was, but the journal need not be. The children that the
edit takes in are released before somebody rejects it, and put back after that; both are changes
like any other, and a recorder that is told of them records them. So the journal answers as
before exactly if it would note nothing new of the changes that it was told of
(`Journal.Knows`): it recalls a state of the property already, and the children that come back
in were there from the start or have entered before. Which nodes count as deleted does not
depend on this. A child that was released and put back is where it was.
-/
import TrackedGraph.Proofs.Document.Failing
import TrackedGraph.Proofs.Recording.Steady

set_option autoImplicit false

namespace TrackedGraph

variable {τ : Type} {d d' d₀ : Document τ} {o : ObserverId} {n c : NodeId} {N : Notice}
  {r : Recording} {j j' : Journal} {f : Forest} {x : PriorState} {q : Tracking.Plan}
  {a : Announcement} {l l' : List Announcement} {rs t : List PriorState} {schema : Schema}
  {records : List (NodeId × List PriorState)}

/-! ## What a journal makes of changes -/

namespace Journal

/-- More states expand to more. -/
theorem expand_append_ne (ht : t ≠ []) (h : ∃ view, expand f n (rs ++ t) = .ok view) :
    expand f n rs ≠ expand f n (rs ++ t) := by
  intro heq
  obtain ⟨view, hview⟩ := h
  rw [hview] at heq
  simp only [expand, bind_eq_ok, pure_eq_ok, Except.ok.injEq] at heq hview
  obtain ⟨u, hu, features, hfeatures, ms, hms, rfl⟩ := heq
  obtain ⟨u', hu', features', hfeatures', ms', hms', hlist⟩ := hview
  obtain rfl := ok_unique hu hu'
  obtain rfl := ok_unique hfeatures hfeatures'
  rw [List.mapM_append, hms] at hms'
  simp only [bind_ok, bind_eq_ok, pure_eq_ok, Except.ok.injEq] at hms'
  obtain ⟨mt, -, rfl⟩ := hms'
  have hlength := congrArg List.length hlist
  simp only [List.length_append, List.flatten_append] at hlength
  have := List.length_pos_of_ne_nil ht
  omega

/-- **What has become of a journal** that was told of changes. -/
structure Noted (j : Journal) (l : List Announcement) (j' : Journal) : Prop where
  same : j.SameSession j'
  indexed : Indexed j'.records
  left : ∀ c, c ∈ j'.left ↔ c ∈ j.left ∨ ∃ a ∈ l, c ∈ a.leaving
  entered : ∀ c, c ∈ j'.entered ↔ c ∈ j.entered ∨ ∃ a ∈ l, c ∈ a.entering
  recalls : ∀ a ∈ l, ∃ x ∈ j'.allEarliest, x.node = a.notice.node ∧ x.property = a.notice.property
  grows : ∀ n, ∃ t, j'.earliestOf n = j.earliestOf n ++ t
  known : (∀ a ∈ l, ∃ x ∈ j.allEarliest, x.node = a.notice.node ∧
    x.property = a.notice.property) → j'.allEarliest = j.allEarliest

theorem Noted.nothing (h : Indexed j.records) : j.Noted [] j where
  same := .refl j
  indexed := h
  left := by simp
  entered := by simp
  recalls := by simp
  grows := fun n => ⟨[], (List.append_nil _).symm⟩
  known := fun _ => rfl

/-- One more change, planned in the forest that it is announced in. -/
theorem Noted.record {strict : Bool} (h : j.Noted l j') (hj : j.suspended = false)
    (hq : Tracking.plan strict a.forest a.notice = .ok q) :
    j.Noted (l ++ [a]) (Tracking.record a.notice q j') := by
  have hj' := h.same.2.1.trans hj
  obtain ⟨hsame, hr⟩ := record_plan (N := a.notice) (q := q) hj'
  have htook := took_record (N := a.notice) (q := q) hj'
  have hmove := (Tracking.plan_eq_ok hq).1
  have hmem : ∀ x, x ∈ (Tracking.record a.notice q j').allEarliest ↔ x ∈ j'.allEarliest ∨
      x = ⟨a.notice.node, a.notice.property, q.prior.value, q.prior.isSet⟩ ∧
        ∀ y ∈ j'.allEarliest, ¬ y.SameSlot x := by
    intro x
    rw [mem_allEarliest_append h.indexed hr]
    exact or_congr_right (and_congr_right fun hx => by rw [hx])
  have hlast : ∀ {P : Announcement → Prop}, (∃ b ∈ l ++ [a], P b) ↔ (∃ b ∈ l, P b) ∨ P a := by
    intro P
    simp [or_and_right, exists_or]
  refine ⟨h.same.trans hsame, by rw [hr]; exact h.indexed.append _, fun c => ?_, fun c => ?_,
    fun b hb => ?_, fun n => ?_, fun hall => ?_⟩
  · rw [htook.left, h.left, hlast, Announcement.leaving_eq hmove, or_assoc]
  · rw [htook.entered, h.entered, hlast, Announcement.entering_eq hmove, or_assoc]
  · rcases List.mem_append.mp hb with hb | hb
    · obtain ⟨x, hx, hxb⟩ := h.recalls b hb
      exact ⟨x, (hmem x).mpr (.inl hx), hxb⟩
    · -- A state of the slot is among those recorded before, or the new one is.
      obtain rfl := List.mem_singleton.mp hb
      by_cases hold : ∃ y ∈ j'.allEarliest, y.node = b.notice.node ∧ y.property = b.notice.property
      · obtain ⟨y, hy, hyb⟩ := hold
        exact ⟨y, (hmem y).mpr (.inl hy), hyb⟩
      · simp only [not_exists, not_and] at hold
        exact ⟨_, (hmem _).mpr (.inr ⟨rfl, fun y hy hsame => hold y hy hsame.1 hsame.2⟩), rfl, rfl⟩
  · obtain ⟨t, ht⟩ := h.grows n
    obtain ⟨t', ht'⟩ := earliestOf_append hr n
    exact ⟨t ++ t', by rw [ht', ht, List.append_assoc]⟩
  · -- A change that is known adds no first state.
    have hold := h.known fun b hb => hall b (List.mem_append_left _ hb)
    obtain ⟨y, hy, hya⟩ := hall a (List.mem_append_right _ (List.mem_singleton_self _))
    rw [← hold] at hy ⊢
    rw [allEarliest_eq, hr]
    exact recalled_append_of_known h.indexed ⟨y, hy, hya⟩

/-- The journal would note nothing new of a change: it recalls a state of the property, and of
the children that enter none counts as created for it. -/
structure Knows (j : Journal) (a : Announcement) : Prop where
  state : ∃ x ∈ j.allEarliest, x.node = a.notice.node ∧ x.property = a.notice.property
  entering : ∀ c ∈ a.entering, c ∈ j.initial ∨ c ∈ j.entered

/-- What is created after the changes. -/
theorem Noted.isCreated_iff (h : j.Noted l j') : j'.isCreated n = true ↔
    j.isCreated n = true ∨ (∃ a ∈ l, n ∈ a.entering) ∧ n ∉ j.initial := by
  have hinitial : j'.initial = j.initial := h.same.2.2.2.2
  simp only [isCreated, wasInitial, Bool.and_eq_true, List.contains_iff_mem, Bool.not_eq_true',
    Bool.eq_false_iff, ne_eq, hinitial, h.entered]
  tauto

theorem isEmpty_recordsOf : (j.recordsOf n).isEmpty = (j.earliestOf n).isEmpty := by
  unfold earliestOf
  cases j.recordsOf n <;> rfl

/-- First states expand where they are of properties that exist. -/
theorem expand_ok (hn : ∀ x ∈ rs, x.node = n) (hx : ∀ x ∈ rs, f.Recordable x) (hne : rs ≠ []) :
    ∃ view, expand f n rs = .ok view := by
  have hfeature : ∀ x ∈ rs, ∃ g, f.feature n x.property = .ok g := by
    intro x hxr
    obtain ⟨g, hg, -⟩ := hx x hxr
    rw [hn x hxr] at hg
    exact ⟨g, hg⟩
  obtain ⟨x, hxr⟩ := List.exists_mem_of_ne_nil rs hne
  obtain ⟨g, hg⟩ := hfeature x hxr
  obtain ⟨u, hu, hgu⟩ := Forest.feature_eq_ok.mp hg
  obtain ⟨type, htype, -⟩ := Schema.feature_eq_ok.mp hgu
  have hfeatures := Schema.features_eq_ok.mpr ⟨type, htype, rfl⟩
  -- The members are looked up in the features of the one node that all records are of.
  obtain ⟨ms, hms⟩ : ∃ ms, rs.mapM (fun r => do
      let feature ← f.schema.feature u r.property
      return if feature.isMixed then memberStates type.features r else [] :
        PriorState → Except Fault (List PriorState)) = .ok ms := by
    refine exists_mapM_eq_ok fun y hy => ?_
    obtain ⟨h, hh⟩ := hfeature y hy
    obtain ⟨u', hu', hhu⟩ := Forest.feature_eq_ok.mp hh
    obtain rfl := ok_unique hu hu'
    rw [hhu]
    exact ⟨_, rfl⟩
  refine ⟨rs ++ ms.flatten, ?_⟩
  unfold expand
  rw [hu, bind_ok, hfeatures, bind_ok, hms]
  rfl

/-- What is recalled of a node is the expansion of its first states, also if there are none. -/
theorem recollect_eq_expand (h : ∃ view, expand f n (j.earliestOf n ++ t) = .ok view) :
    j.recollect f n = expand f n (j.earliestOf n) := by
  unfold recollect
  cases hrs : j.earliestOf n with
  | nil =>
    obtain ⟨view, hview⟩ := h
    simp only [expand, bind_eq_ok] at hview
    obtain ⟨u, hu, features, hfeatures, -⟩ := hview
    simp only [expand, hu, hfeatures, bind_ok]
    rfl
  | cons x rs => rfl

/-- **The answers stay the same** exactly if the journal knows the changes that it was told of,
provided that the same nodes count as deleted. -/
theorem Noted.computed_iff (h : j.Noted l j') (hi : Indexed j.records)
    (hx : ∀ x ∈ j'.allEarliest, f.Recordable x)
    (hdeleted : ∀ n, (findDeleted f j').contains n = (findDeleted f j).contains n) :
    (∀ n, j'.computed f n = j.computed f n) ↔ ∀ a ∈ l, j.Knows a := by
  constructor
  · intro hall a ha
    refine ⟨?_, fun c hc => ?_⟩
    · obtain ⟨x, hxj, hxn, hxp⟩ := h.recalls a ha
      generalize a.notice.node = n at hxn ⊢
      have hx' : x ∈ j'.earliestOf n := h.indexed.mem_earliestOf.mpr ⟨hxj, hxn⟩
      obtain ⟨t, ht⟩ := h.grows n
      by_cases hnil : t = []
      · rw [ht, hnil, List.append_nil] at hx'
        exact ⟨x, (hi.mem_earliestOf.mp hx').1, hxn, hxp⟩
      · -- One more state would show in the answer.
        have hok : ∃ view, expand f n (j.earliestOf n ++ t) = .ok view := by
          rw [← ht]
          exact expand_ok (fun y hy => (h.indexed.mem_earliestOf.mp hy).2)
            (fun y hy => hx y (h.indexed.mem_earliestOf.mp hy).1) (List.ne_nil_of_mem hx')
        have hok' : ∃ view, expand f n (j'.earliestOf n ++ []) = .ok view := by
          rw [List.append_nil, ht]
          exact hok
        have hstates : j'.recollect f n = j.recollect f n := congrArg Answers.states (hall n)
        rw [recollect_eq_expand hok, recollect_eq_expand hok', ht] at hstates
        exact absurd hstates.symm (expand_append_ne hnil hok)
    · have hcreated : j'.isCreated c = j.isCreated c := congrArg Answers.created (hall c)
      by_contra hnot
      rw [not_or] at hnot
      have hnew := h.isCreated_iff.mpr (.inr ⟨⟨a, ha, hc⟩, hnot.1⟩)
      rw [hcreated, isCreated, Bool.and_eq_true, List.contains_iff_mem] at hnew
      exact hnot.2 hnew.1
  · -- What is known adds no first state and no created node, and these make up all answers.
    intro hknows n
    have hall := h.known fun a ha => (hknows a ha).state
    have hearliest : ∀ n, j'.earliestOf n = j.earliestOf n := fun n => by
      rw [h.indexed.earliestOf_eq, hi.earliestOf_eq, hall]
    have hcreated : j'.isCreated n = j.isCreated n := by
      rw [Bool.eq_iff_iff, h.isCreated_iff]
      refine or_iff_left_of_imp ?_
      rintro ⟨⟨a, ha, hn⟩, hout⟩
      rcases (hknows a ha).entering n hn with hin | hin
      · exact absurd hin hout
      · simp only [isCreated, wasInitial, Bool.and_eq_true, List.contains_iff_mem,
          Bool.not_eq_true', Bool.eq_false_iff, ne_eq]
        exact ⟨hin, hout⟩
    have hplaces : findPriorPlaces f j' = findPriorPlaces f j := by
      unfold findPriorPlaces
      rw [hall]
    unfold computed recollect
    rw [hcreated, hdeleted, isEmpty_recordsOf, isEmpty_recordsOf, hearliest, hplaces]

end Journal

/-! ## The changes that a recorder is told of -/

/-- Whether a node is heard of after a change that the recorder is told of. -/
def Announcement.followed (heard : NodeId → Bool) (a : Announcement) (n : NodeId) : Bool :=
  heard n && !(a.leaving.flatMap a.forest.contents).contains n ||
    (a.entering.flatMap a.forest.contents).contains n

/-- What is heard of after one more change, and the changes told of by then. -/
def Announcement.reach (s : (NodeId → Bool) × List Announcement) (a : Announcement) :
    (NodeId → Bool) × List Announcement :=
  if s.1 a.notice.node then (a.followed s.1, s.2 ++ [a]) else s

/-- **The changes that the recorder is told of**, out of those that are announced. -/
def Recording.told (r : Recording) (d : Document τ) (l : List Announcement) : List Announcement :=
  (l.foldl Announcement.reach (r.heard d, [])).2

theorem Recording.mem_of_mem_told (r : Recording) (h : a ∈ r.told d l) : a ∈ l := by
  suffices hfold : ∀ (l : List Announcement) s, a ∈ (l.foldl Announcement.reach s).2 →
      a ∈ s.2 ∨ a ∈ l from (hfold l _ h).resolve_left List.not_mem_nil
  intro l
  induction l with
  | nil => exact fun s hs => .inl hs
  | cons b l ih =>
    intro s hs
    rcases ih _ hs with hs | hs
    · unfold Announcement.reach at hs
      split_ifs at hs
      · rcases List.mem_append.mp hs with hs | hs
        · exact .inl hs
        · exact .inr (List.mem_singleton.mp hs ▸ List.mem_cons_self)
      · exact .inl hs
    · exact .inr (List.mem_cons_of_mem _ hs)

/-- What a recording has made of the changes that were announced since. -/
structure Recording.Kept (r : Recording) (d : Document τ) (l : List Announcement)
    (d' : Document τ) : Prop where
  steady : r.Steady d'
  heard : r.heard d' = (l.foldl Announcement.reach (r.heard d, [])).1
  suspended : (d.audience.journal r.journal).suspended = true →
    d'.audience.journal r.journal = d.audience.journal r.journal
  noted : (d.audience.journal r.journal).suspended = false →
    (d.audience.journal r.journal).Noted (r.told d l) (d'.audience.journal r.journal)
  /-- The changes were of nodes within the roots, and took out children of theirs. -/
  within : ∀ a ∈ r.told d l, (∃ root ∈ (d.audience.journal r.journal).roots,
    a.forest.Within a.notice.node root) ∧ ∀ c ∈ a.leaving, a.forest.Under c a.notice.node

namespace Recording

theorem heard_congr (hrec : (d'.audience.journal r.journal).recording =
      (d.audience.journal r.journal).recording)
    (hseat : (d'.audience.journal r.journal).seat = (d.audience.journal r.journal).seat)
    (hs : ∀ o n, d'.Hears o n ↔ d.Hears o n) : r.heard d' = r.heard d := by
  have hhas : ∀ o n, d'.audience.subscriptions.has o n = d.audience.subscriptions.has o n :=
    fun o n => Bool.eq_iff_iff.mpr (hs o n)
  funext n
  simp only [heard, hrec, hseat, hhas]

theorem Kept.nothing (hd : r.Steady d) : r.Kept d [] d where
  steady := hd
  heard := rfl
  suspended := fun _ => rfl
  noted := fun _ => .nothing hd.journal.indexed
  within := fun _ ha => absurd ha List.not_mem_nil

/-- A step that announces nothing, or whose change is refused. -/
theorem Kept.quiet {d₁ : Document τ} (h : r.Kept d l d₁) (hd' : r.Steady d')
    (hj : d'.audience.journal r.journal = d₁.audience.journal r.journal)
    (hs : ∀ o n, d'.Hears o n ↔ d₁.Hears o n) : r.Kept d l d' := by
  refine ⟨hd', (heard_congr (by rw [hj]) (by rw [hj]) hs).trans h.heard, fun hj' => ?_,
    fun hj' => ?_, h.within⟩
  · rw [hj]
    exact h.suspended hj'
  · rw [hj]
    exact h.noted hj'

/-- The roots of the session stay the same. -/
theorem Kept.roots_eq {d₁ : Document τ} (h : r.Kept d l d₁) :
    (d₁.audience.journal r.journal).roots = (d.audience.journal r.journal).roots := by
  cases hj : (d.audience.journal r.journal).suspended with
  | true => rw [h.suspended hj]
  | false => exact (h.noted hj).same.roots_eq

/-- **A change that is accepted** reaches the journal if its node is heard of. -/
theorem Kept.announced {d₁ : Document τ} (hd : r.Kept d l d₁)
    (h : (Edit.announce N d₁).1 = .ok ()) (hd' : r.Steady d')
    (ha : d'.audience = (Edit.announce N d₁).2.audience)
    (hleaving : ∀ c ∈ (Announcement.mk N d₁.forest).leaving, d₁.forest.Under c N.node) :
    r.Kept d (l ++ [⟨N, d₁.forest⟩]) d' := by
  have hheard' : r.heard d' = r.heard (Edit.announce N d₁).2 :=
    heard_congr (by rw [ha]) (by rw [ha]) fun o n => by unfold Document.Hears; rw [ha]
  have hfold : (l ++ [Announcement.mk N d₁.forest]).foldl Announcement.reach (r.heard d, []) =
      Announcement.reach (l.foldl Announcement.reach (r.heard d, [])) ⟨N, d₁.forest⟩ := by
    rw [List.foldl_append]
    rfl
  rcases hd.steady.tuned.announced h with ⟨q, hn, hq, hj, hhears⟩ | ⟨hn, hj, hhears⟩
  · have hreach : (l ++ [Announcement.mk N d₁.forest]).foldl Announcement.reach (r.heard d, []) =
        (Announcement.followed (r.heard d₁) ⟨N, d₁.forest⟩, r.told d l ++ [⟨N, d₁.forest⟩]) := by
      rw [hfold, Announcement.reach, ← hd.heard, if_pos hn]
      rfl
    have htold : r.told d (l ++ [⟨N, d₁.forest⟩]) = r.told d l ++ [⟨N, d₁.forest⟩] :=
      congrArg Prod.snd hreach
    have hmove := (Tracking.plan_eq_ok hq).1
    refine ⟨hd', ?_, fun hs => ?_, fun hs => ?_, ?_⟩
    · rw [hreach, hheard']
      funext m
      rw [Bool.eq_iff_iff, hhears m]
      simp only [Announcement.followed, Announcement.leaving_eq (a := ⟨N, d₁.forest⟩) hmove,
        Announcement.entering_eq (a := ⟨N, d₁.forest⟩) hmove, Bool.or_eq_true, Bool.and_eq_true,
        Bool.not_eq_true', Bool.eq_false_iff, ne_eq, List.contains_iff_mem]
    · rw [ha, hj, hd.suspended hs, Tracking.record, if_pos hs]
    · rw [ha, hj, htold]
      exact (hd.noted hs).record (a := ⟨N, d₁.forest⟩) hs hq
    · rw [htold]
      intro a hmem
      rcases List.mem_append.mp hmem with hmem | hmem
      · exact hd.within a hmem
      · obtain rfl := List.mem_singleton.mp hmem
        refine ⟨?_, hleaving⟩
        -- What is heard of is below a root that is heard of.
        have hrec : (d₁.audience.journal r.journal).recording = true := by
          by_contra hidle
          rw [heard_of_idle (Bool.eq_false_iff.mpr hidle)] at hn
          exact absurd hn (by simp)
        obtain ⟨o, hseat, hfollows⟩ := hd.steady.running hrec
        obtain ⟨root, hroot, -, hwithin⟩ :=
          hfollows.tracks.up _ ((heard_of_running hrec hseat).mp hn)
        rw [hd.roots_eq] at hroot
        exact ⟨root, hroot, hwithin⟩
  · have hreach : (l ++ [Announcement.mk N d₁.forest]).foldl Announcement.reach (r.heard d, []) =
        l.foldl Announcement.reach (r.heard d, []) := by
      rw [hfold, Announcement.reach, ← hd.heard, if_neg (by simp [hn])]
    have htold : r.told d (l ++ [⟨N, d₁.forest⟩]) = r.told d l := congrArg Prod.snd hreach
    refine ⟨hd', ?_, fun hs => ?_, fun hs => ?_, by rw [htold]; exact hd.within⟩
    · rw [hreach, hheard', ← hd.heard]
      exact funext hhears
    · rw [ha, hj]
      exact hd.suspended hs
    · rw [ha, hj, htold]
      exact hd.noted hs

end Recording

/-- **A step of an edit.** -/
theorem Step.kept {d₁ : Document τ} (h : Step True d₁ d') (hd : r.Kept d l d₁)
    (hl : d'.history = d₁.history ++ l') : r.Kept d (l ++ l') d' := by
  have hd' := h.steady hd.steady
  cases h with
  | asked N =>
    obtain rfl := Document.history_same hl (history_poll N)
    rw [List.append_nil]
    exact hd.quiet hd' journal_poll fun _ _ => hears_poll
  | refused N e h =>
    obtain rfl := Document.history_same hl (history_announce_error h)
    rw [List.append_nil]
    exact hd.quiet hd' (journal_refused h) fun _ _ => hears_refused h
  | created t n f h =>
    obtain rfl := Document.history_same hl rfl
    rw [List.append_nil]
    exact hd.quiet hd' rfl fun _ _ => Iff.rfl
  | counted k =>
    obtain rfl := Document.history_same hl rfl
    rw [List.append_nil]
    exact hd.quiet hd' rfl fun _ _ => Iff.rfl
  | unwritten N g h hn hg ho hm =>
    obtain rfl := Document.history_announced hl h rfl
    refine hd.announced h hd' rfl fun c hc => ?_
    rw [Announcement.leaving_eq (a := ⟨N, d₁.forest⟩) hm] at hc
    exact absurd hc List.not_mem_nil
  | changed N g old new freed taken h hc hw hm =>
    obtain rfl := Document.history_announced hl h rfl
    refine hd.announced h hd' rfl fun c hc => ?_
    obtain ⟨leaving, entering, hmove, hfreed, -⟩ := hm trivial
    -- Those who leave are freed by the write, so they sat under the node.
    rw [Announcement.leaving_eq (a := ⟨N, d₁.forest⟩) hmove] at hc
    exact hw.under_of_freed hd.steady.sound ((hfreed c).mp hc)

theorem Chain.kept (h : Chain True d d') (hd : r.Steady d) (hl : d'.history = d.history ++ l) :
    r.Kept d l d' := by
  exact Chain.history_induction (P := fun l d' => r.Kept d l d') h hl (.nothing hd)
    fun _ _ _ _ _ hs hl₂ ih => hs.kept ih hl₂

/-! ## Edits that fail -/

/-- Mixed content that mentions owned nodes only mentions none of them twice. -/
theorem Forest.Sound.not_doubled {f : Forest} (hf : f.Sound True) (ho : f.schema.OwningMembers) :
    ¬ f.Doubled n := by
  rintro ⟨host, q, k, mixed, entries, hplace, hk, howner, hes, e, he, hn, hne⟩
  obtain ⟨s, hs, hv⟩ := Forest.sequence_eq_ok.mp hes
  obtain ⟨g, hg, hx⟩ := hf.toTyped.shaped.exists_mixed hk howner
  have hentries : e ∈ s.value.entries := by
    rw [hv]
    exact he
  have hclaim := hf.toTyped.mem_claims_of_entry ho hg hx hs hentries hn
  have := (hf.linked trivial).placed _ _ s _ _ hs hclaim
  rw [hplace, Option.some.injEq, Place.mk.injEq] at this
  exact hne this.2.symm

/-- **An edit that fails leaves the forest as it was**, as long as nobody refuses to have
children back. -/
theorem Recording.Steady.failed_forest {m : Mutation} {e : Fault} (hd : r.Steady d)
    (he : (m.run d).1 = .error e) (hr : (m.run d).2.repairRefusals = d.repairRefusals) :
    (m.run d).2.forest = d.forest :=
  (m.restored hd.sound ⟨e, he⟩ hr).resolve_right fun ⟨_, _, hdoubled, _⟩ =>
    hd.sound.not_doubled hd.owning hdoubled

/-- **The same nodes count as deleted.** The children that were taken out, and those that came
back in, are where they were, within the roots. -/
theorem Recording.Kept.deleted (h : r.Kept d l d') (hd : r.Steady d)
    (hin : ∀ a ∈ l, a.forest.PlacedIn d.forest ∧ ∀ c ∈ a.entering, d.forest.Under c a.notice.node)
    (hs : (d.audience.journal r.journal).suspended = false) :
    (Journal.findDeleted d.forest (d'.audience.journal r.journal)).contains n =
      (Journal.findDeleted d.forest (d.audience.journal r.journal)).contains n := by
  have hnoted := h.noted hs
  -- Whatever the changes moved is within the roots.
  have hback : ∀ a ∈ r.told d l, ∀ c, c ∈ a.leaving ∨ c ∈ a.entering →
      ∃ root ∈ (d.audience.journal r.journal).roots, d.forest.Within c root := by
    intro a ha c hc
    obtain ⟨⟨root, hroot, hwithin⟩, hleaving⟩ := h.within a ha
    obtain ⟨hplaced, hentering⟩ := hin a (r.mem_of_mem_told ha)
    have hunder : d.forest.Under c a.notice.node :=
      hc.elim (fun hc => hplaced.under (hleaving c hc)) (hentering c)
    exact ⟨root, hroot, .head hunder (hplaced.within hwithin)⟩
  rw [Bool.eq_iff_iff, List.contains_iff_mem, List.contains_iff_mem,
    Journal.mem_findDeleted hd.sound, Journal.mem_findDeleted hd.sound, h.roots_eq]
  refine and_congr_left fun hout => exists_congr fun c => and_congr_left fun ⟨_, hnc⟩ => ?_
  rw [hnoted.left, hnoted.entered]
  constructor
  · rintro ((hold | ⟨a, ha, hc⟩) | hold | ⟨a, ha, hc⟩)
    · exact .inl hold
    · obtain ⟨root, hroot, hwithin⟩ := hback a ha c (.inl hc)
      exact absurd (hnc.trans hwithin) (hout root hroot)
    · exact .inr hold
    · obtain ⟨root, hroot, hwithin⟩ := hback a ha c (.inr hc)
      exact absurd (hnc.trans hwithin) (hout root hroot)
  · exact Or.imp .inl .inl

/-- **What a failed edit leaves in a journal.** The forest is as it was, the same nodes count as
deleted, and the journal answers as before exactly if it knew the changes that its recorder was
told of. -/
theorem Recording.Among.answers_of_failed {declarations : List TypeDeclaration} {m : Mutation}
    {e : Fault} (hb : Schema.build declarations = .ok schema) (hn : schema.NullContainment)
    (hp : schema.PlainDefaults) (ho : schema.OwningMembers)
    (h₀ : d₀.Reachable schema fun _ _ => True) (hfresh : r.Fresh d₀) (h : r.Among d₀ d)
    (he : (m.run d).1 = .error e) (hr : (m.run d).2.repairRefusals = d.repairRefusals) :
    let d' := (m.run d).2
    let j := d.audience.journal r.journal
    let j' := d'.audience.journal r.journal
    d'.forest = d.forest ∧
      (∀ n, (j'.answers d'.forest d'.generation n).deleted =
        (j.answers d.forest d.generation n).deleted) ∧
      ((∀ n, j'.answers d'.forest d'.generation n = j.answers d.forest d.generation n) ↔
        j.suspended = true ∨ ∀ a ∈ r.told d (d'.history.drop d.history.length), j.Knows a) := by
  intro d' j j'
  obtain ⟨hf₀, ho₀⟩ := h₀.sound_of_owning hb hn hp ho
  have hd : r.Steady d := h.steady (hfresh.steady hf₀ ho₀)
  have hforest : d'.forest = d.forest := hd.failed_forest he hr
  obtain ⟨-, l, hl, hin⟩ := m.inside hd.sound e he
  have hkept : r.Kept d l d' := (hd.chain m).kept hd hl
  have hdrop : d'.history.drop d.history.length = l := by
    rw [show d'.history = d.history ++ l from hl, List.drop_left]
  have hanswers : ∀ n, j.answers d.forest d.generation n = j.computed d.forest n :=
    fun n => hd.journal.answers_eq
  have hanswers' : ∀ n, j'.answers d'.forest d'.generation n = j'.computed d.forest n :=
    fun n => by rw [← hforest]; exact hkept.steady.journal.answers_eq
  simp only [hanswers, hanswers', hdrop]
  cases hs : j.suspended with
  | true =>
    have hj : j' = j := hkept.suspended hs
    rw [hj]
    exact ⟨hforest, fun _ => rfl, fun _ => .inl rfl, fun _ _ => rfl⟩
  | false =>
    have hdeleted := fun n => hkept.deleted (n := n) hd hin hs
    refine ⟨hforest, hdeleted, ?_⟩
    -- The forest is as it was, so both journals are asked about the same one.
    have hx : ∀ x ∈ j'.allEarliest, d.forest.Recordable x := by
      rw [← hforest]
      exact fun x hx => hkept.steady.journal.of_allEarliest hx
    rw [(hkept.noted hs).computed_iff hd.journal.indexed hx hdeleted]
    exact (or_iff_right (by simp)).symm

/-- An outline of three entries, the second below the first. -/
def Outline.loose : Document Nat :=
  ({ forest := blank.forest, root := ⟨0⟩, audience := { memory := 0 } } : Document Nat).after
    [.create "Entry", .create "Entry", .add ⟨0⟩ entries (.node ⟨1⟩)]

/-- The gate watches the third entry. -/
def Outline.gated : Document Nat :=
  { loose with audience := {
      seats := [some (.observer Notebook.gate)]
      subscriptions := ⟨[(⟨2⟩, ⟨0⟩)]⟩
      journals := [{}]
      memory := 0 } }

theorem Outline.gated_reachable : gated.Reachable Outline.schema fun _ _ => True := by
  have hloose : loose.Reachable Outline.schema fun _ _ => True :=
    .edit _ _ (.edit _ _ (.edit _ _ (.new "Entry" 0 _ rfl) trivial) trivial) trivial
  exact .other _ _ hloose rfl rfl

theorem Outline.gated_fresh : recording.Fresh gated where
  stored := by decide
  journal := rfl
  alone := by
    rintro ⟨i⟩ s
    match i with
    | 0 => exact fun h => by cases h
    | i + 1 => exact fun h => by cases h
  once := by decide
  tidy := by
    rintro ⟨i⟩ n ho hears
    simp only [gated, Document.Hears, Subscriptions.has, List.contains_iff_mem,
      List.mem_singleton, Prod.mk.injEq, ObserverId.mk.injEq] at hears
    obtain ⟨-, rfl⟩ := hears
    exact absurd ho (by simp [gated, Audience.member?])

/-- A session is started on the outline. -/
def Outline.guarded : Document Nat := (recording.perform .start gated).2

/-- An entry that is to move is released before the gate refuses it, and put back. The recorder
of the session was told of both, and the journal was empty before. -/
theorem Recording.Among.answers_of_failed_gate :
    let m : Mutation := .add ⟨2⟩ Outline.entries (.node ⟨1⟩)
    let d' := (m.run Outline.guarded).2
    d'.forest = Outline.guarded.forest ∧
      ¬ ∀ n, (d'.audience.journal Outline.recording.journal).answers d'.forest d'.generation n =
        (Outline.guarded.audience.journal Outline.recording.journal).answers
          Outline.guarded.forest Outline.guarded.generation n := by
  intro m d'
  obtain ⟨e, he⟩ : ∃ e, (m.run Outline.guarded).1 = .error e :=
    toOption_isNone_iff.mp (by decide +kernel)
  have hquiet : (m.run Outline.guarded).2.repairRefusals = Outline.guarded.repairRefusals := by
    decide +kernel
  have hamong : Outline.recording.Among Outline.gated Outline.guarded := .call _ .start .start
  obtain ⟨hforest, -, hiff⟩ := Recording.Among.answers_of_failed Outline.build_types (by decide)
    (by decide) (by decide) Outline.gated_reachable Outline.gated_fresh hamong he hquiet
  refine ⟨hforest, fun hall => ?_⟩
  have hrunning : (Outline.guarded.audience.journal 0).suspended = false := by decide +kernel
  have hempty : (Outline.guarded.audience.journal 0).allEarliest = [] := by decide +kernel
  have htold : 0 < (Outline.recording.told Outline.guarded ((m.run Outline.guarded).2.history.drop
      Outline.guarded.history.length)).length := by decide +kernel
  rcases hiff.mp hall with hsuspended | hknows
  · exact absurd (hrunning.symm.trans hsuspended) (by simp)
  · obtain ⟨a, ha⟩ := List.exists_mem_of_length_pos htold
    obtain ⟨x, hx, -⟩ := (hknows a ha).state
    rw [show (Outline.guarded.audience.journal Outline.recording.journal).allEarliest = []
      from hempty] at hx
    exact absurd hx List.not_mem_nil

end TrackedGraph
