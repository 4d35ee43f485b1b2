/-
A journal that can be relied on.

The states that it holds are ones that their properties could be in, the nodes that it has noted
exist, and what it remembers of earlier questions is what would be computed now
(`Journal.Reliable`). Then its answers about a node do not depend on what was asked before: they
are computed from its records, from the nodes that it has noted and from the forest
(`Reliable.answers_eq`). Whatever raises the revision lets go of all that is remembered, so of
the conditions only those on states and nodes have to be shown again (`Aged.reliable`). Edits
leave every journal of a document one that can be relied on (`Step.reliable`): a change that the
journal is not told of raises the generation, and a node that was just created is in no view.
-/
import TrackedGraph.Proofs.Journal.Views

set_option autoImplicit false

namespace TrackedGraph

variable {f f' : Forest} {n : NodeId} {x : PriorState} {j j' : Journal} {N : Notice}
  {q : Tracking.Plan} {generation generation' : Nat} {prune : Bool}

namespace Journal

/-! ## What is answered, and what is computed -/

/-- All that a journal answers about one node. -/
structure Answers where
  created : Bool
  deleted : Bool
  modified : Bool
  states : Except Fault (List PriorState)
  place : Except Fault (Option Place)

/-- **The answers of a journal** about a node, with memos where there are any. -/
def answers (j : Journal) (f : Forest) (generation : Nat) (n : NodeId) : Answers where
  created := j.isCreated n
  deleted := (j.isDeleted f generation n).1
  modified := (j.isModified f generation n).1
  states := (j.priorStates f n).1
  place := (j.priorPlace f generation n).1

/-- The prior states of a node, without a memo. -/
def recollect (j : Journal) (f : Forest) (n : NodeId) : Except Fault (List PriorState) :=
  match j.earliestOf n with
  | [] => .ok []
  | rs => expand f n rs

/-- **The answers as they are computed**, without any memo. -/
def computed (j : Journal) (f : Forest) (n : NodeId) : Answers where
  created := j.isCreated n
  deleted := (findDeleted f j).contains n
  modified := !(j.recordsOf n).isEmpty && !j.isCreated n && !(findDeleted f j).contains n
  states := j.recollect f n
  place := if j.isCreated n then .ok none
    else (findPriorPlaces f j).map fun places => (places.lookup n).or (f.place? n)

/-! ## Expansions -/

/-- Expansions depend on the journal alone, as long as the nodes keep their types. -/
theorem recollect_congr (hi : Indexed j.records)
    (hx : ∀ y ∈ j.records, ∀ x ∈ y.2, f.Recordable x) (hs : f'.schema = f.schema)
    (ht : ∀ m u, f.typeOf m = .ok u → f'.typeOf m = .ok u) :
    j.recollect f' n = j.recollect f n := by
  unfold recollect
  cases hrs : j.earliestOf n with
  | nil => rfl
  | cons x rs =>
    -- A node with a record exists, so its type is the same.
    obtain ⟨hmem, hn⟩ := hi.mem_earliestOf.mp (hrs ▸ List.mem_cons_self)
    obtain ⟨y, hy, hxy⟩ := mem_recalled.mp hmem
    obtain ⟨g, hg, -⟩ := hx y hy x (mem_of_mem_earliest hxy)
    obtain ⟨t, htx, -⟩ := Forest.feature_eq_ok.mp hg
    rw [hn] at htx
    unfold expand
    rw [hs, htx, ht _ _ htx]

/-! ## Reliable journals -/

/-- Nothing that the journal remembers is of a revision that it has not reached yet. -/
structure Aged (j : Journal) : Prop extends j.Dated where
  expansions : j.expansionsAt ≤ j.revision

/-- What the journal remembers about prior states is what its records say. -/
structure Mindful (j : Journal) (f : Forest) : Prop where
  expansions : j.expansionsAt ≤ j.revision
  expanded : j.expansionsAt = j.revision → ∀ n view, j.expansions.lookup n = some view →
    j.recollect f n = .ok view

/-- **The journal can be relied on** at this moment. -/
structure Reliable (j : Journal) (f : Forest) (generation : Nat) : Prop
    extends j.Current f generation where
  indexed : Indexed j.records
  recordable : ∀ y ∈ j.records, ∀ x ∈ y.2, f.Recordable x
  exist : ∀ c, c ∈ j.left ∨ c ∈ j.entered → f.contains c = true
  expansions : j.expansionsAt ≤ j.revision
  expanded : j.expansionsAt = j.revision → ∀ n view, j.expansions.lookup n = some view →
    j.recollect f n = .ok view

theorem Reliable.aged (h : j.Reliable f generation) : j.Aged := ⟨h.toDated, h.expansions⟩

theorem Reliable.mindful (h : j.Reliable f generation) : j.Mindful f := ⟨h.expansions, h.expanded⟩

theorem Reliable.of_allEarliest (h : j.Reliable f generation) (hx : x ∈ j.allEarliest) :
    f.Recordable x := by
  obtain ⟨y, hy, hx⟩ := mem_recalled.mp hx
  exact h.recordable y hy x (mem_of_mem_earliest hx)

/-- A journal that was never written. -/
theorem reliable_new : ({} : Journal).Reliable f generation where
  deleted := fun m hm => absurd hm (by simp)
  priorPlaces := fun m hm => absurd hm (by simp)
  deletedNow := fun m hm => absurd hm (by simp)
  priorPlacesNow := fun m hm => absurd hm (by simp)
  indexed := ⟨List.nodup_nil, fun _ hx => absurd hx (by simp)⟩
  recordable := fun _ hy => absurd hy (by simp)
  exist := fun c hc => absurd hc (by simp)
  expansions := Nat.le_refl _
  expanded := fun _ n view hview => absurd hview (by simp)

/-- **Once the revision is raised**, nothing that is remembered counts any more. -/
theorem Aged.reliable (h : j.Aged) (hr : j.revision < j'.revision)
    (hd : j'.deletedMemo = j.deletedMemo) (hp : j'.priorPlacesMemo = j.priorPlacesMemo)
    (he : j'.expansionsAt = j.expansionsAt) (hi : Indexed j'.records)
    (hx : ∀ y ∈ j'.records, ∀ x ∈ y.2, f.Recordable x)
    (hc : ∀ c, c ∈ j'.left ∨ c ∈ j'.entered → f.contains c = true) :
    j'.Reliable f generation := by
  have hlt : j'.expansionsAt < j'.revision := he ▸ Nat.lt_of_le_of_lt h.expansions hr
  exact ⟨h.toDated.current hr hd hp, hi, hx, hc, Nat.le_of_lt hlt,
    fun heq => absurd heq (Nat.ne_of_lt hlt)⟩

/-- A journal that is cleared has nothing noted, so there is nothing to go wrong. -/
theorem Aged.cleared (h : j.Aged) (hr : j.revision < j'.revision)
    (hd : j'.deletedMemo = j.deletedMemo) (hp : j'.priorPlacesMemo = j.priorPlacesMemo)
    (he : j'.expansionsAt = j.expansionsAt) (hrec : j'.records = []) (hl : j'.left = [])
    (hent : j'.entered = []) : j'.Reliable f generation := by
  refine h.reliable hr hd hp he ?_ ?_ ?_
  · rw [hrec]
    exact ⟨List.nodup_nil, fun x hx => absurd hx List.not_mem_nil⟩
  · rw [hrec]
    exact fun y hy => absurd hy List.not_mem_nil
  · rw [hl, hent]
    rintro c (hc | hc) <;> exact absurd hc List.not_mem_nil

theorem Reliable.startSession (h : j.Reliable f generation) (session : Session)
    (initial : List NodeId) : (j.startSession session initial).Reliable f generation :=
  h.aged.cleared (Nat.lt_succ_self _) rfl rfl rfl rfl rfl rfl

theorem Reliable.forget (h : j.Reliable f generation) : j.forget.Reliable f generation :=
  h.aged.cleared (Nat.lt_succ_self _) rfl rfl rfl rfl rfl rfl

/-- Session, seat and initial nodes are not what the answers are remembered for. -/
theorem Reliable.congr (h : j.Reliable f generation) (hrec : j'.records = j.records)
    (hl : j'.left = j.left) (hent : j'.entered = j.entered) (hs : j'.session = j.session)
    (hr : j'.revision = j.revision) (hd : j'.deletedMemo = j.deletedMemo)
    (hp : j'.priorPlacesMemo = j.priorPlacesMemo) (he : j'.expansions = j.expansions)
    (hea : j'.expansionsAt = j.expansionsAt) : j'.Reliable f generation := by
  have hdeleted : findDeleted f j' = findDeleted f j := by
    unfold findDeleted roots
    rw [hl, hent, hs]
  have hplaces : findPriorPlaces f j' = findPriorPlaces f j := by
    unfold findPriorPlaces allEarliest
    rw [hrec]
  have hrecollect : ∀ n, j'.recollect f n = j.recollect f n := by
    intro n
    unfold recollect earliestOf recordsOf
    rw [hrec]
  refine ⟨⟨⟨?_, ?_⟩, ?_, ?_⟩, by rw [hrec]; exact h.indexed, by rw [hrec]; exact h.recordable,
    by rw [hl, hent]; exact h.exist, by rw [hea, hr]; exact h.expansions, ?_⟩
  · rw [hd, hr]
    exact h.deleted
  · rw [hp, hr]
    exact h.priorPlaces
  · rw [hd, hr, hdeleted]
    exact h.deletedNow
  · rw [hp, hr, hplaces]
    exact h.priorPlacesNow
  · rw [hea, hr, he]
    intro heq n view hview
    rw [hrecollect]
    exact h.expanded heq n view hview

/-- The forest may change with the generation raised, or where no view shows it. -/
theorem Reliable.of_forest (h : j.Reliable f generation) (hs : f'.schema = f.schema)
    (ht : ∀ m u, f.typeOf m = .ok u → f'.typeOf m = .ok u) (hg : generation ≤ generation')
    (hd : generation = generation' → findDeleted f' j = findDeleted f j) :
    j.Reliable f' generation' := by
  refine ⟨h.toCurrent.of_forest hg hd
    (findPriorPlaces_congr (fun _ => h.of_allEarliest) hs ht), h.indexed,
    fun y hy x hx => (h.recordable y hy x hx).of_types hs ht, fun c hc => ?_, h.expansions,
    fun heq n view hview => ?_⟩
  · obtain ⟨u, hu⟩ := Forest.contains_iff.mp (h.exist c hc)
    exact Forest.contains_iff.mpr ⟨u, ht c u hu⟩
  · rw [recollect_congr h.indexed h.recordable hs ht]
    exact h.expanded heq n view hview

/-! ## Recording, reducing and asking -/

theorem expansionsAt_foldl (note : Journal → NodeId → Journal)
    (hn : ∀ j n, (note j n).expansionsAt = j.expansionsAt) (ns : List NodeId) (j : Journal) :
    (ns.foldl note j).expansionsAt = j.expansionsAt := by
  induction ns generalizing j with
  | nil => rfl
  | cons n ns ih => exact (ih _).trans (hn j n)

theorem expansionsAt_record : (Tracking.record N q j).expansionsAt = j.expansionsAt := by
  unfold Tracking.record
  split
  · rfl
  · exact (expansionsAt_foldl noteEntry (fun _ _ => rfl) q.entering _).trans
      (expansionsAt_foldl noteExit (fun _ _ => rfl) q.leaving j)

/-- **Recording a change**, with the children that it moves. -/
theorem Reliable.record (h : j.Reliable f generation)
    (hx : f.Recordable ⟨N.node, N.property, q.prior.value, q.prior.isSet⟩)
    (hc : ∀ c, c ∈ q.leaving ∨ c ∈ q.entering → f.contains c = true) :
    (Tracking.record N q j).Reliable f generation := by
  by_cases hj : j.suspended = true
  · unfold Tracking.record
    rw [if_pos hj]
    exact h
  · rw [Bool.not_eq_true] at hj
    obtain ⟨-, hr⟩ := record_plan (N := N) (q := q) hj
    have htook := took_record (N := N) (q := q) hj
    apply h.aged.reliable htook.later htook.deletedMemo htook.priorPlacesMemo expansionsAt_record
    · rw [hr]
      exact h.indexed.append _
    · rw [hr]
      exact forall_appendRecord (P := fun _ x => f.Recordable x) h.recordable hx
    · intro c hnoted
      rw [htook.left, htook.entered] at hnoted
      rcases hnoted with (hl | hl) | (he | he)
      · exact h.exist c (.inl hl)
      · exact hc c (.inl hl)
      · exact h.exist c (.inr he)
      · exact hc c (.inr he)

/-- **Reducing** succeeds, and the journal can be relied on afterwards. -/
theorem Reliable.reduce (h : j.Reliable f generation) (ht : f.Typed) :
    (∃ report, (j.reduce f prune).1 = .ok report) ∧
      (j.reduce f prune).2.Reliable f generation := by
  obtain ⟨report, hreport, hj⟩ := reduce_eq_ok f prune
    fun x hx => (forall_allEarliest h.recordable x hx).exists_slot ht
  refine ⟨⟨report, hreport⟩, ?_⟩
  rw [hj]
  refine h.aged.reliable (Nat.lt_succ_self _) rfl rfl rfl h.indexed.kept ?_ h.exist
  intro y hy x hx
  obtain ⟨z, hz, rfl⟩ := List.mem_map.mp (List.mem_filter.mp hy).1
  exact h.recordable z hz x (mem_of_mem_earliest (List.mem_filter.mp hx).1)

theorem recollect_of_records (hr : j'.records = j.records) :
    j'.recollect f n = j.recollect f n := by
  unfold recollect earliestOf recordsOf
  rw [hr]

theorem Current.set_expansions (h : j.Current f generation)
    (expansions : List (NodeId × List PriorState)) (expansionsAt : Nat) :
    { j with expansions, expansionsAt }.Current f generation :=
  ⟨⟨h.deleted, h.priorPlaces⟩, h.deletedNow, h.priorPlacesNow⟩

/-! ### Prior states -/

/-- What the journal remembers of the node, if it counts, is what the records say. -/
def MindfulOf (j : Journal) (f : Forest) (n : NodeId) : Prop :=
  j.expansionsAt = j.revision → ∀ view, j.expansions.lookup n = some view →
    j.recollect f n = .ok view

theorem records_refreshExpansions : j.refreshExpansions.records = j.records := by
  unfold refreshExpansions
  split <;> rfl

theorem priorStates_of_seen {view : List PriorState}
    (hview : j.refreshExpansions.expansions.lookup n = some view) :
    j.priorStates f n = (.ok view, j.refreshExpansions) := by
  unfold priorStates
  dsimp only
  rw [hview]

/-- What is not remembered is computed from the records. -/
theorem priorStates_of_unseen (hnone : j.refreshExpansions.expansions.lookup n = none) :
    (j.priorStates f n).1 = j.recollect f n := by
  rw [← recollect_of_records records_refreshExpansions]
  unfold priorStates recollect
  dsimp only
  rw [hnone]
  dsimp only
  cases j.refreshExpansions.earliestOf n with
  | nil => rfl
  | cons x rs =>
    dsimp only
    cases expand f n (x :: rs) <;> rfl

/-- **The answer about a node** is what the records say exactly if nothing else is remembered. -/
theorem priorStates_eq_iff : (j.priorStates f n).1 = j.recollect f n ↔ j.MindfulOf f n := by
  unfold MindfulOf
  by_cases hat : j.expansionsAt = j.revision
  · have hfresh : j.refreshExpansions = j := if_pos hat
    cases hview : j.expansions.lookup n with
    | none =>
      exact iff_of_true (priorStates_of_unseen (by rwa [hfresh])) fun _ view h =>
        absurd h (by simp)
    | some view =>
      have hanswer : j.priorStates f n = (.ok view, j.refreshExpansions) :=
        priorStates_of_seen (by rwa [hfresh])
      rw [hanswer]
      exact ⟨fun h _ _ hsome => Option.some.inj hsome ▸ h.symm, fun h => (h hat view rfl).symm⟩
  · -- Expansions of an earlier revision are forgotten before anything is looked up.
    refine iff_of_true (priorStates_of_unseen ?_) fun h => absurd h hat
    unfold refreshExpansions
    rw [if_neg hat]
    rfl

theorem Mindful.refreshed (h : j.Mindful f) : j.refreshExpansions.Mindful f ∧
    j.refreshExpansions.expansionsAt = j.refreshExpansions.revision := by
  unfold refreshExpansions
  by_cases hat : j.expansionsAt = j.revision
  · rw [if_pos hat]
    exact ⟨h, hat⟩
  · rw [if_neg hat]
    exact ⟨⟨Nat.le_refl _, fun _ n view hview => absurd hview (by simp)⟩, rfl⟩

/-- **What is asked about a node** is computed from its records, and is remembered for it. -/
theorem Mindful.priorStates (h : j.Mindful f) :
    (j.priorStates f n).1 = j.recollect f n ∧ (j.priorStates f n).2.Mindful f := by
  refine ⟨priorStates_eq_iff.mpr fun hat => h.expanded hat n, ?_⟩
  obtain ⟨hj, hat⟩ := h.refreshed
  unfold Journal.priorStates
  generalize j.refreshExpansions = j at hj hat
  dsimp only
  cases j.expansions.lookup n with
  | some view => exact hj
  | none =>
    dsimp only
    cases hrs : j.earliestOf n with
    | nil => exact hj
    | cons x rs =>
      dsimp only
      cases hexp : expand f n (x :: rs) with
      | error e => exact hj
      | ok view =>
        refine ⟨hj.expansions, fun _ m view' hm => ?_⟩
        dsimp only at hm ⊢
        refine (recollect_of_records (j := j) rfl).trans ?_
        by_cases heq : m = n
        · subst heq
          rw [List.lookup_cons_self, Option.some.injEq] at hm
          rw [← hm, recollect, hrs]
          exact hexp
        · rw [List.lookup_cons, beq_false_of_ne heq] at hm
          exact hj.expanded hat m view' hm

theorem Reliable.priorStates (h : j.Reliable f generation) :
    (j.priorStates f n).1 = j.recollect f n ∧
      (j.priorStates f n).2.Reliable f generation := by
  obtain ⟨hanswer, hmindful⟩ := h.mindful.priorStates (n := n)
  refine ⟨hanswer, ?_⟩
  obtain ⟨expansions, expansionsAt, hframe⟩ := j.priorStates_frame f n
  rw [hframe] at hmindful ⊢
  exact ⟨h.toCurrent.set_expansions _ _, h.indexed, h.recordable, h.exist, hmindful.expansions,
    hmindful.expanded⟩

/-- **Asking** leaves the journal one that can be relied on. -/
theorem Reliable.answered (h : j.Reliable f generation) (question : Question) :
    (question.answered f generation j).Reliable f generation := by
  cases question with
  | priorStates n => exact h.priorStates.2
  | deleted =>
    have hcurrent := h.toCurrent.answered .deleted
    unfold Question.answered Journal.deleted at hcurrent ⊢
    dsimp only at hcurrent ⊢
    cases hview : Memo.current? j.deletedMemo j.revision generation <;> rw [hview] at hcurrent
    · exact ⟨hcurrent, h.indexed, h.recordable, h.exist, h.expansions, h.expanded⟩
    · exact h
  | priorPlaces =>
    have hcurrent := h.toCurrent.answered .priorPlaces
    unfold Question.answered Journal.priorPlaces at hcurrent ⊢
    dsimp only at hcurrent ⊢
    cases hview : Memo.current? j.priorPlacesMemo j.revision generation <;> rw [hview] at hcurrent
    · cases hfound : findPriorPlaces f j <;> rw [hfound] at hcurrent
      · exact h
      · exact ⟨hcurrent, h.indexed, h.recordable, h.exist, h.expansions, h.expanded⟩
    · exact h

/-! ## Answers -/

theorem isModified_eq : (j.isModified f generation n).1 =
    (!(j.recordsOf n).isEmpty && !j.isCreated n && !(j.isDeleted f generation n).1) := by
  have hopen : j.isModified f generation n =
      (if (j.recordsOf n).isEmpty || j.isCreated n then pure false
        else (do return !(← isDeleted f generation n)) : StateM Journal Bool) j := rfl
  rw [hopen, ← Bool.not_or]
  cases (j.recordsOf n).isEmpty || j.isCreated n <;> rfl

theorem priorPlace_eq : (j.priorPlace f generation n).1 = if j.isCreated n then .ok none
    else (j.priorPlaces f generation).1.map fun places => (places.lookup n).or (f.place? n) := by
  have hget : (get : ExceptT Fault (StateM Journal) Journal) j = (.ok j, j) := rfl
  unfold priorPlace
  rw [query_bind_of_ok hget]
  by_cases hn : j.isCreated n = true
  · rw [if_pos hn, if_pos hn]
    rfl
  · rw [if_neg hn, if_neg hn]
    rcases hplaces : j.priorPlaces f generation with ⟨e | places, j'⟩
    · rw [query_bind_of_error hplaces]
      rfl
    · rw [query_bind_of_ok hplaces]
      cases hfound : places.lookup n <;> simp only [Except.map, hfound] <;> rfl

/-- **A reliable journal answers what would be computed now.** -/
theorem Reliable.answers_eq (h : j.Reliable f generation) :
    j.answers f generation n = j.computed f n := by
  have hdeleted : (j.isDeleted f generation n).1 = (findDeleted f j).contains n := by
    rw [isDeleted_eq, h.deleted_eq]
  unfold answers computed
  rw [isModified_eq, hdeleted, h.priorStates.1, priorPlace_eq, h.priorPlaces_eq]

end Journal

/-! ## Steps of edits -/

variable {τ : Type} {d d' : Document τ} {k : Nat}

/-- The children that a plan moves exist where those of the write do. -/
theorem Moves.contains {g : Feature} {old new : Slot} {freed : List NodeId}
    {taken : List (NodeId × PropertyId)} {s : Bool} {c : NodeId}
    (hf : f.Sound True) (hw : f.Rewrite True N.node N.property g old new freed taken)
    (hm : Moves f N old freed taken) (hq : Tracking.plan s f N = .ok q)
    (hc : c ∈ q.leaving ∨ c ∈ q.entering) : f.contains c = true := by
  obtain ⟨leaving, entering, hmove, hleaving, hentering⟩ := hm
  rw [(Tracking.plan_eq_ok hq).1, Except.ok.injEq, Prod.mk.injEq] at hmove
  obtain ⟨rfl, rfl⟩ := hmove
  rcases hc with hc | hc
  · exact (hw.under_of_freed hf ((hleaving c).mp hc)).contains
  · obtain ⟨x, hx, rfl⟩ := List.mem_map.mp ((hentering c).mp hc).1
    exact hw.fits.contains_of_claims hf.regular hw.feature (hw.claimed _ hx)

/-- **A step of an edit** leaves every journal one that can be relied on, whoever sits in the
audience. -/
theorem Step.reliable (h : Step True d d') (hf : d.forest.Sound True)
    (hj : (d.audience.journal k).Reliable d.forest d.generation) :
    (d'.audience.journal k).Reliable d'.forest d'.generation := by
  -- What is recorded is the state of a slot, and the children that move exist.
  have hannounce : ∀ {N : Notice} {g : Feature}, d.forest.feature N.node N.property = .ok g →
      g.owner = none →
      (∀ s q c, Tracking.plan s d.forest N = .ok q →
        c ∈ q.leaving ∨ c ∈ q.entering → d.forest.contains c = true) →
      ((Edit.announce N d).2.audience.journal k).Reliable d.forest d.generation := by
    intro N g hg ho hc
    exact journal_announced (P := fun j => j.Reliable d.forest d.generation)
      (fun s q j hq hj => hj.record (hf.recordable hg ho (Tracking.plan_eq_ok hq).2)
        fun c => hc s q c hq) hj
  have htypes : ∀ m u, d.forest.typeOf m = .ok u → d'.forest.typeOf m = .ok u :=
    fun m u => h.typeOf
  have hschema := h.schema
  cases h with
  | asked N =>
    rw [journal_poll, forest_poll, generation_poll]
    exact hj
  | refused N e h =>
    rw [journal_refused h, forest_announce, generation_announce]
    exact hj
  | counted i => exact hj
  | created t n f h =>
    -- The one step that changes the forest and raises neither count.
    exact hj.of_forest hschema htypes (Nat.le_refl _)
      fun _ => Journal.findDeleted_create hf hj.exist h
  | unwritten N g h hn hg ho hm =>
    rw [forest_announce, generation_announce]
    refine hannounce hg ho fun s q c hq hc => ?_
    have hmove := (Tracking.plan_eq_ok hq).1
    rw [hm, Except.ok.injEq, Prod.mk.injEq] at hmove
    rw [← hmove.1, ← hmove.2] at hc
    exact absurd hc (by simp)
  | changed N g old new freed taken h hc hw hm =>
    refine (hannounce hw.feature hw.direct fun s q c hq hc =>
      (hm trivial).contains hf hw hq hc).of_forest hschema htypes (Nat.le_succ _) fun heq => ?_
    exact absurd heq (Nat.ne_of_lt (Nat.lt_succ_self _))

end TrackedGraph
