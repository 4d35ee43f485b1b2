/-
What a journal counts, and what it lists.

Three questions are asked of single nodes: whether a node was created, deleted or modified. Beside
them stand a list of all nodes that were changed in any way and a tally, and each of the five is
worked out on its own, from the records, from the nodes that entered and were there from the
start, and from a memo of the deleted ones. They agree (`Journal.Tidy.accounts`), for what they are
worked out from is without repeats and without nodes that have lost all their records
(`Journal.Tidy`). Whatever was recorded, reduced and asked before, a journal that stands beside a
forest is in this state (`Journal.Beside.tidy`).

Whether the memo says what would be found now is not needed: all five read the same memo.
-/
import TrackedGraph.Proofs.FirstSeen
import TrackedGraph.Proofs.Journal.Reducing

set_option autoImplicit false

namespace TrackedGraph

namespace Journal

variable {f : Forest} {generation : Nat} {j : Journal} {n : NodeId} {r : PriorState}
  {records : List (NodeId × List PriorState)} {prune : Bool}

/-! ## Journals in order -/

/-- No node is left without a record. -/
theorem appendRecord_ne_nil (h : ∀ x ∈ records, x.2 ≠ []) :
    ∀ x ∈ appendRecord r records, x.2 ≠ [] := by
  induction records with
  | nil => simp [appendRecord]
  | cons x rest ih =>
    obtain ⟨m, rs⟩ := x
    obtain ⟨hx, hrest⟩ := List.forall_mem_cons.mp h
    unfold appendRecord
    by_cases hm : m = r.node
    · rw [if_pos hm]
      exact List.forall_mem_cons.mpr ⟨by simp, hrest⟩
    · rw [if_neg hm]
      exact List.forall_mem_cons.mpr ⟨hx, ih hrest⟩

/-- **A journal in order**: nothing is listed twice, and a node that is listed with records has
some. -/
structure Tidy (j : Journal) : Prop where
  indexed : Indexed j.records
  nonempty : ∀ x ∈ j.records, x.2 ≠ []
  entered : j.entered.Nodup
  deleted : ∀ memo, j.deletedMemo = some memo → memo.view.Nodup

theorem nodup_findDeleted : (findDeleted f j).Nodup := FirstSeen.nodup_ofList _

/-- Where nothing is recorded and no node has entered. -/
theorem tidy_of_nil (hr : j.records = []) (he : j.entered = [])
    (hd : ∀ memo, j.deletedMemo = some memo → memo.view.Nodup) : j.Tidy := by
  refine ⟨?_, ?_, ?_, hd⟩
  · rw [hr]
    exact ⟨List.nodup_nil, fun _ hx => absurd hx List.not_mem_nil⟩
  · rw [hr]
    exact fun _ hx => absurd hx List.not_mem_nil
  · rw [he]
    exact List.nodup_nil

theorem Tidy.written {g : Journal → Journal} (hg : Recording.Writes g) (h : j.Tidy) :
    (g j).Tidy := by
  cases hg with
  | start session initial => exact tidy_of_nil rfl rfl h.deleted
  | forget => exact tidy_of_nil rfl rfl h.deleted
  | extendInitial nodes => exact ⟨h.indexed, h.nonempty, h.entered, h.deleted⟩
  | mark seat recording suspended => exact ⟨h.indexed, h.nonempty, h.entered, h.deleted⟩

theorem Tidy.asked (question : Question) (h : j.Tidy) :
    (question.answered f generation j).Tidy := by
  obtain ⟨_, _, _, _, hj, hmemo, -⟩ := question.answered_frame f generation j
  rw [hj]
  refine ⟨h.indexed, h.nonempty, h.entered, ?_⟩
  intro memo hm
  rcases hmemo with hsame | hnew
  · exact h.deleted memo (hsame.symm.trans hm)
  · obtain rfl := Option.some.inj (hnew.symm.trans hm)
    exact nodup_findDeleted

/-- **Journals beside a forest are in order**, whatever was done with them. -/
theorem Beside.tidy (h : j.Beside f) : j.Tidy := by
  induction h with
  | new f => exact tidy_of_nil rfl rfl (by simp)
  | grown _ _ ih => exact ih
  | record r _ ih =>
    exact ⟨ih.indexed.append r, appendRecord_ne_nil ih.nonempty, ih.entered, ih.deleted⟩
  | noteEntry n _ ih =>
    exact ⟨ih.indexed, ih.nonempty, FirstSeen.nodup_add ih.entered n, ih.deleted⟩
  | noteExit n _ ih => exact ⟨ih.indexed, ih.nonempty, ih.entered, ih.deleted⟩
  | written hg _ ih => exact ih.written hg
  | asked generation question _ ih => exact ih.asked question
  | reduced prune hr h ih =>
    -- A node that is left without a record is dropped.
    have hreduced : Reduced _ prune _ _ _ := reduced_reduce ih.indexed hr
    have hnonempty := hreduced.nonempty
    rw [reduce_apply _ prune hr] at hnonempty ⊢
    exact ⟨ih.indexed.kept, hnonempty, ih.entered, ih.deleted⟩

/-! ## Single nodes -/

/-- The touched nodes are those with a record. -/
theorem Tidy.mem_touched_iff (h : j.Tidy) : n ∈ j.touched ↔ (j.recordsOf n).isEmpty = false := by
  unfold touched recordsOf
  cases hl : j.records.lookup n with
  | none =>
    apply iff_of_false
    · intro hn
      obtain ⟨x, hx, rfl⟩ := List.mem_map.mp hn
      exact absurd (List.lookup_eq_none_iff.mp hl x hx) (by simp)
    · simp
  | some rs =>
    obtain ⟨l₁, l₂, heq, -⟩ := List.lookup_eq_some_iff.mp hl
    have hmem : (n, rs) ∈ j.records := by
      rw [heq]
      exact List.mem_append_right _ List.mem_cons_self
    apply iff_of_true
    · exact List.mem_map.mpr ⟨(n, rs), hmem, rfl⟩
    · have hne : rs ≠ [] := h.nonempty _ hmem
      simpa using hne

theorem isCreated_iff : j.isCreated n = true ↔ n ∈ j.created := by
  unfold isCreated created
  simp

theorem mem_deleted_iff : n ∈ (j.deleted f generation).1 ↔
    (j.isDeleted f generation n).1 = true := by
  rw [isDeleted_eq, List.contains_iff_mem]

theorem Tidy.isModified_iff (h : j.Tidy) : (j.isModified f generation n).1 = true ↔
    n ∈ j.touched ∧ n ∉ j.created ∧ n ∉ (j.deleted f generation).1 := by
  rw [isModified_eq, h.mem_touched_iff, ← isCreated_iff, mem_deleted_iff]
  simp [and_assoc]

theorem Tidy.nodup_deleted (h : j.Tidy) : (j.deleted f generation).1.Nodup := by
  unfold Journal.deleted
  split
  · next view hview =>
    obtain ⟨memo, hmemo, -, -, rfl⟩ := current?_eq_some.mp hview
    exact h.deleted memo hmemo
  · exact nodup_findDeleted

/-! ## The list and the tally -/

/-- The deleted nodes may be remembered, and nothing else changes in the journal. -/
theorem deleted_frame (f : Forest) (generation : Nat) (j : Journal) :
    ∃ memo, (j.deleted f generation).2 = { j with deletedMemo := memo } := by
  unfold Journal.deleted
  split
  · exact ⟨_, rfl⟩
  · exact ⟨_, rfl⟩

theorem changed_eq : (j.changed f generation).1 =
    FirstSeen.addAll (FirstSeen.addAll (j.deleted f generation).1 j.entered) j.touched := by
  obtain ⟨memo, hj⟩ := j.deleted_frame f generation
  have hopen : (j.changed f generation).1 =
      FirstSeen.addAll (FirstSeen.addAll (j.deleted f generation).1
        (j.deleted f generation).2.entered) (j.deleted f generation).2.touched := rfl
  rw [hopen, hj]
  rfl

theorem tally_eq : (j.tally f generation).1 = {
    created := j.created.length
    deleted := (j.deleted f generation).1.length
    modified := j.touched.countP fun n =>
      !(j.deleted f generation).1.contains n && !j.created.contains n
    properties := j.allEarliest.length } := by
  obtain ⟨memo, hj⟩ := j.deleted_frame f generation
  have hopen : (j.tally f generation).1 = {
    created := (j.deleted f generation).2.created.length
    deleted := (j.deleted f generation).1.length
    modified := (j.deleted f generation).2.touched.countP fun n =>
      !(j.deleted f generation).1.contains n && !(j.deleted f generation).2.created.contains n
    properties := (j.deleted f generation).2.allEarliest.length } := rfl
  rw [hopen, hj]
  rfl

/-- Elements of a list that are told by a condition, counted or listed. -/
theorem countP_eq_length_of_nodup {α : Type} {q : α → Bool} {l all : List α} (hl : l.Nodup)
    (hall : all.Nodup) (h : ∀ a, a ∈ l ↔ a ∈ all ∧ q a = true) : all.countP q = l.length := by
  rw [List.countP_eq_length_filter]
  apply List.Perm.length_eq
  apply (List.perm_ext_iff_of_nodup (hall.filter q) hl).mpr
  intro a
  rw [h, List.mem_filter]

theorem mem_changed : n ∈ (j.changed f generation).1 ↔
    n ∈ (j.deleted f generation).1 ∨ n ∈ j.entered ∨ n ∈ j.touched := by
  rw [changed_eq, FirstSeen.mem_addAll, FirstSeen.mem_addAll, or_assoc]

theorem Tidy.nodup_changed (h : j.Tidy) : (j.changed f generation).1.Nodup := by
  rw [changed_eq]
  exact FirstSeen.nodup_addAll (FirstSeen.nodup_addAll h.nodup_deleted _) _

/-- The list has three parts, and no node is in two of them. -/
theorem Tidy.changed_parts (h : j.Tidy) : (j.changed f generation).1 =
    (j.deleted f generation).1 ++
      j.entered.filter (· ∉ (j.deleted f generation).1) ++
      j.touched.filter fun n => n ∉ (j.deleted f generation).1 ∧ n ∉ j.entered := by
  have htouched : FirstSeen.ofList j.touched = j.touched := FirstSeen.ofList_of_nodup h.indexed.nodes
  rw [changed_eq, FirstSeen.addAll_eq, FirstSeen.addAll_eq, FirstSeen.ofList_of_nodup h.entered,
    htouched]
  congr 1
  apply List.filter_congr
  intro n _
  rw [decide_eq_decide, List.mem_append, List.mem_filter]
  simp only [decide_eq_true_eq]
  tauto

/-! ## What is asked first -/

/-- To ask for the deleted nodes again gives the same answer. -/
theorem deleted_deleted :
    ((j.deleted f generation).2.deleted f generation).1 = (j.deleted f generation).1 := by
  cases hm : Memo.current? j.deletedMemo j.revision generation with
  | some view =>
    have hj : j.deleted f generation = (view, j) := by
      unfold Journal.deleted
      rw [hm]
    rw [hj, hj]
  | none =>
    have hj : j.deleted f generation = (findDeleted f j,
        { j with deletedMemo := some ⟨j.revision, generation, findDeleted f j⟩ }) := by
      unfold Journal.deleted
      rw [hm]
    rw [hj]
    unfold Journal.deleted
    -- The memo that was left is of this moment.
    have hnow : Memo.current? (some ⟨j.revision, generation, findDeleted f j⟩)
        j.revision generation = some (findDeleted f j) :=
      current?_eq_some.mpr ⟨_, rfl, rfl, rfl, rfl⟩
    rw [hnow]

/-- What is remembered of other questions says nothing about the deleted nodes. -/
theorem deleted_of_frame {priorPlacesMemo : Option (Memo (List (NodeId × Place)))}
    {expansions : List (NodeId × List PriorState)} {expansionsAt : Nat} :
    (({ j with priorPlacesMemo, expansions, expansionsAt } : Journal).deleted f generation).1 =
      (j.deleted f generation).1 := by
  unfold Journal.deleted
  dsimp only
  cases Memo.current? j.deletedMemo j.revision generation <;> rfl

/-- **Whatever is asked first**, the same nodes are deleted. -/
theorem deleted_answered (question : Question) :
    ((question.answered f generation j).deleted f generation).1 = (j.deleted f generation).1 := by
  cases question with
  | deleted => exact deleted_deleted
  | priorPlaces =>
    have hj : ∃ memo, (j.priorPlaces f generation).2 = { j with priorPlacesMemo := memo } := by
      unfold Journal.priorPlaces
      split
      · exact ⟨_, rfl⟩
      · split <;> exact ⟨_, rfl⟩
    obtain ⟨memo, hj⟩ := hj
    rw [Question.answered, hj]
    exact deleted_of_frame
  | priorStates n =>
    obtain ⟨expansions, expansionsAt, hj⟩ := j.priorStates_frame f n
    rw [Question.answered, hj]
    exact deleted_of_frame

/-! ## The accounts -/

/-- **The accounts of a journal**, over a forest at a generation: what it says of single nodes, what
it lists, and what it counts. -/
structure Accounts (f : Forest) (generation : Nat) (j : Journal) : Prop where
  /-- The deleted nodes come first, then the others that entered, then the others with a record. -/
  order : (j.changed f generation).1 = (j.deleted f generation).1 ++
    j.entered.filter (· ∉ (j.deleted f generation).1) ++
    j.touched.filter fun n => n ∉ (j.deleted f generation).1 ∧ n ∉ j.entered
  nodup : (j.changed f generation).1.Nodup
  deleted_iff : ∀ n, n ∈ (j.deleted f generation).1 ↔ (j.isDeleted f generation n).1 = true
  touched_iff : ∀ n, n ∈ j.touched ↔ j.recordsOf n ≠ []
  /-- Whatever is said to have been changed is listed. -/
  complete : ∀ n, j.isCreated n = true ∨ (j.isDeleted f generation n).1 = true ∨
    (j.isModified f generation n).1 = true → n ∈ (j.changed f generation).1
  created : (j.tally f generation).1.created =
    (j.changed f generation).1.countP fun n => j.isCreated n
  deleted : (j.tally f generation).1.deleted =
    (j.changed f generation).1.countP fun n => (j.isDeleted f generation n).1
  modified : (j.tally f generation).1.modified =
    (j.changed f generation).1.countP fun n => (j.isModified f generation n).1
  /-- Each property of a node counts once, however often it was recorded. -/
  properties : (j.tally f generation).1.properties =
    ((j.records.flatMap (·.2)).map fun r => (r.node, r.property)).toFinset.card
  /-- What is asked first makes no difference. -/
  steady : ∀ question : Question,
    ((question.answered f generation j).deleted f generation).1 = (j.deleted f generation).1 ∧
    ((question.answered f generation j).changed f generation).1 = (j.changed f generation).1 ∧
    ((question.answered f generation j).tally f generation).1 = (j.tally f generation).1

theorem Tidy.accounts (h : j.Tidy) : j.Accounts f generation := by
  refine ⟨h.changed_parts, h.nodup_changed, fun n => mem_deleted_iff, ?_, ?_, ?_, ?_, ?_, ?_, ?_⟩
  · intro n
    rw [h.mem_touched_iff]
    simp
  · intro n hn
    rw [mem_changed]
    rcases hn with hn | hn | hn
    · exact .inr (.inl (List.mem_filter.mp (isCreated_iff.mp hn)).1)
    · exact .inl (mem_deleted_iff.mpr hn)
    · exact .inr (.inr (h.isModified_iff.mp hn).1)
  · -- The counts are taken from the list of changed nodes, which has each of them once.
    rw [tally_eq]
    symm
    apply countP_eq_length_of_nodup (h.entered.filter _) h.nodup_changed
    intro n
    rw [mem_changed, isCreated_iff]
    constructor
    · exact fun hn => ⟨.inr (.inl (List.mem_filter.mp hn).1), hn⟩
    · exact fun hn => hn.2
  · rw [tally_eq]
    symm
    apply countP_eq_length_of_nodup h.nodup_deleted h.nodup_changed
    intro n
    rw [mem_changed, ← mem_deleted_iff]
    tauto
  · rw [tally_eq]
    dsimp only
    rw [List.countP_eq_length_filter]
    symm
    apply countP_eq_length_of_nodup (List.Nodup.filter _ h.indexed.nodes) h.nodup_changed
    intro n
    have hfilter : n ∈ j.touched.filter (fun n =>
        !(j.deleted f generation).1.contains n && !j.created.contains n) ↔
          n ∈ j.touched ∧ n ∉ (j.deleted f generation).1 ∧ n ∉ j.created := by
      simp [List.mem_filter]
    rw [h.isModified_iff, mem_changed]
    tauto
  · rw [tally_eq]
    exact h.indexed.length_recalled
  · intro question
    obtain ⟨_, _, _, _, hj, -, -⟩ := question.answered_frame f generation j
    rw [changed_eq, changed_eq, tally_eq, tally_eq, deleted_answered, hj]
    exact ⟨rfl, rfl, rfl⟩

end Journal

end TrackedGraph
