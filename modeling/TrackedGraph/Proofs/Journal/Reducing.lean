/-
What a reduction leaves, and what it reports.

A journal is made by writing, asking and reducing (`Journal.Made`), each against any forest, and a
reduction may fail. However it was made, a reduction keeps of every node the first record of each
property, less those that the forest is in where it prunes, with nodes and records in their order
(`Journal.Reduced`). What a reduction leaves is what it would keep of that again, so a second one
finds nothing to do.

A reduction that does not prune leaves the answers about prior states as they are, as far as these
were what the records say. A journal remembers what it answered, and a reduction that fails drops
the records without the answers, which are then given for nothing until the next reduction
(`Journal.MindfulOf`). This does not happen to a journal that stands beside one forest that grows,
and is reduced where its records can be looked up (`Journal.Beside`).
-/
import TrackedGraph.Proofs.Recording.Calling
import TrackedGraph.Proofs.Journal.Reliable
import TrackedGraph.Proofs.Forest.Aligned
import Mathlib.Data.Finset.Card

set_option autoImplicit false

namespace TrackedGraph

namespace Journal

variable {f f' : Forest} {j : Journal} {n : NodeId} {rs : List PriorState} {prune : Bool}
  {records : List (NodeId × List PriorState)}

/-! ## First records -/

/-- The records that no earlier one of the same property precedes, as far as they are wanted. -/
def firsts (wanted : PriorState → Bool) (rs : List PriorState) : List PriorState :=
  (rs.zipIdx.filter fun x =>
    (rs.take x.2).all (·.property != x.1.property) && wanted x.1).map Prod.fst

/-- One more record at the end is a first one if no other one is of its property. -/
theorem firsts_concat (wanted : PriorState → Bool) (r : PriorState) :
    firsts wanted (rs ++ [r]) = firsts wanted rs ++
      bif rs.all (·.property != r.property) && wanted r then [r] else [] := by
  have hbefore : ∀ x ∈ rs.zipIdx, (rs ++ [r]).take x.2 = rs.take x.2 := by
    intro x hx
    obtain ⟨-, hlt, -⟩ := List.mem_zipIdx hx
    exact List.take_append_of_le_length (by omega)
  unfold firsts
  rw [List.zipIdx_append, List.filter_append, List.map_append]
  congr 1
  · refine congrArg _ (List.filter_congr fun x hx => ?_)
    rw [hbefore x hx]
  · rw [Nat.zero_add, List.zipIdx_singleton, List.filter_singleton, List.take_left]
    dsimp only
    cases rs.all (·.property != r.property) && wanted r <;> rfl

/-- **The earliest states** are those that no earlier one of the same property precedes. -/
theorem filter_earliest (wanted : PriorState → Bool) :
    (earliest rs).filter wanted = firsts wanted rs := by
  induction rs using List.reverseRecOn with
  | nil => rfl
  | append_singleton rs r ih =>
    have hiff : rs.all (·.property != r.property) = true ↔
        ¬ ∃ y ∈ earliest rs, y.property = r.property := by
      rw [List.all_eq_true]
      constructor
      · rintro h ⟨y, hy, hyr⟩
        have := h y (mem_of_mem_earliest hy)
        simp [hyr] at this
      · intro h x hx
        by_contra hxr
        have hxr : x.property = r.property := by simpa using hxr
        -- The first record of that property is an earliest one.
        obtain ⟨y, hy⟩ := Option.isSome_iff_exists.mp
          (List.find?_isSome (p := (·.property == r.property)).mpr ⟨x, hx, by simpa using hxr⟩)
        have hyr : y.property = r.property := by simpa using List.find?_some hy
        exact h ⟨y, mem_earliest.mpr (by rw [hyr]; exact hy), hyr⟩
    rw [earliest_concat, List.filter_append, ih, firsts_concat]
    congr 1
    by_cases h : ∃ y ∈ earliest rs, y.property = r.property
    · rw [if_pos h, Bool.eq_false_iff.mpr fun hall => hiff.mp hall h]
      rfl
    · rw [if_neg h, hiff.mpr h, Bool.true_and, List.filter_singleton]

/-! ## Journals, however they are made -/

/-- **All journals**: they were written, asked and reduced in any order, against any forests, and
whatever came of it. -/
inductive Made : Journal → Prop
  | new : Made {}
  | record {j : Journal} (r : PriorState) (h : Made j) : Made (j.record r)
  | noteEntry {j : Journal} (n : NodeId) (h : Made j) : Made (j.noteEntry n)
  | noteExit {j : Journal} (n : NodeId) (h : Made j) : Made (j.noteExit n)
  | written {j : Journal} {g : Journal → Journal} (hg : Recording.Writes g) (h : Made j) :
      Made (g j)
  | asked {j : Journal} (f : Forest) (generation : Nat) (question : Question) (h : Made j) :
      Made (question.answered f generation j)
  | reduced {j : Journal} (f : Forest) (prune : Bool) (h : Made j) : Made (j.reduce f prune).2

theorem indexed_nil : Indexed [] := ⟨List.nodup_nil, fun _ hx => absurd hx List.not_mem_nil⟩

/-- What is written to a journal leaves its records or drops them all. -/
theorem indexed_written {g : Journal → Journal} (hg : Recording.Writes g)
    (h : Indexed j.records) : Indexed (g j).records := by
  cases hg with
  | start session initial => exact indexed_nil
  | forget => exact indexed_nil
  | extendInitial nodes => exact h
  | mark seat recording suspended => exact h

theorem indexed_asked {generation : Nat} (question : Question) (h : Indexed j.records) :
    Indexed (question.answered f generation j).records := by
  obtain ⟨_, _, _, _, hj, -, -⟩ := question.answered_frame f generation j
  rw [hj]
  exact h

theorem mem_of_filterM {ε α : Type} {k : α → Except ε Bool} {l l' : List α}
    (h : l.filterM k = .ok l') : ∀ a ∈ l', a ∈ l := by
  have haux : ∀ acc l', l.filterAuxM k acc = .ok l' → ∀ a ∈ l', a ∈ l ∨ a ∈ acc := by
    clear h
    induction l with
    | nil =>
      intro acc l' h a ha
      exact .inr (Except.ok.inj h ▸ ha)
    | cons b l ih =>
      intro acc l' h a ha
      rw [List.filterAuxM] at h
      obtain ⟨c, -, h⟩ := bind_eq_ok.mp h
      rcases ih _ _ h a ha with hl | hacc
      · exact .inl (.tail _ hl)
      · cases c with
        | false => exact .inr hacc
        | true =>
          rcases List.mem_cons.mp hacc with rfl | hacc
          · exact .inl (.head _)
          · exact .inr hacc
  obtain ⟨l₁, hl₁, hl'⟩ := bind_eq_ok.mp h
  intro a ha
  rw [← Except.ok.inj hl', List.mem_reverse] at ha
  exact (haux _ _ hl₁ a ha).resolve_right List.not_mem_nil

/-- Each node keeps its place, with some of its records. -/
theorem Indexed.of_forall₂ {records' : List (NodeId × List PriorState)} (h : Indexed records)
    (hpairs : List.Forall₂ (fun x y => y.1 = x.1 ∧ y.2 ⊆ x.2) records records') :
    Indexed records' := by
  obtain ⟨hnodes, hown⟩ := h
  constructor
  · have hmap : records'.map Prod.fst = records.map Prod.fst := by
      clear hnodes hown
      induction hpairs with
      | nil => rfl
      | cons hxy _ ih => rw [List.map_cons, List.map_cons, hxy.1, ih]
    rwa [hmap]
  · clear hnodes
    induction hpairs with
    | nil => exact hown
    | cons hxy _ ih =>
      rw [List.forall_mem_cons] at hown ⊢
      exact ⟨fun r hr => (hown.1 r (hxy.2 hr)).trans hxy.1.symm, ih hown.2⟩

/-- A reduction keeps records of the same nodes, or none at all if it fails. -/
theorem indexed_reduced (prune : Bool) (h : Indexed j.records) :
    Indexed (j.reduce f prune).2.records := by
  rcases hall : j.records.mapM (fun x => do return (x.1, ← reduceNode f prune x.2)) with e | all
  · unfold reduce
    rw [hall]
    exact indexed_nil
  · have hindexed : Indexed all := by
      refine h.of_forall₂ ((mapM_eq_ok.mp hall).imp fun x y hy => ?_)
      obtain ⟨rs, hrs, hy⟩ := bind_eq_ok.mp hy
      obtain rfl := Except.ok.inj hy
      exact ⟨rfl, fun r hr => mem_of_mem_earliest (mem_of_filterM hrs r hr)⟩
    unfold reduce
    rw [hall]
    exact ⟨(List.filter_sublist.map _).nodup hindexed.nodes,
      fun x hx => hindexed.own x (List.mem_filter.mp hx).1⟩

theorem Made.indexed (h : j.Made) : Indexed j.records := by
  induction h with
  | new => exact indexed_nil
  | record r _ ih => exact ih.append r
  | noteEntry n _ ih => exact ih
  | noteExit n _ ih => exact ih
  | written hg _ ih => exact indexed_written hg ih
  | asked f generation question _ ih => exact indexed_asked question ih
  | reduced f prune _ ih => exact indexed_reduced prune ih

/-! ## Journals beside a forest -/

/-- **The journals beside a forest**: they were written, asked and reduced while the forest grew
to what it is now. When a journal is reduced, the forest has the properties that it recalls. -/
inductive Beside : Forest → Journal → Prop
  | new (f : Forest) : Beside f {}
  | grown {f f' : Forest} {j : Journal} (hf : f.GrownFrom f') (h : Beside f j) : Beside f' j
  | record {f : Forest} {j : Journal} (r : PriorState) (h : Beside f j) : Beside f (j.record r)
  | noteEntry {f : Forest} {j : Journal} (n : NodeId) (h : Beside f j) : Beside f (j.noteEntry n)
  | noteExit {f : Forest} {j : Journal} (n : NodeId) (h : Beside f j) : Beside f (j.noteExit n)
  | written {f : Forest} {j : Journal} {g : Journal → Journal} (hg : Recording.Writes g)
      (h : Beside f j) : Beside f (g j)
  | asked {f : Forest} {j : Journal} (generation : Nat) (question : Question)
      (h : Beside f j) : Beside f (question.answered f generation j)
  | reduced {f : Forest} {j : Journal} (prune : Bool)
      (hr : ∀ r ∈ j.allEarliest, ∃ s, f.slot r.node r.property = .ok s)
      (h : Beside f j) : Beside f (j.reduce f prune).2

/-- Prior states that were computed once are the same in a later forest. -/
theorem recollect_of_grown {view : List PriorState} (hf : f.GrownFrom f')
    (h : j.recollect f n = .ok view) : j.recollect f' n = .ok view := by
  unfold recollect at h ⊢
  cases hrs : j.earliestOf n with
  | nil => rwa [hrs] at h
  | cons x rs =>
    rw [hrs] at h
    obtain ⟨t, ht, -⟩ := bind_eq_ok.mp h
    rw [← h]
    dsimp only
    unfold expand
    rw [hf.schema, ht, hf.typeOf n t ht]

theorem Mindful.grown (h : j.Mindful f) (hf : f.GrownFrom f') : j.Mindful f' :=
  ⟨h.expansions, fun heq n view hview => recollect_of_grown hf (h.expanded heq n view hview)⟩

/-- Once the revision is raised, nothing that is remembered counts any more. -/
theorem Mindful.raised {j' : Journal} (h : j.Mindful f) (hr : j.revision < j'.revision)
    (he : j'.expansionsAt = j.expansionsAt) : j'.Mindful f := by
  have hlt : j'.expansionsAt < j'.revision := he ▸ Nat.lt_of_le_of_lt h.expansions hr
  exact ⟨Nat.le_of_lt hlt, fun heq => absurd heq (Nat.ne_of_lt hlt)⟩

/-- What is written to a journal either raises the revision or is nothing to its records. -/
theorem Mindful.written {g : Journal → Journal} (h : j.Mindful f) (hg : Recording.Writes g) :
    (g j).Mindful f := by
  cases hg with
  | start session initial => exact h.raised (Nat.lt_succ_self _) rfl
  | extendInitial nodes => exact h.raised (Nat.lt_succ_self _) rfl
  | forget => exact h.raised (Nat.lt_succ_self _) rfl
  | mark seat recording suspended => exact ⟨h.expansions, h.expanded⟩

theorem Mindful.asked {generation : Nat} (h : j.Mindful f) (question : Question) :
    (question.answered f generation j).Mindful f := by
  cases question with
  | priorStates n => exact h.priorStates.2
  | deleted =>
    unfold Question.answered Journal.deleted
    dsimp only
    split
    · exact h
    · exact ⟨h.expansions, h.expanded⟩
  | priorPlaces =>
    unfold Question.answered Journal.priorPlaces
    dsimp only
    split
    · exact h
    · split
      · exact h
      · exact ⟨h.expansions, h.expanded⟩

theorem Beside.mindful (h : j.Beside f) : j.Mindful f := by
  induction h with
  | new f => exact ⟨Nat.le_refl _, fun _ n view hview => absurd hview (by simp)⟩
  | grown hf _ ih => exact ih.grown hf
  | record r _ ih => exact ih.raised (Nat.lt_succ_self _) rfl
  | noteEntry n _ ih => exact ih.raised (Nat.lt_succ_self _) rfl
  | noteExit n _ ih => exact ih.raised (Nat.lt_succ_self _) rfl
  | written hg _ ih => exact ih.written hg
  | asked generation question _ ih => exact ih.asked question
  | reduced prune hr _ ih =>
    rw [reduce_apply _ prune hr]
    exact ih.raised (Nat.lt_succ_self _) rfl

/-- They are made as journals are. -/
theorem Beside.made (h : j.Beside f) : j.Made := by
  induction h with
  | new f => exact .new
  | grown _ _ ih => exact ih
  | record r _ ih => exact .record r ih
  | noteEntry n _ ih => exact .noteEntry n ih
  | noteExit n _ ih => exact .noteExit n ih
  | written hg _ ih => exact .written hg ih
  | asked generation question _ ih => exact .asked _ generation question ih
  | reduced prune hr _ ih => exact .reduced _ prune ih

/-! ## What a reduction leaves -/

/-- **The records that a reduction leaves**, in the words of the records that it found. -/
theorem kept_eq : kept f prune records =
    (records.map fun x => (x.1, firsts (!superfluous f prune ·) x.2)).filter (!·.2.isEmpty) := by
  simp only [kept, filter_earliest]

/-- A reduction that does not prune keeps all earliest states. -/
theorem earliestOf_kept_false {j' : Journal} (h : Indexed j.records)
    (hr : j'.records = kept f false j.records) : j'.earliestOf n = j.earliestOf n := by
  have hall : j'.allEarliest = j.allEarliest := by
    rw [allEarliest_of_kept hr]
    exact List.filter_eq_self.mpr fun _ _ => rfl
  have h' : Indexed j'.records := hr ▸ h.kept
  rw [h'.earliestOf_eq, h.earliestOf_eq, hall]

/-- The records that are left are all that they recall. -/
theorem flatMap_kept : (kept f prune records).flatMap (·.2) = recalled (kept f prune records) := by
  unfold recalled
  refine (List.flatMap_congr fun x hx => ?_).symm
  obtain ⟨y, -, rfl⟩ := List.mem_map.mp (List.mem_filter.mp hx).1
  exact earliest_of_pairwise (pairwise_earliest.filter _)

/-- **What is left would be kept again.** -/
theorem kept_kept : kept f prune (kept f prune records) = kept f prune records := by
  have hself : ∀ x ∈ kept f prune records,
      (x.1, (earliest x.2).filter (!superfluous f prune ·)) = x := by
    intro x hx
    obtain ⟨y, -, rfl⟩ := List.mem_map.mp (List.mem_filter.mp hx).1
    rw [earliest_of_pairwise (pairwise_earliest.filter _), List.filter_filter]
    simp only [Bool.and_self]
  calc kept f prune (kept f prune records)
    _ = (kept f prune records).filter (!·.2.isEmpty) :=
      congrArg _ ((List.map_congr_left hself).trans (List.map_id' _))
    _ = kept f prune records := List.filter_eq_self.mpr fun x hx => (List.mem_filter.mp hx).2

/-- **Every property is recalled once**: the recalled states are as many as the properties of
nodes with a record. -/
theorem Indexed.length_recalled (h : Indexed records) : (recalled records).length =
    ((records.flatMap (·.2)).map fun r => (r.node, r.property)).toFinset.card := by
  have hnodup : ((recalled records).map fun r => (r.node, r.property)).Nodup := by
    refine List.pairwise_map.mpr (h.pairwise_recalled.imp fun hne heq => hne ?_)
    exact Prod.mk.inj heq
  rw [← List.length_map (fun r : PriorState => (r.node, r.property)),
    ← List.toFinset_card_of_nodup hnodup]
  congr 1
  ext key
  simp only [List.mem_toFinset, List.mem_map, mem_recalled, List.mem_flatMap]
  constructor
  · rintro ⟨r, ⟨x, hx, hr⟩, rfl⟩
    exact ⟨r, ⟨x, hx, mem_of_mem_earliest hr⟩, rfl⟩
  · rintro ⟨r, ⟨x, hx, hr⟩, rfl⟩
    -- The first record of the same property is recalled.
    obtain ⟨s, hs⟩ := Option.isSome_iff_exists.mp
      (List.find?_isSome (p := (·.property == r.property)).mpr ⟨r, hr, BEq.rfl⟩)
    have hsr : s.property = r.property := by simpa using List.find?_some hs
    refine ⟨s, ⟨x, hx, mem_earliest.mpr (by rw [hsr]; exact hs)⟩, ?_⟩
    rw [h.own x hx s (List.mem_of_find?_eq_some hs), h.own x hx r hr, hsr]

/-- **What a reduction did** to a journal, and what it said about it. -/
structure Reduced (f : Forest) (prune : Bool) (j : Journal) (report : Reduction) (j' : Journal) :
    Prop where
  /-- Each node keeps the first record of each property, in order, if it is still wanted. -/
  records : j'.records = (j.records.map fun x =>
    (x.1, firsts (!superfluous f prune ·) x.2)).filter (!·.2.isEmpty)
  /-- No node stays without a record. -/
  nonempty : ∀ x ∈ j'.records, x.2 ≠ []
  raw : report.raw = (j.records.flatMap (·.2)).length
  kept : report.kept = (j'.records.flatMap (·.2)).length
  /-- Kept and pruned records are as many as the properties of nodes with a record. -/
  counted : report.kept + report.pruned =
    ((j.records.flatMap (·.2)).map fun r => (r.node, r.property)).toFinset.card
  /-- Where nothing is pruned, the prior states are what they were, unless these were not what the
  records said. -/
  priorStates : prune = false → ∀ n,
    (j'.priorStates f n).1 = (j.priorStates f n).1 ↔ j.MindfulOf f n

theorem reduced_reduce (h : Indexed j.records)
    (hr : ∀ r ∈ j.allEarliest, ∃ s, f.slot r.node r.property = .ok s) :
    Reduced f prune j (report f prune j.records) (j.reduce f prune).2 := by
  have hrecords : (j.reduce f prune).2.records = Journal.kept f prune j.records := by
    rw [reduce_apply f prune hr]
  have hle : ((Journal.kept f prune j.records).flatMap (·.2)).length ≤
      (recalled j.records).length := by
    rw [flatMap_kept, recalled_kept]
    exact List.length_filter_le _ _
  constructor
  · rw [hrecords, kept_eq]
  · rw [hrecords]
    intro x hx
    simpa using (List.mem_filter.mp hx).2
  · rfl
  · rw [hrecords]
    rfl
  · rw [← h.length_recalled]
    exact Nat.add_sub_of_le hle
  · rintro rfl n
    -- Nothing is remembered after a reduction.
    have hafter : ((j.reduce f false).2.priorStates f n).1 = j.recollect f n := by
      rw [priorStates_eq_iff.mpr fun _ view hview => ?_]
      · unfold recollect
        rw [earliestOf_kept_false h hrecords]
      · rw [reduce_apply f false hr] at hview
        exact absurd hview (by simp)
    rw [hafter, eq_comm]
    exact priorStates_eq_iff

/-- **A reduction leaves the earliest states** of what was recorded, however the journal was made,
and a second one in the same way finds nothing more to do. What it answers about prior states
stays the same, if nothing is pruned, for just the nodes of which it remembers what its records say;
beside one forest these are all. -/
theorem Made.reduce_settles (h : j.Made) (prune : Bool)
    (hr : ∀ r ∈ j.records.flatMap (·.2), ∃ s, f.slot r.node r.property = .ok s) :
    (∃ report, (j.reduce f prune).1 = .ok report ∧
      Reduced f prune j report (j.reduce f prune).2 ∧
      ∃ again, ((j.reduce f prune).2.reduce f prune).1 = .ok again ∧ again.pruned = 0 ∧
        ((j.reduce f prune).2.reduce f prune).2.records = (j.reduce f prune).2.records) ∧
      (j.Beside f → ∀ n, j.MindfulOf f n) := by
  have hearliest : ∀ r ∈ j.allEarliest, ∃ s, f.slot r.node r.property = .ok s :=
    forall_allEarliest fun y hy x hx => hr x (List.mem_flatMap.mpr ⟨y, hy, hx⟩)
  have hj := reduce_apply f prune hearliest
  have hrecords : (j.reduce f prune).2.records = Journal.kept f prune j.records := by rw [hj]
  have hagain := reduce_apply (j := (j.reduce f prune).2) f prune
    fun r hr => hearliest r (mem_of_mem_allEarliest_of_kept hrecords hr)
  refine ⟨⟨_, by rw [hj], reduced_reduce h.indexed hearliest, _, by rw [hagain], ?_, ?_⟩,
    fun hbeside n hat => hbeside.mindful.expanded hat n⟩
  · rw [hrecords, report, kept_kept, flatMap_kept]
    exact Nat.sub_self _
  · rw [hagain, hrecords, kept_kept]

/-! ## An example -/

/-- Two gauges, the first of which shows no number. -/
def Gauge.forest : Forest where
  schema := ⟨[⟨"Gauge", [⟨{ name := "level", role := .attribute, scalar := .float }, none, none⟩,
    ⟨{ name := "label", role := .attribute, scalar := .string }, none, none⟩], none⟩]⟩
  nodes := [⟨⟨0⟩, [⟨.float .nan, true⟩, ⟨.str "b", true⟩], none⟩,
    ⟨⟨0⟩, [⟨.null, false⟩, ⟨.null, false⟩], none⟩]

/-- What was recorded of the gauges. The second one is back at its start. -/
def Gauge.log : List PriorState :=
  [⟨⟨0⟩, ⟨1⟩, .str "a", true⟩, ⟨⟨1⟩, ⟨0⟩, .null, false⟩, ⟨⟨0⟩, ⟨0⟩, .float .nan, true⟩,
    ⟨⟨0⟩, ⟨1⟩, .str "b", true⟩, ⟨⟨1⟩, ⟨0⟩, .float .nan, true⟩]

theorem Gauge.made (rs : List PriorState) : (rs.foldl record {}).Made := by
  induction rs using List.reverseRecOn with
  | nil => exact .new
  | append_singleton rs r ih =>
    rw [List.foldl_concat]
    exact .record r ih

/-- A number that is none agrees with nothing, so its record is not pruned, neither now nor when
the journal is reduced again. And a journal that was asked about the first gauge, and could not be
reduced in a forest without gauges, goes on to give that answer until it is reduced. -/
theorem Made.reduce_settles_gauge :
    let j := Gauge.log.foldl Journal.record {}
    let j' := (j.reduce Gauge.forest true).2
    let asked := (Question.priorStates ⟨0⟩).answered Gauge.forest 0 j
    let stale := (asked.reduce { Gauge.forest with nodes := [] } true).2
    (j'.records = [(⟨0⟩, [⟨⟨0⟩, ⟨1⟩, .str "a", true⟩, ⟨⟨0⟩, ⟨0⟩, .float .nan, true⟩])] ∧
      (j'.reduce Gauge.forest true).2.records = j'.records) ∧
    stale.records = [] ∧
      ((stale.reduce Gauge.forest false).2.priorStates Gauge.forest ⟨0⟩).1 ≠
        (stale.priorStates Gauge.forest ⟨0⟩).1 := by
  intro j j' asked stale
  have hmade : j.Made := Gauge.made Gauge.log
  have hstale : stale.Made := .reduced _ _ (.asked _ _ _ hmade)
  have hdropped : stale.records = [] := by decide +kernel
  obtain ⟨⟨_, -, hreduced, _, -, -, hagain⟩, -⟩ := Made.reduce_settles hmade true
    (f := Gauge.forest) fun r hr => toOption_isSome_iff.mp (by
      revert r
      decide +kernel)
  obtain ⟨⟨_, -, hsettled, -⟩, -⟩ := Made.reduce_settles (f := Gauge.forest) hstale false
    (by rw [hdropped]; simp)
  refine ⟨⟨hreduced.records.trans (by decide +kernel), hagain⟩, hdropped, fun hsame => ?_⟩
  have hmindful := (hsettled.priorStates rfl ⟨0⟩).mp hsame
  have hview : stale.expansions.lookup ⟨0⟩ =
      some [⟨⟨0⟩, ⟨1⟩, .str "a", true⟩, ⟨⟨0⟩, ⟨0⟩, .float .nan, true⟩] := by decide +kernel
  have hnone : stale.recollect Gauge.forest ⟨0⟩ = .ok [] := by
    unfold recollect earliestOf recordsOf
    rw [hdropped]
    rfl
  have hat : stale.expansionsAt = stale.revision := by decide +kernel
  exact absurd (Except.ok.inj (hnone.symm.trans (hmindful hat _ hview))) (by simp)

end Journal

end TrackedGraph
