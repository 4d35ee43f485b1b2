/-
What a journal recalls.

Of all the states that a journal holds only the first one of each property counts. A
further record adds a state exactly if its property has none yet (`mem_recalled_append`),
and a reduction drops, of those states, the ones that the forest is in if the journal is
to be pruned (`recalled_kept`). The list is kept by node, and that it is sorted in this
way (`Indexed`) is what makes the first state of a property the only one.
-/
import TrackedGraph.Journal.Basic
import TrackedGraph.Proofs.FirstSeen
import TrackedGraph.Proofs.Forest.Claims
import Mathlib.Data.List.Pairwise

set_option autoImplicit false

namespace TrackedGraph

/-- The states are of one property of one node. -/
def PriorState.SameSlot (r s : PriorState) : Prop := r.node = s.node ∧ r.property = s.property

instance (r s : PriorState) : Decidable (r.SameSlot s) := inferInstanceAs (Decidable (_ ∧ _))

namespace Journal

variable {j j' : Journal} {f : Forest} {r s : PriorState} {rs : List PriorState} {n : NodeId}
  {records : List (NodeId × List PriorState)} {prune : Bool}

/-- The roots are those of the session. -/
theorem roots_of_session {session : Session} (h : j.session = some session) :
    j.roots = session.roots := by
  rw [roots, h]

/-! ## One node -/

theorem mem_earliest : s ∈ earliest rs ↔ rs.find? (·.property == s.property) = some s := by
  induction rs with
  | nil => simp [earliest]
  | cons r rs ih =>
    rw [earliest, List.mem_cons, List.mem_filter, ih, List.find?_cons]
    by_cases h : r.property = s.property
    · simp [h, eq_comm]
    · have hne : s.property ≠ r.property := fun heq => h heq.symm
      have hs : s ≠ r := fun heq => hne (by rw [heq])
      rw [show (r.property == s.property) = false by simpa using h]
      simp [hne, hs]

theorem mem_of_mem_earliest (h : s ∈ earliest rs) : s ∈ rs :=
  List.mem_of_find?_eq_some (mem_earliest.mp h)

/-- A further state of one node is a first one if there is none of its property. -/
theorem earliest_concat : earliest (rs ++ [r]) =
    earliest rs ++ if ∃ y ∈ earliest rs, y.property = r.property then [] else [r] := by
  induction rs with
  | nil => simp [earliest]
  | cons z rs ih =>
    rw [List.cons_append, earliest, earliest, ih, List.filter_append]
    by_cases hp : r.property = z.property
    · -- The first state is of this property, so the further one is not a first.
      have hnone : ([r] : List PriorState).filter (·.property != z.property) = [] := by simp [hp]
      rw [if_pos (c := ∃ y ∈ z :: _, y.property = r.property) ⟨z, List.mem_cons_self, hp.symm⟩]
      split_ifs <;> simp [hnone]
    · have hkeep : ([r] : List PriorState).filter (·.property != z.property) = [r] := by simp [hp]
      have hiff : (∃ y ∈ z :: (earliest rs).filter (·.property != z.property),
          y.property = r.property) ↔ ∃ y ∈ earliest rs, y.property = r.property := by
        constructor
        · rintro ⟨y, hy, hyr⟩
          rcases List.mem_cons.mp hy with rfl | hy
          · exact absurd hyr.symm hp
          · exact ⟨y, (List.mem_filter.mp hy).1, hyr⟩
        · rintro ⟨y, hy, hyr⟩
          refine ⟨y, List.mem_cons_of_mem _ (List.mem_filter.mpr ⟨hy, ?_⟩), hyr⟩
          rw [hyr]
          simpa using hp
      simp only [hiff]
      split_ifs
      · simp
      · simp [hkeep]

theorem mem_earliest_concat : s ∈ earliest (rs ++ [r]) ↔
    s ∈ earliest rs ∨ s = r ∧ ∀ x ∈ earliest rs, x.property ≠ r.property := by
  rw [earliest_concat, List.mem_append]
  refine or_congr_right ?_
  split_ifs with h
  · obtain ⟨y, hy, hyr⟩ := h
    exact iff_of_false List.not_mem_nil fun hs => hs.2 y hy hyr
  · simp only [not_exists, not_and] at h
    rw [List.mem_singleton]
    exact (and_iff_left h).symm

theorem pairwise_earliest : (earliest rs).Pairwise (·.property ≠ ·.property) := by
  induction rs with
  | nil => exact .nil
  | cons r rs ih =>
    refine List.Pairwise.cons (fun x hx heq => ?_) (ih.filter _)
    have := (List.mem_filter.mp hx).2
    rw [← heq] at this
    simp at this

theorem earliest_of_pairwise (h : rs.Pairwise (·.property ≠ ·.property)) : earliest rs = rs := by
  induction rs with
  | nil => rfl
  | cons r rs ih =>
    obtain ⟨hr, hrs⟩ := List.pairwise_cons.mp h
    rw [earliest, ih hrs, List.filter_eq_self.mpr]
    exact fun x hx => by simpa using (hr x hx).symm

/-! ## All nodes -/

/-- The records are kept by node, each node once. -/
structure Indexed (records : List (NodeId × List PriorState)) : Prop where
  nodes : (records.map Prod.fst).Nodup
  own : ∀ x ∈ records, ∀ r ∈ x.2, r.node = x.1

instance (records : List (NodeId × List PriorState)) : Decidable (Indexed records) :=
  decidable_of_iff ((records.map Prod.fst).Nodup ∧ ∀ x ∈ records, ∀ r ∈ x.2, r.node = x.1)
    ⟨fun h => ⟨h.1, h.2⟩, fun h => ⟨h.nodes, h.own⟩⟩

theorem Indexed.tail {x : NodeId × List PriorState} (h : Indexed (x :: records)) :
    Indexed records :=
  ⟨(List.nodup_cons.mp h.nodes).2, fun y hy => h.own y (List.mem_cons_of_mem _ hy)⟩

/-- The first state of each property of each node. -/
def recalled (records : List (NodeId × List PriorState)) : List PriorState :=
  records.flatMap fun x => earliest x.2

theorem allEarliest_eq (j : Journal) : j.allEarliest = recalled j.records := rfl

theorem allEarliest_of_records (hr : j'.records = j.records) : j'.allEarliest = j.allEarliest := by
  rw [allEarliest_eq, allEarliest_eq, hr]

theorem mem_recalled : s ∈ recalled records ↔ ∃ x ∈ records, s ∈ earliest x.2 := List.mem_flatMap

/-- What holds of all states holds of the first ones. -/
theorem forall_allEarliest {P : PriorState → Prop} (h : ∀ y ∈ j.records, ∀ x ∈ y.2, P x) :
    ∀ x ∈ j.allEarliest, P x := by
  intro x hx
  obtain ⟨y, hy, hx⟩ := mem_recalled.mp hx
  exact h y hy x (mem_of_mem_earliest hx)

/-- No property is recalled twice. -/
theorem Indexed.pairwise_recalled (h : Indexed records) :
    (recalled records).Pairwise fun r s => ¬ r.SameSlot s := by
  refine List.pairwise_flatMap.mpr ⟨fun x _ => ?_, ?_⟩
  · exact pairwise_earliest.imp fun hne hsame => hne hsame.2
  · refine (List.pairwise_map.mp h.nodes).imp_of_mem fun hx hy hne r hr s hs hsame => hne ?_
    rw [← h.own _ hx r (mem_of_mem_earliest hr), ← h.own _ hy s (mem_of_mem_earliest hs)]
    exact hsame.1

theorem Indexed.eq_of_sameSlot (h : Indexed records) (hr : r ∈ recalled records)
    (hs : s ∈ recalled records) (hsame : r.SameSlot s) : r = s := by
  by_contra hne
  have : Std.Symm fun r s : PriorState => ¬ r.SameSlot s :=
    ⟨fun _ _ hxy hyx => hxy ⟨hyx.1.symm, hyx.2.symm⟩⟩
  exact h.pairwise_recalled.forall hr hs hne hsame

/-- The earliest states of a node are those of all that are its own. -/
theorem Indexed.mem_earliestOf (h : Indexed j.records) :
    s ∈ j.earliestOf n ↔ s ∈ j.allEarliest ∧ s.node = n := by
  rw [allEarliest_eq, mem_recalled]
  unfold earliestOf recordsOf
  cases hl : j.records.lookup n with
  | none =>
    have hnone : ∀ x ∈ j.records, n ≠ x.1 := fun x hx => by
      simpa using List.lookup_eq_none_iff.mp hl x hx
    refine iff_of_false (by simp [earliest]) ?_
    rintro ⟨⟨x, hx, hs⟩, hnode⟩
    exact hnone x hx (hnode.symm.trans (h.own x hx s (mem_of_mem_earliest hs)))
  | some rs =>
    have hmem : (n, rs) ∈ j.records := by
      obtain ⟨l₁, l₂, heq, -⟩ := List.lookup_eq_some_iff.mp hl
      rw [heq]
      exact List.mem_append_right _ List.mem_cons_self
    constructor
    · exact fun hs => ⟨⟨_, hmem, hs⟩, h.own _ hmem s (mem_of_mem_earliest hs)⟩
    · rintro ⟨⟨x, hx, hs⟩, hnode⟩
      have hn : x.1 = n := (h.own x hx s (mem_of_mem_earliest hs)).symm.trans hnode
      obtain rfl : x = (n, rs) := List.inj_on_of_nodup_map h.nodes hx hmem hn
      exact hs

/-- A state that is recorded does not take the place of another one. -/
theorem mem_recalled_append (h : Indexed records) : s ∈ recalled (appendRecord r records) ↔
    s ∈ recalled records ∨ s = r ∧ ∀ x ∈ recalled records, ¬ x.SameSlot r := by
  induction records with
  | nil => simp [appendRecord, recalled, earliest]
  | cons x rest ih =>
    obtain ⟨n, rs⟩ := x
    have hcons : ∀ l rest, recalled ((n, l) :: rest) = earliest l ++ recalled rest :=
      fun _ _ => List.flatMap_cons
    have hown : ∀ y ∈ earliest rs, y.node = n :=
      fun y hy => h.own (n, rs) List.mem_cons_self y (mem_of_mem_earliest hy)
    unfold appendRecord
    by_cases hn : n = r.node
    · -- Records are kept by node, so no other list has a state of this slot.
      have hrest : ∀ y ∈ recalled rest, ¬ y.SameSlot r := by
        rintro y hy ⟨hnode, -⟩
        obtain ⟨z, hz, hyz⟩ := mem_recalled.mp hy
        refine (List.nodup_cons.mp h.nodes).1 (List.mem_map.mpr ⟨z, hz, ?_⟩)
        rw [← h.tail.own z hz y (mem_of_mem_earliest hyz), hnode, ← hn]
      rw [if_pos hn, hcons, hcons, List.mem_append, List.mem_append, mem_earliest_concat]
      have hiff : (∀ y ∈ earliest rs ++ recalled rest, ¬ y.SameSlot r) ↔
          ∀ y ∈ earliest rs, y.property ≠ r.property := by
        simp only [List.forall_mem_append]
        exact ⟨fun hy x hx heq => hy.1 x hx ⟨(hown x hx).trans hn, heq⟩,
          fun hy => ⟨fun x hx hsame => hy x hx hsame.2, hrest⟩⟩
      rw [hiff]
      tauto
    · rw [if_neg hn, hcons, hcons, List.mem_append, List.mem_append, ih h.tail]
      have hiff : (∀ y ∈ earliest rs ++ recalled rest, ¬ y.SameSlot r) ↔
          ∀ y ∈ recalled rest, ¬ y.SameSlot r := by
        simp only [List.forall_mem_append]
        refine ⟨And.right, fun hy => ⟨fun x hx hsame => hn ?_, hy⟩⟩
        rw [← hown x hx]
        exact hsame.1
      rw [hiff]
      tauto

theorem mem_allEarliest_append (h : Indexed j.records)
    (hr : j'.records = appendRecord r j.records) : s ∈ j'.allEarliest ↔
      s ∈ j.allEarliest ∨ s = r ∧ ∀ x ∈ j.allEarliest, ¬ x.SameSlot r := by
  rw [allEarliest_eq, hr, mem_recalled_append h, allEarliest_eq]

theorem recordsOf_append (hr : j'.records = appendRecord r j.records) :
    j'.recordsOf n = j.recordsOf n ++ if n = r.node then [r] else [] := by
  unfold recordsOf
  rw [hr]
  generalize j.records = records
  induction records with
  | nil =>
    unfold appendRecord
    by_cases hn : n = r.node
    · simp [hn]
    · simp [hn, List.lookup_cons, List.lookup_nil, beq_false_of_ne hn]
  | cons y rest ih =>
    obtain ⟨m, ys⟩ := y
    unfold appendRecord
    by_cases hm : m = r.node
    · rw [if_pos hm]
      by_cases hn : n = m
      · subst hn
        simp [hm]
      · have hnr : n ≠ r.node := fun h => hn (h.trans hm.symm)
        simp [List.lookup_cons, beq_false_of_ne hn, hnr]
    · rw [if_neg hm]
      by_cases hn : n = m
      · subst hn
        simp [hm]
      · simpa [List.lookup_cons, beq_false_of_ne hn] using ih

/-- What a node has as first states stays, and comes first. -/
theorem earliestOf_append (hr : j'.records = appendRecord r j.records) (n : NodeId) :
    ∃ t, j'.earliestOf n = j.earliestOf n ++ t := by
  unfold earliestOf
  rw [recordsOf_append hr]
  by_cases hn : n = r.node
  · rw [if_pos hn, earliest_concat]
    exact ⟨_, rfl⟩
  · rw [if_neg hn, List.append_nil]
    exact ⟨[], (List.append_nil _).symm⟩

/-- The states that are recalled are sorted by node. -/
theorem Indexed.earliestOf_eq (h : Indexed j.records) :
    j.earliestOf n = j.allEarliest.filter (·.node == n) := by
  unfold earliestOf recordsOf
  rw [allEarliest_eq]
  generalize j.records = records at h
  induction records with
  | nil => rfl
  | cons y rest ih =>
    obtain ⟨m, ys⟩ := y
    have hcons : recalled ((m, ys) :: rest) = earliest ys ++ recalled rest := List.flatMap_cons
    have hown : ∀ z ∈ earliest ys, z.node = m :=
      fun z hz => h.own _ List.mem_cons_self z (mem_of_mem_earliest hz)
    rw [hcons, List.filter_append]
    by_cases hn : n = m
    · subst hn
      -- Records are kept by node, so the rest has none of this one.
      have hrest : (recalled rest).filter (·.node == n) = [] := by
        rw [List.filter_eq_nil_iff]
        intro z hz hzn
        obtain ⟨y, hy, hzy⟩ := mem_recalled.mp hz
        refine (List.nodup_cons.mp h.nodes).1 (List.mem_map.mpr ⟨y, hy, ?_⟩)
        exact (h.tail.own y hy z (mem_of_mem_earliest hzy)).symm.trans (eq_of_beq hzn)
      rw [hrest, List.append_nil, List.filter_eq_self.mpr fun z hz => by simp [hown z hz]]
      simp
    · have hnone : (earliest ys).filter (·.node == n) = [] := by
        rw [List.filter_eq_nil_iff]
        intro z hz hzn
        exact hn ((eq_of_beq hzn).symm.trans (hown z hz))
      rw [hnone, List.nil_append, ← ih h.tail]
      simp [List.lookup_cons, beq_false_of_ne hn]

/-- A state of a property that is recalled already changes nothing that is recalled. -/
theorem recalled_append_of_known (h : Indexed records) (hx : ∃ y ∈ recalled records, y.SameSlot r) :
    recalled (appendRecord r records) = recalled records := by
  induction records with
  | nil => exact absurd hx.choose_spec.1 List.not_mem_nil
  | cons z rest ih =>
    obtain ⟨m, zs⟩ := z
    have hcons : ∀ l rest, recalled ((m, l) :: rest) = earliest l ++ recalled rest :=
      fun _ _ => List.flatMap_cons
    obtain ⟨y, hy, hyr⟩ := hx
    rw [hcons, List.mem_append] at hy
    unfold appendRecord
    by_cases hm : m = r.node
    · rw [if_pos hm, hcons, hcons, earliest_concat]
      rcases hy with hy | hy
      · rw [if_pos ⟨y, hy, hyr.2⟩, List.append_nil]
      · -- A state of the same node is not among those of the others.
        obtain ⟨w, hw, hyw⟩ := mem_recalled.mp hy
        refine absurd (List.mem_map.mpr ⟨w, hw, ?_⟩) (List.nodup_cons.mp h.nodes).1
        exact ((h.tail.own w hw y (mem_of_mem_earliest hyw)).symm.trans hyr.1).trans hm.symm
    · rw [if_neg hm, hcons, hcons]
      rcases hy with hy | hy
      · have hnode := h.own _ List.mem_cons_self y (mem_of_mem_earliest hy)
        exact absurd (hnode.symm.trans hyr.1) hm
      · rw [ih h.tail ⟨y, hy, hyr⟩]

/-- A recorded state adds its node to the touched ones. -/
theorem map_fst_appendRecord (r : PriorState) (records : List (NodeId × List PriorState)) :
    (appendRecord r records).map Prod.fst = FirstSeen.add (records.map Prod.fst) r.node := by
  induction records with
  | nil => rfl
  | cons x rest ih =>
    obtain ⟨m, rs⟩ := x
    unfold appendRecord
    by_cases hm : m = r.node
    · rw [if_pos hm, FirstSeen.add_of_mem (by simp [hm])]
      rfl
    · rw [if_neg hm, List.map_cons, ih, List.map_cons]
      have hne : r.node ≠ m := fun heq => hm heq.symm
      by_cases hrest : r.node ∈ rest.map Prod.fst
      · rw [FirstSeen.add_of_mem hrest, FirstSeen.add_of_mem (List.mem_cons_of_mem _ hrest)]
      · rw [FirstSeen.add_of_not_mem hrest, FirstSeen.add_of_not_mem (by simpa [hne] using hrest)]
        rfl

/-- What holds of all records and of one more holds of them together. -/
theorem forall_appendRecord {P : NodeId → PriorState → Prop}
    (h : ∀ y ∈ records, ∀ x ∈ y.2, P y.1 x) (hr : P r.node r) :
    ∀ y ∈ appendRecord r records, ∀ x ∈ y.2, P y.1 x := by
  induction records with
  | nil =>
    intro y hy x hx
    rw [List.mem_singleton.mp hy] at hx ⊢
    rw [List.mem_singleton.mp hx]
    exact hr
  | cons z rest ih =>
    obtain ⟨n, rs⟩ := z
    rw [List.forall_mem_cons] at h
    unfold appendRecord
    by_cases hn : n = r.node
    · rw [if_pos hn, List.forall_mem_cons]
      refine ⟨fun x hx => ?_, h.2⟩
      rcases List.mem_append.mp hx with hx | hx
      · exact h.1 x hx
      · rw [List.mem_singleton.mp hx, show n = r.node from hn]
        exact hr
    · rw [if_neg hn, List.forall_mem_cons]
      exact ⟨h.1, ih h.2⟩

theorem Indexed.append (h : Indexed records) (r : PriorState) :
    Indexed (appendRecord r records) := by
  constructor
  · rw [map_fst_appendRecord]
    exact FirstSeen.nodup_add h.nodes r.node
  · exact forall_appendRecord (P := fun n x => x.node = n) h.own rfl

/-! ## Reduction -/

/-- The property is in the recorded state, and the journal is to be pruned. -/
def superfluous (f : Forest) (prune : Bool) (r : PriorState) : Bool :=
  prune && match f.slot r.node r.property with
    | .ok s => s.isSet == r.isSet && s.value.agrees r.value
    | .error _ => false

theorem superfluous_iff : superfluous f prune r = true ↔ prune = true ∧
    ∃ s, f.slot r.node r.property = .ok s ∧ s.isSet = r.isSet ∧ s.value.agrees r.value = true := by
  unfold superfluous
  cases h : f.slot r.node r.property with
  | ok s => simp
  | error e => simp

theorem filterM_eq_ok {ε α : Type} {k : α → Except ε Bool} {b : α → Bool} {l : List α}
    (h : ∀ a ∈ l, k a = .ok (b a)) : l.filterM k = .ok (l.filter b) := by
  have haux : ∀ acc, l.filterAuxM k acc = .ok ((l.filter b).reverse ++ acc) := by
    induction l with
    | nil => exact fun _ => rfl
    | cons a l ih =>
      intro acc
      rw [List.filterAuxM, h a List.mem_cons_self, bind_ok,
        ih fun x hx => h x (List.mem_cons_of_mem _ hx), List.filter_cons]
      cases b a <;> simp
  rw [List.filterM, haux, bind_ok]
  simp

theorem reduceNode_eq (h : ∀ r ∈ earliest rs, ∃ s, f.slot r.node r.property = .ok s) :
    reduceNode f prune rs = .ok ((earliest rs).filter (!superfluous f prune ·)) := by
  refine filterM_eq_ok fun r hr => ?_
  obtain ⟨s, hs⟩ := h r hr
  unfold superfluous isCurrent
  cases prune with
  | false => rfl
  | true => simp [hs]

/-- What a reduction leaves of the records. -/
def kept (f : Forest) (prune : Bool) (records : List (NodeId × List PriorState)) :
    List (NodeId × List PriorState) :=
  (records.map fun x => (x.1, (earliest x.2).filter (!superfluous f prune ·))).filter
    fun x => !x.2.isEmpty

/-- What a reduction reports of the records that it found. -/
def report (f : Forest) (prune : Bool) (records : List (NodeId × List PriorState)) : Reduction where
  raw := (records.flatMap (·.2)).length
  kept := ((kept f prune records).flatMap (·.2)).length
  pruned := (recalled records).length - ((kept f prune records).flatMap (·.2)).length
  nodes := (kept f prune records).length

/-- **A reduction succeeds** if the forest has all recorded properties. -/
theorem reduce_apply (f : Forest) (prune : Bool)
    (h : ∀ r ∈ j.allEarliest, ∃ s, f.slot r.node r.property = .ok s) :
    j.reduce f prune = (.ok (report f prune j.records), { j with
      records := kept f prune j.records, expansions := [], revision := j.revision + 1 }) := by
  have hall : j.records.mapM (fun x => do return (x.1, ← reduceNode f prune x.2)) = .ok
      (j.records.map fun x => (x.1, (earliest x.2).filter (!superfluous f prune ·))) := by
    apply mapM_eq_map
    intro x hx
    simp only [reduceNode_eq fun r hr => h r (mem_recalled.mpr ⟨x, hx, hr⟩), bind_ok, pure_eq_ok]
  unfold reduce
  rw [hall]
  rfl

theorem reduce_eq_ok (f : Forest) (prune : Bool)
    (h : ∀ r ∈ j.allEarliest, ∃ s, f.slot r.node r.property = .ok s) :
    ∃ report, (j.reduce f prune).1 = .ok report ∧
      (j.reduce f prune).2 = { j with
        records := kept f prune j.records, expansions := [], revision := j.revision + 1 } := by
  rw [reduce_apply f prune h]
  exact ⟨_, rfl, rfl⟩

theorem Indexed.kept (h : Indexed records) : Indexed (kept f prune records) := by
  constructor
  · refine (List.Sublist.map _ List.filter_sublist).nodup ?_
    rw [List.map_map]
    exact h.nodes
  · intro y hy r hr
    obtain ⟨x, hx, rfl⟩ := List.mem_map.mp (List.mem_filter.mp hy).1
    exact h.own x hx r (mem_of_mem_earliest (List.mem_filter.mp hr).1)

/-- **A reduction recalls** what was recalled before, less what is superfluous. -/
theorem recalled_kept :
    recalled (kept f prune records) = (recalled records).filter (!superfluous f prune ·) := by
  have hearliest : ∀ rs, earliest ((earliest rs).filter (!superfluous f prune ·)) =
      (earliest rs).filter (!superfluous f prune ·) :=
    fun rs => earliest_of_pairwise (pairwise_earliest.filter _)
  induction records with
  | nil => rfl
  | cons x rest ih =>
    have hcons : recalled (x :: rest) = earliest x.2 ++ recalled rest := List.flatMap_cons
    rw [hcons, List.filter_append, ← ih]
    unfold kept
    rw [List.map_cons, List.filter_cons]
    cases hl : (earliest x.2).filter (!superfluous f prune ·) with
    | nil => rfl
    | cons r rs =>
      have : recalled ((x.1, r :: rs) :: Journal.kept f prune rest) =
          earliest (r :: rs) ++ recalled (Journal.kept f prune rest) := List.flatMap_cons
      rw [← hl, hearliest, hl] at this
      exact this

theorem allEarliest_of_kept (hr : j'.records = kept f prune j.records) :
    j'.allEarliest = j.allEarliest.filter (!superfluous f prune ·) := by
  rw [allEarliest_eq, hr, recalled_kept, allEarliest_eq]

theorem mem_of_mem_allEarliest_of_kept (hr : j'.records = kept f prune j.records)
    (hs : s ∈ j'.allEarliest) : s ∈ j.allEarliest := by
  rw [allEarliest_of_kept hr] at hs
  exact (List.mem_filter.mp hs).1

end Journal

end TrackedGraph
