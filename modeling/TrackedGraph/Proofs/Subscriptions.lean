/-
What subscriptions remember.

After any number of calls the pairs say who observes what and in which order: the observers of a
node stand in the order in which each of them subscribed last, where a call that found the
subscription already there does not count (`Latest`). The induction is on the calls, from the
right, and what carries it is that a call adds one observer at the end of one list or takes
observers out of lists.

A registry that is asked often keeps two tables instead of the pairs, one for either direction:
the observers of a node as a list, the nodes of an observer as a set (`Tables`). The two have to
be kept in step, and lists that become empty are thrown away. That they answer as the pairs do is
the relation `Represents`, which every call keeps.
-/
import TrackedGraph.Proofs.Audience
import Mathlib.Data.Set.Card

set_option autoImplicit false

namespace TrackedGraph.Subscriptions

variable {s : Subscriptions} {o o' : ObserverId} {n m : NodeId} {i j : Nat}

/-! ## Calls -/

/-- A call that changes subscriptions. -/
inductive Call where
  | subscribe (o : ObserverId) (n : NodeId)
  | unsubscribe (o : ObserverId) (n : NodeId)
  | drop (o : ObserverId)
deriving DecidableEq

/-- Makes a call, whatever it answers. -/
def Call.make (s : Subscriptions) : Call → Subscriptions
  | subscribe o n => (s.subscribe o n).2
  | unsubscribe o n => (s.unsubscribe o n).2
  | drop o => (s.drop o).2

/-- The subscriptions after some calls, to begin with none. -/
def after (calls : List Call) : Subscriptions := calls.foldl Call.make {}

variable {calls : List Call} {c : Call}

theorem after_concat : after (calls ++ [c]) = c.make (after calls) :=
  List.foldl_concat _ _ _ _

theorem nodup_make (h : s.pairs.Nodup) : (c.make s).pairs.Nodup := by
  cases c with
  | subscribe o n => exact nodup_change h (.subscribe n)
  | unsubscribe o n => exact nodup_change h (.unsubscribe n)
  | drop o => exact h.filter _

theorem nodup_after : (after calls).pairs.Nodup := by
  induction calls using List.reverseRecOn with
  | nil => exact List.nodup_nil
  | append_singleton calls c ih =>
    rw [after_concat]
    exact nodup_make ih

/-! ## What a call answers -/

theorem subscribe_fst : (s.subscribe o n).1 = true ↔ s.has o n = false := by
  unfold subscribe
  by_cases h : s.has o n = true
  · rw [if_pos h, h]
    simp
  · rw [if_neg h]
    simpa using h

/-- A subscription is there after it was made. -/
theorem has_subscribe_self : (s.subscribe o n).2.has o n = true :=
  has_subscribe.mpr (.inr ⟨rfl, rfl⟩)

theorem has_unsubscribe_self : (s.unsubscribe o n).2.has o n = false := by
  rw [← Bool.not_eq_true, has_unsubscribe]
  simp

theorem filter_ne_eq_self {os : List ObserverId} (h : o ∉ os) : os.filter (· != o) = os := by
  refine List.filter_eq_self.mpr fun o' ho' => bne_iff_ne.mpr ?_
  rintro rfl
  exact h ho'

/-- The nodes of an observer, of which there are as many as are counted. -/
def nodesOf (s : Subscriptions) (o : ObserverId) : List NodeId :=
  (s.pairs.filter (·.2 == o)).map (·.1)

theorem length_nodesOf : (s.nodesOf o).length = s.count o := by
  unfold nodesOf count
  rw [List.length_map, List.countP_eq_length_filter]

theorem mem_nodesOf : n ∈ s.nodesOf o ↔ s.has o n = true := by
  unfold nodesOf
  simp only [has_iff, List.mem_map, List.mem_filter, beq_iff_eq]
  constructor
  · rintro ⟨⟨_, _⟩, ⟨h, rfl⟩, rfl⟩
    exact h
  · intro h
    exact ⟨_, ⟨h, rfl⟩, rfl⟩

theorem nodup_nodesOf (h : s.pairs.Nodup) : (s.nodesOf o).Nodup := by
  unfold nodesOf
  refine (List.nodup_map_iff_inj_on (h.filter _)).mpr fun x hx y hy heq => Prod.ext heq ?_
  have hx := (List.mem_filter.mp hx).2
  have hy := (List.mem_filter.mp hy).2
  rw [eq_of_beq hx, eq_of_beq hy]

/-- Where no subscription is held twice, an observer has as many as there are nodes that it
observes. -/
theorem encard_has (h : s.pairs.Nodup) : {n | s.has o n = true}.encard = s.count o := by
  have hset : {n | s.has o n = true} = ↑(s.nodesOf o).toFinset := by
    ext n
    rw [Set.mem_ofPred_eq, Finset.mem_coe, List.mem_toFinset, mem_nodesOf]
  rw [hset, Set.encard_coe_eq_coe_finsetCard, List.toFinset_card_of_nodup (nodup_nodesOf h),
    length_nodesOf]

/-! ## When an observer joined -/

/-- The call at a position subscribes an observer that was not subscribed. -/
def Joins (calls : List Call) (o : ObserverId) (n : NodeId) (i : Nat) : Prop :=
  calls[i]? = some (.subscribe o n) ∧ ((after (calls.take i)).subscribe o n).1 = true

/-- **The last time an observer subscribed** and had not been subscribed before. -/
def Latest (calls : List Call) (o : ObserverId) (n : NodeId) (i : Nat) : Prop :=
  Joins calls o n i ∧ ∀ j, Joins calls o n j → j ≤ i

theorem Joins.lt (h : Joins calls o n i) : i < calls.length :=
  (List.getElem?_eq_some_iff.mp h.1).1

theorem joins_concat : Joins (calls ++ [c]) o n i ↔ Joins calls o n i ∨
    i = calls.length ∧ c = .subscribe o n ∧ (after calls).has o n = false := by
  unfold Joins
  rcases Nat.lt_trichotomy i calls.length with hi | hi | hi
  · rw [List.getElem?_append_left hi, List.take_append_of_le_length (Nat.le_of_lt hi)]
    have hne : i ≠ calls.length := Nat.ne_of_lt hi
    simp only [hne, false_and, or_false]
  · subst hi
    rw [List.getElem?_concat_length, List.take_left, subscribe_fst, Option.some_inj,
      List.getElem?_eq_none (Nat.le_refl _)]
    simp
  · have hnone : (calls ++ [c])[i]? = none := by
      apply List.getElem?_eq_none
      rw [List.length_append, List.length_singleton]
      omega
    have hcalls : calls[i]? = none := List.getElem?_eq_none (Nat.le_of_lt hi)
    have hne : i ≠ calls.length := Nat.ne_of_gt hi
    rw [hnone, hcalls]
    simp [hne]

/-- A call that joins is the latest one. -/
theorem latest_concat_self (h : (after calls).has o n = false) :
    Latest (calls ++ [.subscribe o n]) o n i ↔ i = calls.length := by
  have hlast : Joins (calls ++ [.subscribe o n]) o n calls.length :=
    joins_concat.mpr (.inr ⟨rfl, rfl, h⟩)
  constructor
  · intro hi
    have hle := hi.2 _ hlast
    have hlt := hi.1.lt
    rw [List.length_append, List.length_singleton] at hlt
    omega
  · rintro rfl
    refine ⟨hlast, fun j hj => ?_⟩
    have hlt := hj.lt
    rw [List.length_append, List.length_singleton] at hlt
    omega

/-- Every other call leaves it where it is. -/
theorem latest_concat_of_not (h : ¬ (c = .subscribe o n ∧ (after calls).has o n = false)) :
    Latest (calls ++ [c]) o n i ↔ Latest calls o n i := by
  have hjoins : ∀ j, Joins (calls ++ [c]) o n j ↔ Joins calls o n j := by
    intro j
    rw [joins_concat]
    exact or_iff_left fun hj => h hj.2
  unfold Latest
  simp only [hjoins]

/-! ## The order of the observers -/

/-- Every one of them has joined, and they stand in the order in which they did. -/
def InOrder (calls : List Call) (n : NodeId) (os : List ObserverId) : Prop :=
  (∀ o ∈ os, ∃ i, Latest calls o n i) ∧
    os.Pairwise fun o o' => ∀ i i', Latest calls o n i → Latest calls o' n i' → i < i'

theorem InOrder.sublist {os os' : List ObserverId} (h : InOrder calls n os)
    (hs : os'.Sublist os) : InOrder calls n os' :=
  ⟨fun o ho => h.1 o (hs.subset ho), h.2.sublist hs⟩

theorem InOrder.congr {os : List ObserverId} (h : InOrder calls n os)
    (hc : ∀ o ∈ os, ¬ (c = .subscribe o n ∧ (after calls).has o n = false)) :
    InOrder (calls ++ [c]) n os := by
  constructor
  · intro o ho
    obtain ⟨i, hi⟩ := h.1 o ho
    exact ⟨i, (latest_concat_of_not (hc o ho)).mpr hi⟩
  · refine h.2.imp_of_mem fun {o o'} ho ho' hlt i i' hi hi' => ?_
    rw [latest_concat_of_not (hc o ho)] at hi
    rw [latest_concat_of_not (hc o' ho')] at hi'
    exact hlt i i' hi hi'

/-- Who joins does so after all the others. -/
theorem InOrder.concat {os : List ObserverId} (h : InOrder calls n os) (ho : o ∉ os)
    (hn : (after calls).has o n = false) :
    InOrder (calls ++ [.subscribe o n]) n (os ++ [o]) := by
  have hos : InOrder (calls ++ [.subscribe o n]) n os := by
    refine h.congr fun o' ho' heq => ho ?_
    rw [(Call.subscribe.inj heq.1).1]
    exact ho'
  have hself : ∀ i, Latest (calls ++ [.subscribe o n]) o n i ↔ i = calls.length := fun i =>
    latest_concat_self hn
  constructor
  · intro o' ho'
    rcases List.mem_append.mp ho' with ho' | ho'
    · exact hos.1 o' ho'
    · rw [List.mem_singleton.mp ho']
      exact ⟨calls.length, (hself _).mpr rfl⟩
  · refine List.pairwise_append.mpr ⟨hos.2, List.pairwise_singleton _ _, ?_⟩
    intro o₁ ho₁ o₂ ho₂ i i' hi hi'
    rw [List.mem_singleton.mp ho₂, hself] at hi'
    -- The others joined in the calls before.
    obtain ⟨k, hk⟩ := h.1 o₁ ho₁
    have hne : ¬ (Call.subscribe o n = .subscribe o₁ n ∧ (after calls).has o₁ n = false) := by
      rintro ⟨heq, -⟩
      exact ho ((Call.subscribe.inj heq).1 ▸ ho₁)
    have hlt := ((latest_concat_of_not hne).mp hi).1.lt
    omega

theorem inOrder_observers : InOrder calls n ((after calls).observers n) := by
  induction calls using List.reverseRecOn with
  | nil => exact ⟨by rintro o ⟨⟩, List.Pairwise.nil⟩
  | append_singleton calls c ih =>
    rw [after_concat]
    cases c with
    | subscribe o m =>
      show InOrder _ n (((after calls).subscribe o m).2.observers n)
      rw [observers_subscribe]
      by_cases h : (after calls).has o m = false ∧ m = n
      · obtain ⟨hn, rfl⟩ := h
        rw [if_pos ⟨hn, rfl⟩]
        refine ih.concat (fun ho => ?_) hn
        rw [mem_observers.mp ho] at hn
        exact absurd hn (by simp)
      · -- A call that adds nobody here does not count in the order.
        rw [if_neg h]
        refine ih.congr fun o' _ heq => h ?_
        obtain ⟨rfl, rfl⟩ := Call.subscribe.inj heq.1
        exact ⟨heq.2, rfl⟩
    | unsubscribe o m =>
      show InOrder _ n (((after calls).unsubscribe o m).2.observers n)
      rw [observers_unsubscribe]
      have ih' : InOrder (calls ++ [.unsubscribe o m]) n ((after calls).observers n) :=
        ih.congr fun o' _ heq => by cases heq.1
      by_cases h : m = n
      · rw [if_pos h]
        exact ih'.sublist List.filter_sublist
      · rw [if_neg h]
        exact ih'
    | drop o =>
      show InOrder _ n (((after calls).drop o).2.observers n)
      rw [observers_drop]
      have ih' : InOrder (calls ++ [.drop o]) n ((after calls).observers n) :=
        ih.congr fun o' _ heq => by cases heq.1
      exact ih'.sublist List.filter_sublist

/-! ## Two tables -/

deriving instance Hashable for NodeId, ObserverId

/-- Subscriptions by node and by observer. -/
structure Tables where
  byNode : Std.HashMap NodeId (List ObserverId) := {}
  byObserver : Std.HashMap ObserverId (Std.HashSet NodeId) := {}

namespace Tables

variable {t : Tables} {b : Std.HashMap NodeId (List ObserverId)}

def observers (t : Tables) (n : NodeId) : List ObserverId := t.byNode.getD n []

/-- The nodes of an observer. -/
def nodes (t : Tables) (o : ObserverId) : Std.HashSet NodeId := t.byObserver.getD o {}

def has (t : Tables) (o : ObserverId) (n : NodeId) : Bool := (t.nodes o).contains n

def count (t : Tables) (o : ObserverId) : Nat := (t.nodes o).size

/-- Takes an observer off the list of a node. A list that becomes empty is thrown away. -/
def strike (o : ObserverId) (b : Std.HashMap NodeId (List ObserverId)) (n : NodeId) :
    Std.HashMap NodeId (List ObserverId) :=
  b.alter n fun os => (os.map (·.filter (· != o))).filter (!·.isEmpty)

def subscribe (t : Tables) (o : ObserverId) (n : NodeId) : Bool × Tables :=
  if t.has o n then (false, t)
  else (true, {
    byNode := t.byNode.insert n (t.observers n ++ [o])
    byObserver := t.byObserver.insert o ((t.nodes o).insert n) })

def unsubscribe (t : Tables) (o : ObserverId) (n : NodeId) : Bool × Tables :=
  if t.has o n then (true, {
    byNode := strike o t.byNode n
    byObserver := t.byObserver.insert o ((t.nodes o).erase n) })
  else (false, t)

/-- Goes through the nodes of the observer, in whatever order the set gives them. -/
def drop (t : Tables) (o : ObserverId) : Nat × Tables :=
  match t.byObserver[o]? with
  | none => (0, t)
  | some ns => (ns.size, {
    byNode := ns.toList.foldl (strike o) t.byNode
    byObserver := t.byObserver.erase o })

def make (t : Tables) : Call → Tables
  | .subscribe o n => (t.subscribe o n).2
  | .unsubscribe o n => (t.unsubscribe o n).2
  | .drop o => (t.drop o).2

def after (calls : List Call) : Tables := calls.foldl make {}

/-! ### One table after a write -/

theorem getD_strike : (strike o b n).getD m [] =
    if n = m then (b.getD m []).filter (· != o) else b.getD m [] := by
  unfold strike
  rw [Std.HashMap.getD_alter]
  by_cases h : n = m
  · subst h
    rw [if_pos (beq_self_eq_true n), if_pos rfl, Std.HashMap.getD_eq_getD_getElem?]
    cases b[n]? with
    | none => rfl
    | some os =>
      show (Option.filter _ (some (os.filter _))).getD [] = os.filter _
      rw [Option.filter_some]
      cases os.filter (· != o) <;> rfl
  · rw [if_neg h, if_neg (by simpa using h)]

theorem getD_foldl_strike (ns : List NodeId) : (ns.foldl (strike o) b).getD m [] =
    if m ∈ ns then (b.getD m []).filter (· != o) else b.getD m [] := by
  induction ns generalizing b with
  | nil => simp
  | cons n ns ih =>
    rw [List.foldl_cons, ih, getD_strike]
    by_cases h : n = m
    · subst h
      simp
    · have hm : m ≠ n := fun heq => h heq.symm
      simp [h, hm]

theorem getElem?_strike_ne (h : b[m]? ≠ some []) : (strike o b n)[m]? ≠ some [] := by
  unfold strike
  rw [Std.HashMap.getElem?_alter]
  by_cases hn : n = m
  · rw [if_pos (by simpa using hn)]
    intro hsome
    have := (Option.filter_eq_some_iff.mp hsome).2
    simp at this
  · rw [if_neg (by simpa using hn)]
    exact h

theorem byNode_drop : (t.drop o).2.byNode = (t.nodes o).toList.foldl (strike o) t.byNode := by
  unfold drop nodes
  rw [Std.HashMap.getD_eq_getD_getElem?]
  cases t.byObserver[o]? with
  | none => simp
  | some ns => rfl

theorem nodes_drop : (t.drop o).2.nodes o' = if o = o' then {} else t.nodes o' := by
  unfold drop nodes
  cases h : t.byObserver[o]? with
  | none =>
    by_cases ho : o = o'
    · subst ho
      rw [if_pos rfl, Std.HashMap.getD_eq_getD_getElem?]
      show t.byObserver[o]?.getD {} = {}
      rw [h]
      rfl
    · rw [if_neg ho]
  | some ns =>
    show (t.byObserver.erase o).getD o' {} = _
    rw [Std.HashMap.getD_erase]
    simp only [beq_iff_eq]

/-! ### Both tables -/

/-- The tables say what the pairs say, and no list in them is empty. -/
structure Represents (t : Tables) (s : Subscriptions) : Prop where
  observers (n : NodeId) : t.observers n = s.observers n
  has (o : ObserverId) (n : NodeId) : t.has o n = s.has o n
  filled (n : NodeId) : t.byNode[n]? ≠ some []

namespace Represents

variable (h : Represents t s)

include h

theorem count (hs : s.pairs.Nodup) : t.count o = s.count o := by
  have hperm : (t.nodes o).toList.Perm (s.nodesOf o) := by
    refine (List.perm_ext_iff_of_nodup ?_ (nodup_nodesOf hs)).mpr fun n => ?_
    · exact (t.nodes o).distinct_toList.imp fun hne heq => by simp [heq] at hne
    · rw [Std.HashSet.mem_toList, mem_nodesOf, ← h.has]
      exact Std.HashSet.contains_iff_mem.symm
  rw [← length_nodesOf, ← hperm.length_eq]
  exact Std.HashSet.length_toList.symm

theorem subscribe_fst : (t.subscribe o n).1 = (s.subscribe o n).1 := by
  unfold Tables.subscribe Subscriptions.subscribe
  rw [h.has]
  split <;> rfl

theorem subscribe : Represents (t.subscribe o n).2 (s.subscribe o n).2 := by
  unfold Tables.subscribe
  rw [h.has]
  by_cases hn : s.has o n = true
  · rw [if_pos hn]
    unfold Subscriptions.subscribe
    rw [if_pos hn]
    exact h
  · rw [if_neg hn]
    constructor
    · intro m
      rw [observers_subscribe]
      show (t.byNode.insert n (t.observers n ++ [o])).getD m [] = _
      rw [Std.HashMap.getD_insert, h.observers]
      by_cases hm : n = m
      · subst hm
        simp [hn]
      · rw [if_neg (by simpa using hm), if_neg fun hx => hm hx.2]
        exact h.observers m
    · intro o' m
      rw [Bool.eq_iff_iff, has_subscribe, ← h.has]
      show ((t.byObserver.insert o ((t.nodes o).insert n)).getD o' {}).contains m = true ↔ _
      rw [Std.HashMap.getD_insert]
      by_cases ho : o = o'
      · subst ho
        rw [if_pos (beq_self_eq_true o), Std.HashSet.contains_insert, Bool.or_eq_true, beq_iff_eq,
          or_comm]
        exact or_congr Iff.rfl ⟨fun hm => ⟨rfl, hm.symm⟩, fun hm => hm.2.symm⟩
      · rw [if_neg (by simpa using ho)]
        exact (or_iff_left fun hx => ho hx.1.symm).symm
    · -- No list that is kept is empty.
      intro m
      show (t.byNode.insert n (t.observers n ++ [o]))[m]? ≠ _
      rw [Std.HashMap.getElem?_insert]
      by_cases hm : n = m
      · rw [if_pos (by simpa using hm)]
        simp
      · rw [if_neg (by simpa using hm)]
        exact h.filled m

theorem unsubscribe_fst : (t.unsubscribe o n).1 = (s.unsubscribe o n).1 := by
  unfold Tables.unsubscribe Subscriptions.unsubscribe
  rw [h.has]
  cases s.has o n <;> rfl

theorem unsubscribe : Represents (t.unsubscribe o n).2 (s.unsubscribe o n).2 := by
  unfold Tables.unsubscribe
  rw [h.has]
  by_cases hn : s.has o n = true
  · rw [if_pos hn]
    constructor
    · intro m
      rw [observers_unsubscribe, ← h.observers]
      exact getD_strike
    · intro o' m
      rw [Bool.eq_iff_iff, has_unsubscribe, ← h.has]
      show ((t.byObserver.insert o ((t.nodes o).erase n)).getD o' {}).contains m = true ↔ _
      rw [Std.HashMap.getD_insert]
      by_cases ho : o = o'
      · subst ho
        rw [if_pos (beq_self_eq_true o), Std.HashSet.contains_erase, Bool.and_eq_true, and_comm,
          Bool.not_eq_true', beq_eq_false_iff_ne]
        exact and_congr_right fun _ => ⟨fun hm hx => hm hx.2.symm, fun hm hx => hm ⟨rfl, hx.symm⟩⟩
      · rw [if_neg (by simpa using ho)]
        exact (and_iff_left fun hx => ho hx.1.symm).symm
    · exact fun m => getElem?_strike_ne (h.filled m)
  · rw [if_neg hn]
    -- Nobody is taken off any list.
    constructor
    · intro m
      rw [observers_unsubscribe, h.observers]
      by_cases hm : n = m
      · rw [if_pos hm, filter_ne_eq_self]
        intro ho
        rw [← hm] at ho
        exact hn (mem_observers.mp ho)
      · rw [if_neg hm]
    · intro o' m
      rw [Bool.eq_iff_iff, has_unsubscribe, h.has]
      refine (and_iff_left_of_imp fun hm hx => hn ?_).symm
      rw [← hx.1, ← hx.2]
      exact hm
    · exact h.filled

theorem drop_fst (hs : s.pairs.Nodup) : (t.drop o).1 = (s.drop o).1 := by
  refine Eq.trans ?_ (h.count hs)
  unfold Tables.drop Tables.count nodes
  rw [Std.HashMap.getD_eq_getD_getElem?]
  cases t.byObserver[o]? <;> rfl

theorem drop : Represents (t.drop o).2 (s.drop o).2 := by
  have hnodes : ∀ m, m ∈ (t.nodes o).toList ↔ o ∈ s.observers m := by
    intro m
    rw [Std.HashSet.mem_toList, mem_observers, ← h.has]
    exact Std.HashSet.contains_iff_mem.symm
  constructor
  · intro m
    unfold Tables.observers
    have hm : t.byNode.getD m [] = s.observers m := h.observers m
    rw [byNode_drop, getD_foldl_strike, observers_drop, hm]
    -- The observer is struck from the lists of the nodes that it observed, and is in no other.
    by_cases ho : o ∈ s.observers m
    · rw [if_pos ((hnodes m).mpr ho)]
    · rw [if_neg fun hx => ho ((hnodes m).mp hx), filter_ne_eq_self ho]
  · intro o' m
    rw [Bool.eq_iff_iff, has_drop, ← h.has]
    unfold Tables.has
    rw [nodes_drop]
    by_cases ho : o = o'
    · subst ho
      simp
    · rw [if_neg ho]
      exact (and_iff_right fun hx => ho hx.symm).symm
  · intro m
    rw [byNode_drop]
    generalize (t.nodes o).toList = ns
    have hfilled := h.filled
    generalize t.byNode = b at hfilled
    induction ns generalizing b with
    | nil => exact hfilled m
    | cons n ns ih => exact ih _ fun m => getElem?_strike_ne (hfilled m)

theorem make (c : Call) : Represents (t.make c) (c.make s) := by
  cases c with
  | subscribe o n => exact h.subscribe
  | unsubscribe o n => exact h.unsubscribe
  | drop o => exact h.drop

end Represents

theorem represents_after : Represents (after calls) (Subscriptions.after calls) := by
  -- From the right, for a call is made on what the calls before it left.
  induction calls using List.reverseRecOn with
  | nil =>
    constructor
    · intro n
      exact Std.HashMap.getD_empty
    · intro o n
      have hnodes : (after []).nodes o = {} := Std.HashMap.getD_empty
      unfold has
      rw [hnodes]
      exact Std.HashSet.contains_empty
    · intro n
      show (∅ : Std.HashMap NodeId (List ObserverId))[n]? ≠ _
      rw [Std.HashMap.getElem?_empty]
      simp
  | append_singleton calls c ih =>
    have hafter : after (calls ++ [c]) = (after calls).make c := List.foldl_concat _ _ _ _
    rw [hafter, after_concat]
    exact ih.make c

/-- The same answers to every question and every call. -/
structure Agrees (t : Tables) (s : Subscriptions) : Prop where
  observers (n : NodeId) : t.observers n = s.observers n
  has (o : ObserverId) (n : NodeId) : t.has o n = s.has o n
  count (o : ObserverId) : t.count o = s.count o
  subscribe (o : ObserverId) (n : NodeId) : (t.subscribe o n).1 = (s.subscribe o n).1
  unsubscribe (o : ObserverId) (n : NodeId) : (t.unsubscribe o n).1 = (s.unsubscribe o n).1
  drop (o : ObserverId) : (t.drop o).1 = (s.drop o).1

theorem Represents.agrees (h : Represents t s) (hs : s.pairs.Nodup) : Agrees t s where
  observers := h.observers
  has := h.has
  count _ := h.count hs
  subscribe _ _ := h.subscribe_fst
  unsubscribe _ _ := h.unsubscribe_fst
  drop _ := h.drop_fst hs

end Tables

/-! ## After any calls -/

/-- **Subscriptions after any calls.** Who observes a node is in the list of its observers, once,
and the list is in the order in which they joined last. An observer counts the nodes that it
observes. To subscribe and to unsubscribe tell whether that changed anything, and to drop an
observer tells how many nodes it observed and leaves the other observers as they stand. Two tables
that are kept through the same calls give the same answers. -/
theorem answers_after (calls : List Call) :
    (∀ o n, o ∈ (after calls).observers n ↔ (after calls).has o n = true) ∧
    (∀ n, ((after calls).observers n).Nodup ∧ InOrder calls n ((after calls).observers n)) ∧
    (∀ o, {n | (after calls).has o n = true}.encard = (after calls).count o) ∧
    (∀ o n, ((after calls).subscribe o n).2.has o n = true ∧
      (((after calls).subscribe o n).1 = true ↔
        ((after calls).subscribe o n).2.has o n ≠ (after calls).has o n)) ∧
    (∀ o n, ((after calls).unsubscribe o n).2.has o n = false ∧
      (((after calls).unsubscribe o n).1 = true ↔
        ((after calls).unsubscribe o n).2.has o n ≠ (after calls).has o n)) ∧
    (∀ o, ((after calls).drop o).1 = (after calls).count o ∧
      (∀ n, ((after calls).drop o).2.observers n = ((after calls).observers n).filter (· != o)) ∧
      ∀ o' n, ((after calls).drop o).2.has o' n = true ↔
        o' ≠ o ∧ (after calls).has o' n = true) ∧
    (Tables.after calls).Agrees (after calls) := by
  have hnodup : (after calls).pairs.Nodup := nodup_after
  refine ⟨?_, ?_, ?_, ?_, ?_, ?_, ?_⟩
  · intro o n
    exact mem_observers
  · intro n
    exact ⟨nodup_observers hnodup, inOrder_observers⟩
  · intro o
    exact encard_has hnodup
  · intro o n
    refine ⟨has_subscribe_self, ?_⟩
    rw [has_subscribe_self, subscribe_fst]
    cases (after calls).has o n <;> simp
  · intro o n
    refine ⟨has_unsubscribe_self, ?_⟩
    rw [has_unsubscribe_self]
    show (after calls).has o n = true ↔ _
    cases (after calls).has o n <;> simp
  · intro o
    exact ⟨rfl, fun n => observers_drop, fun o' n => has_drop⟩
  · exact Tables.represents_after.agrees hnodup

/-- Who comes back stands last. -/
example : (after [.subscribe ⟨0⟩ ⟨7⟩, .subscribe ⟨1⟩ ⟨7⟩, .subscribe ⟨0⟩ ⟨7⟩,
    .unsubscribe ⟨0⟩ ⟨7⟩, .subscribe ⟨0⟩ ⟨7⟩]).observers ⟨7⟩ = [⟨1⟩, ⟨0⟩] := by
  decide

end TrackedGraph.Subscriptions
