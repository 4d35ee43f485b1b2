/-
The rewrites that edits make.

There are four: something is taken out of a slot, something is put in, the contents are
put in another order, or everything is replaced. What makes them sound is said here in
terms of what the slot claims before and after; the files on the edits only have to say
which of the four an edit is.
-/
import TrackedGraph.Proofs.Forest.Sound
import TrackedGraph.Document.Edit
import Mathlib.Data.List.InsertIdx
import Mathlib.Data.List.Perm.Basic

set_option autoImplicit false

namespace TrackedGraph

/-! ## Positions -/

section positions

variable {α : Type} {l : List α} {i : Nat} {a : α}

theorem eq_take_cons_drop (h : l[i]? = some a) : l = l.take i ++ a :: l.drop (i + 1) := by
  obtain ⟨hi, rfl⟩ := List.getElem?_eq_some_iff.mp h
  rw [← List.drop_eq_getElem_cons hi, List.take_append_drop]

theorem insertIdx_eq_take_cons_drop (h : i ≤ l.length) :
    l.insertIdx i a = l.take i ++ a :: l.drop i := by
  induction l generalizing i with
  | nil =>
    obtain rfl := Nat.le_zero.mp h
    rfl
  | cons b l ih =>
    cases i with
    | zero => rfl
    | succ i =>
      rw [List.insertIdx_succ_cons, ih (Nat.le_of_succ_le_succ h)]
      rfl

theorem insertIdx_eraseIdx_of_getElem? (h : l[i]? = some a) :
    (l.eraseIdx i).insertIdx i a = l := by
  obtain ⟨hi, rfl⟩ := List.getElem?_eq_some_iff.mp h
  exact List.insertIdx_eraseIdx_getElem hi

end positions

namespace Forest

variable {strict : Prop} {f : Forest} {n c : NodeId} {p q : PropertyId} {g : Feature} {s : Slot}
  {old new : Slot} {A B C : List (NodeId × PropertyId)}

/-! ## The four rewrites -/

/-- What leaves a slot frees its children. -/
theorem rewrite_out (hl : strict → f.Linked) (hg : f.feature n p = .ok g) (ho : g.owner = none)
    (hs : f.slot n p = .ok old) (hfits : f.SlotFits n p g new)
    (hold : f.claims n p old.value = A ++ (B ++ C)) (hnew : f.claims n p new.value = A ++ C) :
    f.Rewrite strict n p g old new (B.map Prod.fst) [] := by
  have honce : strict → ((A ++ (B ++ C)).map Prod.fst).Nodup := by
    intro h
    rw [← hold]
    exact (hl h).once n p old hs
  refine ⟨hg, ho, hs, hfits, List.nodup_nil, by simp, by simp, fun h => ?_, by simp, fun _ x hx => ?_,
    fun h c => ?_, fun c hc hn => ?_⟩
  · rw [hnew]
    refine (honce h).sublist (List.Sublist.map _ ?_)
    exact List.Sublist.append_left (List.sublist_append_right B C) A
  · rw [hnew] at hx
    rw [hold]
    rcases List.mem_append.mp hx with hx | hx
    · exact .inr (List.mem_append_left _ hx)
    · exact .inr (List.mem_append_right _ (List.mem_append_right _ hx))
  · -- No child is claimed twice, so those who are freed are not claimed by the rest.
    rw [hold, hnew]
    have hd := honce h
    simp only [List.map_append] at hd ⊢
    obtain ⟨-, hBC, hA⟩ := List.nodup_append.mp hd
    obtain ⟨-, -, hB⟩ := List.nodup_append.mp hBC
    simp only [List.mem_append]
    constructor
    · intro hc
      refine ⟨.inr (.inl hc), ?_⟩
      rintro (hcA | hcC)
      · exact hA c hcA c (List.mem_append_left _ hc) rfl
      · exact hB c hc c hcC rfl
    · rintro ⟨hc | hc | hc, hn⟩
      · exact absurd (.inl hc) hn
      · exact hc
      · exact absurd (.inr hc) hn
  · rw [hold] at hc
    rw [hnew] at hn
    simp only [List.map_append, List.mem_append, not_or] at hc hn
    exact (hc.resolve_left hn.1).resolve_right hn.2

/-- What comes into a slot takes its children in, which sit nowhere if `strict`. -/
theorem Sound.rewrite_in (hf : f.Sound strict) (hg : f.feature n p = .ok g) (ho : g.owner = none)
    (hs : f.slot n p = .ok old) (hfits : f.SlotFits n p g new)
    (hold : f.claims n p old.value = A ++ C) (hnew : f.claims n p new.value = A ++ (B ++ C))
    (hd : (B.map Prod.fst).Nodup) (hup : ∀ x ∈ B, ¬ f.Within n x.1)
    (hfree : strict → ∀ x ∈ B, f.place? x.1 = none) :
    f.Rewrite strict n p g old new [] B := by
  refine ⟨hg, ho, hs, hfits, hd, fun x hx => ?_, hup, fun h => ?_,
    fun h x hx => .inl (hfree h x hx), fun _ x hx => ?_, fun _ c => ?_, fun c hc hn => ?_⟩
  · rw [hnew]
    exact List.mem_append_right _ (List.mem_append_left _ hx)
  · have honce := (hf.linked h).once n p old hs
    rw [hnew]
    rw [hold] at honce
    -- A child that sits nowhere is claimed by no slot.
    have hapart : ∀ x ∈ B, ∀ y ∈ A ++ C, x.1 ≠ y.1 := by
      rintro x hx ⟨_, q⟩ hy rfl
      have := (hf.linked h).placed n p old _ q hs (by rw [hold]; exact hy)
      rw [hfree h x hx] at this
      exact absurd this (by simp)
    simp only [List.map_append] at honce ⊢
    obtain ⟨hA, hC, hAC⟩ := List.nodup_append.mp honce
    refine List.nodup_append.mpr ⟨hA, List.nodup_append.mpr ⟨hd, hC, ?_⟩, ?_⟩
    · rintro a ha b hb rfl
      obtain ⟨x, hx, rfl⟩ := List.mem_map.mp ha
      obtain ⟨y, hy, heq⟩ := List.mem_map.mp hb
      exact hapart x hx y (List.mem_append_right _ hy) heq.symm
    · rintro a ha b hb rfl
      rcases List.mem_append.mp hb with hb | hb
      · obtain ⟨x, hx, heq⟩ := List.mem_map.mp hb
        obtain ⟨y, hy, rfl⟩ := List.mem_map.mp ha
        exact hapart x hx y (List.mem_append_left _ hy) heq
      · exact hAC a ha a hb rfl
  · rw [hnew] at hx
    rw [hold]
    rcases List.mem_append.mp hx with hx | hx
    · exact .inr (List.mem_append_left _ hx)
    · rcases List.mem_append.mp hx with hx | hx
      · exact .inl hx
      · exact .inr (List.mem_append_right _ hx)
  · rw [hold, hnew]
    simp only [List.map_append, List.mem_append]
    constructor
    · intro hc
      exact absurd hc (by simp)
    · rintro ⟨hc | hc, hn⟩
      · exact absurd (.inl hc) hn
      · exact absurd (.inr (.inr hc)) hn
  · rw [hold] at hc
    rw [hnew] at hn
    simp only [List.map_append, List.mem_append, not_or] at hc hn
    exact absurd (hc.resolve_left hn.1) hn.2.2

/-- Another order moves no child. -/
theorem Sound.rewrite_order (hf : f.Sound strict) (hg : f.feature n p = .ok g)
    (ho : g.owner = none) (hs : f.slot n p = .ok old) (hfits : f.SlotFits n p g new)
    (hperm : (f.claims n p new.value).Perm (f.claims n p old.value)) :
    f.Rewrite strict n p g old new [] [] := by
  refine ⟨hg, ho, hs, hfits, List.nodup_nil, by simp, by simp, fun h => ?_, by simp,
    fun _ x hx => .inr (hperm.mem_iff.mp hx), fun _ c => ?_,
    fun c hc hn => absurd ((hperm.map Prod.fst).mem_iff.mpr hc) hn⟩
  · exact (hperm.map Prod.fst).nodup_iff.mpr ((hf.linked h).once n p old hs)
  · rw [(hperm.map Prod.fst).mem_iff]
    simp

/-- The children that one value claims and another does not. -/
def lostChildren (f : Forest) (n : NodeId) (p : PropertyId) (v w : Value) : List NodeId :=
  ((f.claims n p v).map Prod.fst).filter fun c => !((f.claims n p w).map Prod.fst).contains c

theorem mem_lostChildren {v w : Value} : c ∈ f.lostChildren n p v w ↔
    c ∈ (f.claims n p v).map Prod.fst ∧ c ∉ (f.claims n p w).map Prod.fst := by
  simp only [lostChildren, List.mem_filter, Bool.not_eq_true', List.contains_eq_mem,
    decide_eq_false_iff_not]

/-- A value that makes no children keeps none. -/
theorem lostChildren_of_nil {v w : Value} (h : f.claims n p w = []) :
    f.lostChildren n p v w = (f.claims n p v).map Prod.fst := by
  unfold lostChildren
  rw [h]
  exact List.filter_eq_self.mpr fun _ _ => rfl

/-- A new value frees the children that it does not keep, and takes all of its own. If
`strict`, these sit nowhere unless they sat in the slot before. -/
theorem rewrite_all (hg : f.feature n p = .ok g) (ho : g.owner = none)
    (hs : f.slot n p = .ok old) (hfits : f.SlotFits n p g new)
    (hd : ((f.claims n p new.value).map Prod.fst).Nodup)
    (hup : ∀ x ∈ f.claims n p new.value, ¬ f.Within n x.1)
    (hfree : strict → ∀ x ∈ f.claims n p new.value,
      f.place? x.1 = none ∨ x.1 ∈ (f.claims n p old.value).map Prod.fst) :
    f.Rewrite strict n p g old new (f.lostChildren n p old.value new.value)
      (f.claims n p new.value) :=
  ⟨hg, ho, hs, hfits, hd, fun _ hx => hx, hup, fun _ => hd, hfree, fun _ _ hx => .inl hx,
    fun _ _ => mem_lostChildren, fun _ hc hn => mem_lostChildren.mpr ⟨hc, hn⟩⟩

/-- A value that fits may be set, and an empty list or sequence counts as unset. -/
theorem Fits.slotFits {v : Value} (h : f.Fits n p g v) : f.SlotFits n p g ⟨v, !g.many || !v.isEmpty⟩ := by
  refine ⟨fun hset => ?_, fun _ => h, fun hset hm => by simpa [hm] using hset⟩
  simp only [Bool.or_eq_false_iff, Bool.not_eq_false'] at hset
  obtain ⟨hm, he⟩ := hset
  unfold Property.restValue
  cases hx : g.isMixed with
  | true =>
    obtain ⟨entries, rfl, -⟩ := (fits_mixed hx).mp h
    cases entries with
    | nil => rfl
    | cons e es => exact absurd he (by simp [Value.isEmpty, Value.size])
  | false =>
    obtain ⟨items, rfl, -⟩ := (fits_list hx hm).mp h
    cases items with
    | nil => simp [hm]
    | cons e es => exact absurd he (by simp [Value.isEmpty, Value.size])

/-- Where many values are held, holding none is to be unset. -/
theorem fits_restValue_of_many (hm : g.many = true) : f.Fits n p g g.restValue := by
  unfold Property.restValue
  cases hx : g.isMixed with
  | true => exact (fits_mixed hx).mpr ⟨[], rfl, by simp⟩
  | false =>
    rw [if_neg Bool.false_ne_true, if_pos hm]
    exact (fits_list hx hm).mpr ⟨[], rfl, by simp⟩

theorem claims_restValue_of_many (hm : g.many = true) : f.claims n p g.restValue = [] := by
  refine List.eq_nil_iff_forall_not_mem.mpr fun x hx => ?_
  have hc := mem_nodes_of_mem_claims hx
  unfold Property.restValue at hc
  rw [if_pos hm] at hc
  split at hc <;> exact absurd hc (by simp [Value.nodes])

/-! ## Claims of lists and sequences -/

theorem claims_list_append {xs ys : List Value} : f.claims n p (.list (xs ++ ys)) =
    f.claims n p (.list xs) ++ f.claims n p (.list ys) := by
  unfold claims
  cases f.feature n p with
  | error e => rfl
  | ok g =>
    cases hr : g.role with
    | containment =>
      simp only [hr, Value.nodes, List.filterMap_append, List.map_append]
    | _ =>
      simp only [hr]
      rfl

theorem claims_mixed_append {xs ys : MixedContent} : f.claims n p (.mixed (xs ++ ys)) =
    f.claims n p (.mixed xs) ++ f.claims n p (.mixed ys) := by
  unfold claims
  cases f.feature n p with
  | error e => rfl
  | ok g =>
    cases hr : g.role with
    | containment =>
      simp only [hr, Value.nodes, List.filterMap_append, List.map_append]
    | mixed =>
      simp only [hr, Value.entries, Value.mixed?, Option.getD_some, List.filterMap_append]
    | _ =>
      simp only [hr]
      rfl

/-- The child that one item makes. -/
theorem claims_list_singleton {item : Value} (hg : f.feature n p = .ok g)
    (hx : g.isMixed = false) : f.claims n p (.list [item]) =
      (if g.owns then item.node?.toList else []).map (·, p) := by
  cases ho : g.owns with
  | true =>
    rw [claims_of_containment hg ho, if_pos rfl]
    cases item <;> rfl
  | false =>
    rw [claims_of_plain hg ho hx]
    rfl

/-- The child that one entry makes. -/
theorem claims_mixed_singleton {e : Entry Value} {h : Feature} (hg : f.feature n p = .ok g)
    (hx : g.isMixed = true) (hh : f.feature n e.property = .ok h) :
    f.claims n p (.mixed [e]) =
      (if h.owns then e.value.node?.toList else []).map (·, e.property) := by
  have hown : f.ownsAt n e.property = h.owns := by
    unfold ownsAt
    rw [hh]
  rw [claims_of_mixed hg hx]
  simp only [Value.entries, Value.mixed?, Option.getD_some, List.filterMap_cons,
    List.filterMap_nil, entryClaim, hown]
  cases h.owns with
  | true => cases e.value.node? <;> rfl
  | false => rfl

/-! ## Lists -/

section lists

variable {items : List Value} {item : Value} {i j : Nat}

theorem SlotFits.items_accepted (h : f.SlotFits n p g s) (hx : g.isMixed = false) (hm : g.many = true)
    (hv : s.value = .list items) :
    s.isSet = !items.isEmpty ∧ ∀ item ∈ items, f.Accepts n p item := by
  cases hset : s.isSet with
  | true =>
    obtain ⟨items', hv', hall⟩ := (fits_list hx hm).mp (h.fits hset)
    rw [hv, Value.list.injEq] at hv'
    subst hv'
    have hfull := h.full hset hm
    rw [hv] at hfull
    refine ⟨?_, hall⟩
    cases items with
    | nil => exact absurd hfull (by simp [Value.isEmpty, Value.size])
    | cons a l => rfl
  | false =>
    have hrest := h.rest hset
    rw [hv, Property.restValue, if_neg (by simp [hx]), if_pos hm, Value.list.injEq] at hrest
    subst hrest
    exact ⟨rfl, by simp⟩

/-- A list with an item counts as set. -/
theorem SlotFits.isSet_of_item (h : f.SlotFits n p g s) (hx : g.isMixed = false)
    (hm : g.many = true) (hv : s.value = .list items) (hi : item ∈ items) : s.isSet = true := by
  rw [(h.items_accepted hx hm hv).1, List.isEmpty_eq_false_iff.mpr (List.ne_nil_of_mem hi)]
  rfl

theorem slotFits_list (hx : g.isMixed = false) (hm : g.many = true)
    (hall : ∀ item ∈ items, f.Accepts n p item) :
    f.SlotFits n p g ⟨.list items, !items.isEmpty⟩ := by
  refine ⟨fun hset => ?_, fun _ => (fits_list hx hm).mpr ⟨items, rfl, hall⟩, fun hset _ => ?_⟩
  · obtain rfl : items = [] := by simpa using hset
    rw [Property.restValue, if_neg (by simp [hx]), if_pos hm]
  · cases items with
    | nil => exact absurd hset (by simp)
    | cons a l => rfl

/-- Taking an item out of a list. -/
theorem Shaped.rewrite_removeItem (hf : f.Shaped) (hl : strict → f.Linked)
    (hg : f.feature n p = .ok g) (ho : g.owner = none) (hm : g.many = true)
    (hx : g.isMixed = false) (hs : f.slot n p = .ok old) (hv : old.value = .list items)
    (hi : items[i]? = some item) :
    f.Rewrite strict n p g old (old.removeItem i) (if g.owns then item.node?.toList else []) [] := by
  have hnew : old.removeItem i = ⟨.list (items.eraseIdx i), !(items.eraseIdx i).isEmpty⟩ := by
    unfold Slot.removeItem
    rw [hv]
  obtain ⟨items', hv', hall⟩ := (hf.held n p g old hg ho hs).items hx hm
  obtain rfl := Value.list.inj (hv.symm.trans hv')
  have hfreed : (if g.owns then item.node?.toList else []) =
      (f.claims n p (.list [item])).map Prod.fst := by
    rw [claims_list_singleton hg hx, List.map_map]
    exact (List.map_id _).symm
  rw [hnew, hfreed]
  refine rewrite_out hl hg ho hs
    (slotFits_list hx hm fun x hx => hall x (List.mem_of_mem_eraseIdx hx))
    (A := f.claims n p (.list (items.take i))) (C := f.claims n p (.list (items.drop (i + 1))))
    ?_ ?_
  · rw [hv, ← claims_list_append, ← claims_list_append]
    exact congrArg (fun l => f.claims n p (.list l)) (eq_take_cons_drop hi)
  · simp only [← claims_list_append, ← List.eraseIdx_eq_take_drop_succ]

variable (hf : f.Sound strict) (hg : f.feature n p = .ok g) (ho : g.owner = none)
  (hm : g.many = true) (hx : g.isMixed = false) (hs : f.slot n p = .ok old)
  (hv : old.value = .list items)

include hf hg ho hm hx hs hv

/-- Putting an item into a list. -/
theorem Sound.rewrite_insertItem (hi : i ≤ items.length) (ha : f.Accepts n p item)
    (hup : ∀ c, item.node? = some c → g.owns = true → ¬ f.Within n c)
    (hfree : strict → ∀ c, item.node? = some c → g.owns = true → f.place? c = none) :
    f.Rewrite strict n p g old (old.insertItem i item) []
      ((if g.owns then item.node?.toList else []).map (·, p)) := by
  have hins := insertIdx_eq_take_cons_drop (a := item) hi
  have hnew : old.insertItem i item =
      ⟨.list (items.insertIdx i item), !(items.insertIdx i item).isEmpty⟩ := by
    have hne : (items.insertIdx i item).isEmpty = false := by
      rw [hins]
      simp
    unfold Slot.insertItem
    rw [hv, hne]
    rfl
  have hall := ((hf.fits n p g old hg ho hs).items_accepted hx hm hv).2
  have hB : f.claims n p (.list [item]) = (if g.owns then item.node?.toList else []).map (·, p) :=
    claims_list_singleton hg hx
  have hmem : ∀ x ∈ f.claims n p (.list [item]), item.node? = some x.1 ∧ g.owns = true := by
    intro x hx
    rw [hB] at hx
    obtain ⟨c, hc, rfl⟩ := List.mem_map.mp hx
    by_cases how : g.owns = true
    · rw [if_pos how, Option.mem_toList] at hc
      exact ⟨hc, how⟩
    · rw [if_neg how] at hc
      exact absurd hc (by simp)
  rw [hnew, ← hB]
  refine hf.rewrite_in hg ho hs (slotFits_list hx hm fun x hxm => ?_)
    (A := f.claims n p (.list (items.take i))) (C := f.claims n p (.list (items.drop i)))
    ?_ ?_ ?_ (fun x hx => hup x.1 (hmem x hx).1 (hmem x hx).2)
    fun h x hx => hfree h x.1 (hmem x hx).1 (hmem x hx).2
  · rcases (List.mem_insertIdx hi).mp hxm with rfl | hxm
    · exact ha
    · exact hall x hxm
  · rw [hv, ← claims_list_append, List.take_append_drop]
  · rw [hins, ← claims_list_append, ← claims_list_append]
    rfl
  · rw [hB]
    cases item.node? <;> cases g.owns <;> simp

/-- Moving an item within a list. -/
theorem Sound.rewrite_moveItem (hi : items[i]? = some item) (hj : j < items.length) :
    f.Rewrite strict n p g old (old.moveItem i j) [] [] := by
  obtain ⟨hlt, rfl⟩ := List.getElem?_eq_some_iff.mp hi
  have hlen : j ≤ (items.eraseIdx i).length := by
    rw [List.length_eraseIdx_of_lt hlt]
    omega
  have hperm : ((items.eraseIdx i).insertIdx j items[i]).Perm items :=
    (List.perm_insertIdx _ _ hlen).trans (List.getElem_cons_eraseIdx_perm hlt)
  obtain ⟨hset, hall⟩ := (hf.fits n p g old hg ho hs).items_accepted hx hm hv
  have hnew : old.moveItem i j = ⟨.list ((items.eraseIdx i).insertIdx j items[i]),
      !((items.eraseIdx i).insertIdx j items[i]).isEmpty⟩ := by
    unfold Slot.moveItem
    rw [hv]
    simp only [hi]
    rw [hset, hperm.isEmpty_eq]
  rw [hnew]
  refine hf.rewrite_order hg ho hs (slotFits_list hx hm fun x hx => hall x (hperm.mem_iff.mp hx)) ?_
  rw [hv]
  cases how : g.owns with
  | true =>
    rw [claims_of_containment hg how, claims_of_containment hg how]
    exact (hperm.filterMap _).map _
  | false => rw [claims_of_plain hg how hx, claims_of_plain hg how hx]

end lists

/-! ## Sequences -/

section sequences

variable {entries : MixedContent} {e : Entry Value} {h : Feature} {i : Nat}

theorem SlotFits.entries_accepted (hfits : f.SlotFits n p g s) (hx : g.isMixed = true)
    (hm : g.many = true) (hv : s.value = .mixed entries) :
    s.isSet = !entries.isEmpty ∧ ∀ e ∈ entries,
      (∃ h, f.feature n e.property = .ok h ∧ h.owner = some p) ∧
        f.Accepts n e.property e.value := by
  cases hset : s.isSet with
  | true =>
    obtain ⟨entries', hv', hall⟩ := (fits_mixed hx).mp (hfits.fits hset)
    rw [hv, Value.mixed.injEq] at hv'
    subst hv'
    have hfull := hfits.full hset hm
    rw [hv] at hfull
    refine ⟨?_, hall⟩
    cases entries with
    | nil => exact absurd hfull (by simp [Value.isEmpty, Value.size])
    | cons a l => rfl
  | false =>
    have hrest := hfits.rest hset
    rw [hv, Property.restValue, if_pos hx, Value.mixed.injEq] at hrest
    subst hrest
    exact ⟨rfl, by simp⟩

/-- Mixed content with an entry counts as set. -/
theorem SlotFits.isSet_of_entry (hfits : f.SlotFits n p g s) (hx : g.isMixed = true)
    (hm : g.many = true) (hv : s.value = .mixed entries) (he : e ∈ entries) : s.isSet = true := by
  rw [(hfits.entries_accepted hx hm hv).1, List.isEmpty_eq_false_iff.mpr (List.ne_nil_of_mem he)]
  rfl

theorem slotFits_mixed (hx : g.isMixed = true)
    (hall : ∀ e ∈ entries, (∃ h, f.feature n e.property = .ok h ∧ h.owner = some p) ∧
      f.Accepts n e.property e.value) :
    f.SlotFits n p g ⟨.mixed entries, !entries.isEmpty⟩ := by
  refine ⟨fun hset => ?_, fun _ => (fits_mixed hx).mpr ⟨entries, rfl, hall⟩, fun hset _ => ?_⟩
  · obtain rfl : entries = [] := by simpa using hset
    rw [Property.restValue, if_pos hx]
  · cases entries with
    | nil => exact absurd hset (by simp)
    | cons a l => rfl

/-- Taking an entry out of mixed content. -/
theorem Shaped.rewrite_removeEntry (hf : f.Shaped) (hl : strict → f.Linked)
    (hg : f.feature n p = .ok g) (ho : g.owner = none) (hx : g.isMixed = true)
    (hs : f.slot n p = .ok old) (hv : old.value = .mixed entries)
    (hh : f.feature n e.property = .ok h) (hi : entries[i]? = some e) :
    f.Rewrite strict n p g old (old.removeEntry i)
      (if h.owns then e.value.node?.toList else []) [] := by
  have hnew : old.removeEntry i =
      ⟨.mixed (entries.eraseIdx i), !(entries.eraseIdx i).isEmpty⟩ := by
    unfold Slot.removeEntry
    rw [hv]
  obtain ⟨entries', hv', hall⟩ := (hf.held n p g old hg ho hs).entries hx
  obtain rfl := Value.mixed.inj (hv.symm.trans hv')
  have hfreed : (if h.owns then e.value.node?.toList else []) =
      (f.claims n p (.mixed [e])).map Prod.fst := by
    rw [claims_mixed_singleton hg hx hh, List.map_map]
    exact (List.map_id _).symm
  rw [hnew, hfreed]
  refine rewrite_out hl hg ho hs
    (slotFits_mixed hx fun x hx => hall x (List.mem_of_mem_eraseIdx hx))
    (A := f.claims n p (.mixed (entries.take i)))
    (C := f.claims n p (.mixed (entries.drop (i + 1)))) ?_ ?_
  · rw [hv, ← claims_mixed_append, ← claims_mixed_append]
    exact congrArg (fun l => f.claims n p (.mixed l)) (eq_take_cons_drop hi)
  · simp only [← claims_mixed_append, ← List.eraseIdx_eq_take_drop_succ]

variable (hf : f.Sound strict) (hg : f.feature n p = .ok g) (ho : g.owner = none)
  (hm : g.many = true) (hx : g.isMixed = true) (hs : f.slot n p = .ok old)
  (hv : old.value = .mixed entries) (hh : f.feature n e.property = .ok h)

include hf hg ho hm hx hs hv hh

/-- Putting an entry into mixed content. -/
theorem Sound.rewrite_insertEntry (hi : i ≤ entries.length) (hown : h.owner = some p)
    (ha : f.Accepts n e.property e.value)
    (hup : ∀ c, e.value.node? = some c → h.owns = true → ¬ f.Within n c)
    (hfree : strict → ∀ c, e.value.node? = some c → h.owns = true → f.place? c = none) :
    f.Rewrite strict n p g old (old.insertEntry i e) []
      ((if h.owns then e.value.node?.toList else []).map (·, e.property)) := by
  have hins := insertIdx_eq_take_cons_drop (a := e) hi
  have hnew : old.insertEntry i e =
      ⟨.mixed (entries.insertIdx i e), !(entries.insertIdx i e).isEmpty⟩ := by
    have hne : (entries.insertIdx i e).isEmpty = false := by
      rw [hins]
      simp
    unfold Slot.insertEntry
    rw [hv, hne]
    rfl
  have hall := ((hf.fits n p g old hg ho hs).entries_accepted hx hm hv).2
  have hB := claims_mixed_singleton hg hx hh
  have hmem : ∀ x ∈ f.claims n p (.mixed [e]), e.value.node? = some x.1 ∧ h.owns = true := by
    intro x hx
    rw [hB] at hx
    obtain ⟨c, hc, rfl⟩ := List.mem_map.mp hx
    by_cases how : h.owns = true
    · rw [if_pos how, Option.mem_toList] at hc
      exact ⟨hc, how⟩
    · rw [if_neg how] at hc
      exact absurd hc (by simp)
  rw [hnew, ← hB]
  refine hf.rewrite_in hg ho hs (slotFits_mixed hx fun x hxm => ?_)
    (A := f.claims n p (.mixed (entries.take i))) (C := f.claims n p (.mixed (entries.drop i)))
    ?_ ?_ ?_ (fun x hx => hup x.1 (hmem x hx).1 (hmem x hx).2)
    fun h x hx => hfree h x.1 (hmem x hx).1 (hmem x hx).2
  · rcases (List.mem_insertIdx hi).mp hxm with rfl | hxm
    · exact ⟨⟨h, hh, hown⟩, ha⟩
    · exact hall x hxm
  · rw [hv, ← claims_mixed_append, List.take_append_drop]
  · rw [hins, ← claims_mixed_append, ← claims_mixed_append]
    rfl
  · rw [hB]
    cases e.value.node? <;> cases h.owns <;> simp

end sequences

end Forest

end TrackedGraph
