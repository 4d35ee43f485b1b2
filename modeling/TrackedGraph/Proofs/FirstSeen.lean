/-
Lists in order of first mention.

`FirstSeen.ofList` goes through a list and keeps what it has not met yet. What comes of it is
said here without going through anything: the same elements, each once, and one before another if
it is mentioned before it (`FirstSeen.Lists`). Such a list is also what is left of a longer one
when some elements are no longer wanted, whether they are struck off before or after
(`FirstSeen.filter_ofList`).

The inductions are from the right, as that is where elements are added.
-/
import TrackedGraph.FirstSeen
import Mathlib.Data.List.Induction
import Mathlib.Data.List.Nodup

set_option autoImplicit false

namespace TrackedGraph.FirstSeen

variable {α : Type} [DecidableEq α] {xs ys l : List α} {x y : α}

/-- The list `l` has what `ys` mentions, once each, in order of first mention. -/
structure Lists (ys l : List α) : Prop where
  mem : ∀ x, x ∈ l ↔ x ∈ ys
  order : l.Pairwise (ys.idxOf · < ys.idxOf ·)

theorem Lists.nodup (h : Lists ys l) : l.Nodup := by
  apply h.order.imp
  intro a b hlt heq
  rw [heq] at hlt
  exact absurd hlt (Nat.lt_irrefl _)

theorem add_of_mem (h : x ∈ xs) : add xs x = xs := if_pos h

theorem add_of_not_mem (h : x ∉ xs) : add xs x = xs ++ [x] := if_neg h

theorem addAll_concat (xs ys : List α) (y : α) :
    addAll xs (ys ++ [y]) = add (addAll xs ys) y := List.foldl_concat ..

theorem addAll_append (xs ys zs : List α) :
    addAll xs (ys ++ zs) = addAll (addAll xs ys) zs := List.foldl_append

theorem ofList_concat (ys : List α) (y : α) : ofList (ys ++ [y]) = add (ofList ys) y :=
  addAll_concat [] ys y

theorem ofList_append (ys zs : List α) : ofList (ys ++ zs) = addAll (ofList ys) zs :=
  addAll_append [] ys zs

/-- **The elements of a list in order of first mention.** -/
theorem lists_ofList (ys : List α) : Lists ys (ofList ys) := by
  refine ⟨fun _ => mem_ofList, ?_⟩
  induction ys using List.reverseRecOn with
  | nil => exact .nil
  | append_singleton ys y ih =>
    -- Where an element is mentioned first does not depend on what follows.
    have hbefore : ∀ a ∈ ofList ys, (ys ++ [y]).idxOf a = ys.idxOf a := by
      intro a ha
      exact List.idxOf_append_of_mem (mem_ofList.mp ha)
    have hkept : (ofList ys).Pairwise ((ys ++ [y]).idxOf · < (ys ++ [y]).idxOf ·) := by
      apply ih.imp_of_mem
      intro a b ha hb hlt
      rwa [hbefore a ha, hbefore b hb]
    rw [ofList_concat]
    by_cases hy : y ∈ ofList ys
    · rwa [add_of_mem hy]
    · rw [add_of_not_mem hy, List.pairwise_append]
      refine ⟨hkept, List.pairwise_singleton _ _, ?_⟩
      intro a ha b hb
      obtain rfl := List.mem_singleton.mp hb
      have hlast : (ys ++ [b]).idxOf b = ys.length := by
        rw [List.idxOf_append_of_notMem fun h => hy (mem_ofList.mpr h)]
        simp
      rw [hlast, hbefore a ha]
      exact List.idxOf_lt_length_of_mem (mem_ofList.mp ha)

/-- Adding elements appends those that are new, in order of first mention. -/
theorem addAll_eq (xs ys : List α) : addAll xs ys = xs ++ (ofList ys).filter (· ∉ xs) := by
  induction ys using List.reverseRecOn with
  | nil => simp [addAll, ofList]
  | append_singleton ys y ih =>
    rw [addAll_concat, ofList_concat]
    by_cases hys : y ∈ ys
    · rw [add_of_mem (mem_addAll.mpr (.inr hys)), add_of_mem (mem_ofList.mpr hys), ih]
    · rw [add_of_not_mem (mt mem_ofList.mp hys), List.filter_append, ← List.append_assoc, ← ih]
      by_cases hxs : y ∈ xs
      · rw [add_of_mem (mem_addAll.mpr (.inl hxs))]
        simp [hxs]
      · rw [add_of_not_mem (by rw [mem_addAll, not_or]; exact ⟨hxs, hys⟩)]
        simp [hxs]

/-- Elements may be struck off before or after. -/
theorem filter_ofList (q : α → Bool) (ys : List α) :
    (ofList ys).filter q = ofList (ys.filter q) := by
  induction ys using List.reverseRecOn with
  | nil => rfl
  | append_singleton ys y ih =>
    rw [ofList_concat, List.filter_append]
    cases hq : q y with
    | false =>
      have hstruck : (ofList ys ++ [y]).filter q = (ofList ys).filter q := by simp [hq]
      rw [List.filter_singleton, hq, Bool.cond_false, List.append_nil, ← ih]
      unfold add
      split
      · rfl
      · exact hstruck
    | true =>
      rw [List.filter_singleton, hq, Bool.cond_true, ofList_concat, ← ih]
      by_cases hy : y ∈ ofList ys
      · rw [add_of_mem hy, add_of_mem (List.mem_filter.mpr ⟨hy, hq⟩)]
      · rw [add_of_not_mem hy, add_of_not_mem fun h => hy (List.mem_filter.mp h).1,
          List.filter_append, List.filter_singleton, hq, Bool.cond_true]

/-- A list without repeats is in order of first mention. -/
theorem ofList_of_nodup (h : ys.Nodup) : ofList ys = ys := by
  induction ys using List.reverseRecOn with
  | nil => rfl
  | append_singleton ys y ih =>
    obtain ⟨hys, -, hne⟩ := List.nodup_append.mp h
    have hy : y ∉ ys := fun hy => hne y hy y (List.mem_singleton_self y) rfl
    rw [ofList_concat, ih hys, add_of_not_mem hy]

/-- What is left of a list without repeats is told by what is left. -/
theorem filter_mem_of_sublist (h : xs.Sublist ys) (hn : ys.Nodup) :
    ys.filter (· ∈ xs) = xs := by
  induction h with
  | slnil => rfl
  | cons a h ih =>
    obtain ⟨ha, hn⟩ := List.nodup_cons.mp hn
    rw [List.filter_cons_of_neg (by simpa using fun hmem => ha (h.subset hmem)), ih hn]
  | cons_cons a h ih =>
    obtain ⟨ha, hn⟩ := List.nodup_cons.mp hn
    rw [List.filter_cons_of_pos (by simp)]
    congr 1
    refine Eq.trans (List.filter_congr ?_) (ih hn)
    intro b hb
    -- The first element does not come again.
    have hne : b ≠ a := fun heq => ha (heq ▸ hb)
    simp [hne]

end TrackedGraph.FirstSeen
