/-
Lists without repeats, in order of first mention.

Several answers list what happened in the order in which each thing was first
seen. `FirstSeen.add` is the one operation that keeps such a list: it appends
what is new and leaves the list alone otherwise. Everything else folds it.
-/
set_option autoImplicit false

namespace TrackedGraph.FirstSeen

variable {α : Type} [DecidableEq α]

/-- Appends an element unless it is there already. -/
def add (xs : List α) (x : α) : List α :=
  if x ∈ xs then xs else xs ++ [x]

/-- Adds every element of the second list, in order. -/
def addAll (xs ys : List α) : List α := ys.foldl add xs

/-- The distinct elements of a list, in order of first mention. -/
def ofList (ys : List α) : List α := addAll [] ys

theorem mem_add {xs : List α} {x y : α} : y ∈ add xs x ↔ y ∈ xs ∨ y = x := by
  unfold add
  split
  · constructor
    · exact Or.inl
    · rintro (h | rfl) <;> assumption
  · simp

theorem nodup_add {xs : List α} (h : xs.Nodup) (x : α) : (add xs x).Nodup := by
  unfold add
  split
  · exact h
  · next hx =>
    rw [List.nodup_append]
    refine ⟨h, by simp, ?_⟩
    intro a ha b hb hab
    simp only [List.mem_singleton] at hb
    exact hx (hb ▸ hab ▸ ha)

theorem mem_addAll {xs ys : List α} {y : α} : y ∈ addAll xs ys ↔ y ∈ xs ∨ y ∈ ys := by
  induction ys generalizing xs with
  | nil => simp [addAll]
  | cons z zs ih =>
    have : addAll xs (z :: zs) = addAll (add xs z) zs := rfl
    rw [this, ih, mem_add, List.mem_cons, or_assoc]

theorem nodup_addAll {xs : List α} (h : xs.Nodup) (ys : List α) : (addAll xs ys).Nodup := by
  induction ys generalizing xs with
  | nil => exact h
  | cons z zs ih => exact ih (nodup_add h z)

theorem mem_ofList {ys : List α} {y : α} : y ∈ ofList ys ↔ y ∈ ys := by
  rw [ofList, mem_addAll]
  simp

theorem nodup_ofList (ys : List α) : (ofList ys).Nodup := nodup_addAll List.nodup_nil ys

end TrackedGraph.FirstSeen
