/-
What a notice says about the slot that it concerns.

A notice is all that an observer gets to see of a change, so it has to carry the change.
`Notice.replay` makes the change to a slot from the notice alone, and `Notice.Truthful`
says that the notice reports the slot as it is before the change. The two together
(`Notice.Describes`) are what the announced changes are shown to satisfy; here it is
shown of the slot operations that the edits use, one by one.
-/
import TrackedGraph.Notice
import TrackedGraph.Document.Edit

set_option autoImplicit false

namespace TrackedGraph

/-- An empty list or empty mixed content, which counts as unset. -/
def Value.isEmptyMany : Value → Bool
  | .list [] | .mixed [] => true
  | _ => false

namespace Notice

/-- **The slot after a change**, told from the slot before it and the notice alone. -/
def replay (N : Notice) (s : Slot) : Slot :=
  match N.kind with
  | .set => ⟨N.after, !N.after.isEmptyMany⟩
  | .unset => ⟨N.after, false⟩
  | .add =>
    match s.value, N.position, N.after with
    | .list items, some i, item => ⟨.list (items.insertIdx i item), true⟩
    | .mixed entries, some i, .mixed [e] => ⟨.mixed (entries.insertIdx i e), true⟩
    | _, _, _ => s
  | .remove =>
    match s.value, N.position with
    | .list items, some i => ⟨.list (items.eraseIdx i), s.isSet && !(items.eraseIdx i).isEmpty⟩
    | .mixed entries, some i =>
      ⟨.mixed (entries.eraseIdx i), s.isSet && !(entries.eraseIdx i).isEmpty⟩
    | _, _ => s
  | .move =>
    match s.value, N.before, N.position with
    | .list items, .int i, some j =>
      match items[i.toNat]? with
      | some item => ⟨.list ((items.eraseIdx i.toNat).insertIdx j item), s.isSet⟩
      | none => s
    | _, _, _ => s

/-- What the notice says was there: the whole value, the item or entry at the position, or
the item that moves. -/
def ReportsBefore (N : Notice) (s : Slot) : Prop :=
  match N.kind with
  | .set | .unset => N.before = s.value
  | .remove =>
    match s.value, N.position with
    | .list items, some i => items[i]? = some N.before
    | .mixed entries, some i => entries[i]?.map (fun e => .mixed [e]) = some N.before
    | _, _ => False
  | .move =>
    match s.value, N.before with
    | .list items, .int i => items[i.toNat]? = some N.after
    | _, _ => False
  | .add => True

/-- The notice reports the slot as it is. -/
def Truthful (N : Notice) (s : Slot) : Prop := N.wasSet = s.isSet ∧ N.ReportsBefore s

/-- **The notice describes the change** of a slot from `old` to `new`. -/
def Describes (N : Notice) (old new : Slot) : Prop := N.Truthful old ∧ N.replay old = new

variable {n : NodeId} {p : PropertyId} {s : Slot} {v : Value} {i j : Nat}

/-- Replacing the value. The flag is that of a value which is empty or not. -/
theorem describes_set {isSet : Bool} (h : isSet = !v.isEmptyMany) :
    (⟨n, p, .set, s.value, v, none, s.isSet⟩ : Notice).Describes s ⟨v, isSet⟩ := by
  rw [h]
  exact ⟨⟨rfl, rfl⟩, rfl⟩

theorem describes_unset :
    (⟨n, p, .unset, s.value, v, none, s.isSet⟩ : Notice).Describes s ⟨v, false⟩ :=
  ⟨⟨rfl, rfl⟩, rfl⟩

section lists

variable {items : List Value} {item : Value} (hv : s.value = .list items)

include hv

theorem describes_insertItem :
    (⟨n, p, .add, .null, item, some i, s.isSet⟩ : Notice).Describes s (s.insertItem i item) := by
  refine ⟨⟨rfl, trivial⟩, ?_⟩
  simp only [replay, Slot.insertItem, hv]

/-- Taking an item out of a list that counts as set. -/
theorem describes_removeItem (hset : s.isSet = true) (hi : items[i]? = some item) :
    (⟨n, p, .remove, item, .null, some i, true⟩ : Notice).Describes s (s.removeItem i) := by
  refine ⟨⟨hset.symm, ?_⟩, ?_⟩
  · simp only [ReportsBefore, hv, hi]
  · simp only [replay, Slot.removeItem, hv, hset, Bool.true_and]

theorem describes_moveItem (hset : s.isSet = true) (hi : items[i]? = some item) :
    (⟨n, p, .move, .int i, item, some j, true⟩ : Notice).Describes s (s.moveItem i j) := by
  refine ⟨⟨hset.symm, ?_⟩, ?_⟩
  · simp only [ReportsBefore, hv, Int.toNat_natCast, hi]
  · simp only [replay, Slot.moveItem, hv, Int.toNat_natCast, hi]

end lists

section sequences

variable {entries : MixedContent} {e : Entry Value} (hv : s.value = .mixed entries)

include hv

theorem describes_insertEntry :
    (⟨n, p, .add, .null, .mixed [e], some i, s.isSet⟩ : Notice).Describes s
      (s.insertEntry i e) := by
  refine ⟨⟨rfl, trivial⟩, ?_⟩
  simp only [replay, Slot.insertEntry, hv]

theorem describes_removeEntry (hset : s.isSet = true) (hi : entries[i]? = some e) :
    (⟨n, p, .remove, .mixed [e], .null, some i, true⟩ : Notice).Describes s
      (s.removeEntry i) := by
  refine ⟨⟨hset.symm, ?_⟩, ?_⟩
  · simp only [ReportsBefore, hv, hi, Option.map_some]
  · simp only [replay, Slot.removeEntry, hv, hset, Bool.true_and]

end sequences

end Notice

end TrackedGraph
