/-
Forests in which every change can be planned.

A recorder that may see read-only properties written refuses a change only if it cannot read
the property: there is no such slot, or an entry of mixed content names a property that the type
does not have. That never happens in a forest whose slots are those of the schema and hold
values that can be read (`Forest.Aligned`), if the values before and after the change can be read
as well (`Forest.Aligned.exists_plan`). This asks much less of a forest than that it fits its
schema: defaults may be anything, and places need not agree with slots.
-/
import TrackedGraph.Document.Edit
import TrackedGraph.Proofs.Forest.Sound

set_option autoImplicit false

namespace TrackedGraph

namespace Forest

variable {f f' f₀ : Forest} {n m c : NodeId} {p q : PropertyId} {v w : Value} {g : Feature}
  {t : TypeId} {s : Slot}

/-! ## Values that can be read -/

/-- The property exists and, if it holds mixed content, so do those that the entries name. -/
def Ownable (f : Forest) (n : NodeId) (p : PropertyId) (v : Value) : Prop :=
  ∃ g, f.feature n p = .ok g ∧
    (g.isMixed = true → ∀ e ∈ v.entries, ∃ h, f.feature n e.property = .ok h)

/-- What a value would own can be told exactly if the value can be read. -/
theorem ownable_iff : f.Ownable n p v ↔ ∃ cs, f.owned n p v = .ok cs := by
  constructor
  · rintro ⟨g, hg, hentries⟩
    obtain ⟨t, ht, hgt⟩ := feature_eq_ok.mp hg
    simp only [owned, ht, hgt, bind_ok]
    cases hr : g.role with
    | mixed =>
      have hmembers : ∀ e ∈ v.entries, ∃ b, (f.schema.feature t e.property >>= fun member =>
          (pure (if member.owns then e.value.node? else none) : Except Fault _)) = .ok b := by
        intro e he
        obtain ⟨h, hh⟩ := hentries (by simp [Property.isMixed, hr]) e he
        obtain ⟨u, hu, hht⟩ := feature_eq_ok.mp hh
        obtain rfl := ok_unique ht hu
        exact ⟨_, by rw [hht]; rfl⟩
      obtain ⟨bs, hbs⟩ := exists_mapM_eq_ok hmembers
      exact ⟨_, bind_eq_ok.mpr ⟨bs, hbs, rfl⟩⟩
    | _ => exact ⟨_, rfl⟩
  · rintro ⟨cs, hcs⟩
    simp only [owned, bind_eq_ok] at hcs
    obtain ⟨t, ht, g, hgt, h⟩ := hcs
    refine ⟨g, feature_eq_ok.mpr ⟨t, ht, hgt⟩, fun hx e he => ?_⟩
    have hr : g.role = .mixed := by simpa [Property.isMixed] using hx
    rw [hr] at h
    obtain ⟨bs, hbs, -⟩ := bind_eq_ok.mp h
    obtain ⟨b, hb⟩ := exists_of_mapM_eq_ok hbs e he
    obtain ⟨k, hk, -⟩ := bind_eq_ok.mp hb
    exact ⟨k, feature_eq_ok.mpr ⟨t, ht, hk⟩⟩

theorem ownable_of_not_mixed (hg : f.feature n p = .ok g) (hx : g.isMixed = false) (v : Value) :
    f.Ownable n p v := ⟨g, hg, fun hm => absurd (hx.symm.trans hm) (by simp)⟩

/-- A property with a list is no mixed content. -/
theorem ownable_of_itemsOf {items : List Value} (h : f.itemsOf n p = .ok items) (v : Value) :
    f.Ownable n p v := by
  obtain ⟨g, s, hg, -, -, hx, -⟩ := itemsOf_eq_ok.mp h
  exact ownable_of_not_mixed hg hx v

theorem ownable_restValue (hg : f.feature n p = .ok g) : f.Ownable n p g.restValue := by
  refine ⟨g, hg, fun hx => ?_⟩
  rw [Property.restValue, if_pos hx]
  exact fun e he => absurd he (by simp [Value.entries, Value.mixed?])

/-- Entries that are added have to be of properties that exist. -/
theorem Ownable.of_entries (h : f.Ownable n p v)
    (hsub : ∀ e ∈ w.entries, e ∈ v.entries ∨ ∃ k, f.feature n e.property = .ok k) :
    f.Ownable n p w := by
  obtain ⟨g, hg, hentries⟩ := h
  exact ⟨g, hg, fun hx e he => (hsub e he).elim (hentries hx e) id⟩

theorem Ownable.null (h : f.Ownable n p v) : f.Ownable n p .null :=
  h.of_entries fun e he => absurd he (by simp [Value.entries, Value.mixed?])

/-! ### What edits make of a slot -/

theorem Ownable.insertItem {i : Nat} {item : Value} (h : f.Ownable n p s.value) :
    f.Ownable n p (s.insertItem i item).value := by
  unfold Slot.insertItem
  split
  · exact h.of_entries fun e he => absurd he (by simp [Value.entries, Value.mixed?])
  · exact h

theorem Ownable.removeItem {i : Nat} (h : f.Ownable n p s.value) :
    f.Ownable n p (s.removeItem i).value := by
  unfold Slot.removeItem
  split
  · exact h.of_entries fun e he => absurd he (by simp [Value.entries, Value.mixed?])
  · exact h

theorem Ownable.moveItem {i j : Nat} (h : f.Ownable n p s.value) :
    f.Ownable n p (s.moveItem i j).value := by
  unfold Slot.moveItem
  split
  · split
    · exact h.of_entries fun e he => absurd he (by simp [Value.entries, Value.mixed?])
    · exact h
  · exact h

theorem Ownable.insertEntry {i : Nat} {entry : Entry Value} (h : f.Ownable n p s.value)
    (he : ∃ k, f.feature n entry.property = .ok k) :
    f.Ownable n p (s.insertEntry i entry).value := by
  unfold Slot.insertEntry
  split
  · next entries hv =>
    refine h.of_entries fun e hmem => ?_
    by_cases hi : i ≤ entries.length
    · rcases (List.mem_insertIdx hi).mp hmem with rfl | hmem
      · exact .inr he
      · exact .inl (by rw [hv]; exact hmem)
    · have hsame : entries.insertIdx i entry = entries :=
        List.insertIdx_of_length_lt (Nat.lt_of_not_le hi)
      exact .inl (by rw [hv, ← hsame]; exact hmem)
  · exact h

theorem Ownable.removeEntry {i : Nat} (h : f.Ownable n p s.value) :
    f.Ownable n p (s.removeEntry i).value := by
  unfold Slot.removeEntry
  split
  · next entries hv =>
    exact h.of_entries fun e hmem => .inl (by rw [hv]; exact List.mem_of_mem_eraseIdx hmem)
  · exact h

/-! ## Aligned forests -/

/-- **The slots are those of the schema**, and what they hold can be read. -/
structure Aligned (f : Forest) : Prop where
  exists_slot : ∀ n p g, f.feature n p = .ok g → ∃ s, f.slot n p = .ok s
  ownable : ∀ n p s, f.slot n p = .ok s → f.Ownable n p s.value

/-- **A recorder that minds no read-only property has a plan**. -/
theorem Aligned.exists_plan {N : Notice} (hf : f.Aligned)
    (hbefore : f.Ownable N.node N.property N.before)
    (hafter : f.Ownable N.node N.property N.after) : ∃ q, Tracking.plan false f N = .ok q := by
  obtain ⟨g, hg, -⟩ := id hbefore
  obtain ⟨t, ht, hgt⟩ := feature_eq_ok.mp hg
  obtain ⟨s, hs⟩ := hf.exists_slot _ _ g hg
  obtain ⟨old, hold⟩ := ownable_iff.mp hbefore
  obtain ⟨new, hnew⟩ := ownable_iff.mp hafter
  obtain ⟨x, hmovement⟩ : ∃ x, Tracking.movement f N = .ok x := by
    unfold Tracking.movement
    cases N.kind <;> simp [hold, hnew]
  simp [Tracking.plan, ht, hgt, hs, hmovement]

/-! ### Later forests -/

/-- The later forest has the same schema, and the nodes of the earlier one with their types. -/
structure GrownFrom (f₀ f : Forest) : Prop where
  schema : f.schema = f₀.schema
  typeOf : ∀ n t, f₀.typeOf n = .ok t → f.typeOf n = .ok t

theorem GrownFrom.refl (f : Forest) : GrownFrom f f := ⟨rfl, fun _ _ h => h⟩

theorem GrownFrom.trans (h : GrownFrom f₀ f) (h' : GrownFrom f f') : GrownFrom f₀ f' :=
  ⟨h'.schema.trans h.schema, fun n t ht => h'.typeOf n t (h.typeOf n t ht)⟩

theorem GrownFrom.feature (h : GrownFrom f f') (hg : f.feature n p = .ok g) :
    f'.feature n p = .ok g := feature_of_types h.schema h.typeOf hg

/-- The nodes that there were have the properties that they had. -/
theorem GrownFrom.feature_eq (h : GrownFrom f f') (hn : f.contains n = true) (q : PropertyId) :
    f'.feature n q = f.feature n q := by
  obtain ⟨t, ht⟩ := contains_iff.mp hn
  exact feature_congr h.schema ((h.typeOf n t ht).trans ht.symm) q

theorem GrownFrom.ownable (h : GrownFrom f f') (hv : f.Ownable n p v) : f'.Ownable n p v := by
  obtain ⟨g, hg, hentries⟩ := hv
  refine ⟨g, h.feature hg, fun hx e he => ?_⟩
  obtain ⟨k, hk⟩ := hentries hx e he
  exact ⟨k, h.feature hk⟩

/-! ### Writing -/

/-- Places are nothing to slots. -/
theorem grownFrom_setPlace (place : Option Place) : GrownFrom f (f.setPlace c place) :=
  ⟨schema_setPlace place, fun _ _ h => (typeOf_setPlace place).trans h⟩

theorem Aligned.setPlace (hf : f.Aligned) (place : Option Place) :
    (f.setPlace c place).Aligned := by
  refine ⟨fun n p g hg => ?_, fun n p s hs => ?_⟩
  · rw [feature_setPlace] at hg
    rw [slot_setPlace]
    exact hf.exists_slot n p g hg
  · rw [slot_setPlace] at hs
    exact (grownFrom_setPlace place).ownable (hf.ownable n p s hs)

theorem grownFrom_setSlot : GrownFrom f (f.setSlot n p s) :=
  ⟨schema_setSlot s, fun _ _ h => (typeOf_setSlot s).trans h⟩

theorem Aligned.setSlot {old : Slot} (hf : f.Aligned) (hold : f.slot n p = .ok old)
    (hs : f.Ownable n p s.value) : (f.setSlot n p s).Aligned := by
  refine ⟨fun m q g hg => ?_, fun m q s' hs' => grownFrom_setSlot.ownable ?_⟩
  · rw [feature_setSlot] at hg
    obtain ⟨s', hs'⟩ := hf.exists_slot m q g hg
    exact exists_slot_setSlot hs'
  · rcases slot_of_setSlot hold hs' with ⟨rfl, rfl, rfl⟩ | ⟨-, hs'⟩
    · exact hs
    · exact hf.ownable m q s' hs'

theorem grownFrom_create (h : f.create t = .ok (n, f')) : GrownFrom f f' :=
  ⟨schema_create h, fun _ _ hm => typeOf_create_of_ok h hm⟩

/-- A new node has a slot for each property of its type, at rest. -/
theorem Aligned.create (hf : f.Aligned) (h : f.create t = .ok (n, f')) : f'.Aligned := by
  refine ⟨fun m q g hg => ?_, fun m q s hs => ?_⟩
  · rcases contains_create h (contains_of_feature hg) with hm | rfl
    · rw [feature_create h hm] at hg
      obtain ⟨s, hs⟩ := hf.exists_slot m q g hg
      exact ⟨s, slot_create_of_ok h hs⟩
    · rw [feature_create_self h] at hg
      exact ⟨freshSlot g, slot_create_self h hg⟩
  · rcases slot_create h hs with hs | ⟨rfl, g, hg, rfl⟩
    · exact (grownFrom_create h).ownable (hf.ownable m q s hs)
    · rw [← feature_create_self h] at hg
      unfold freshSlot
      split
      · exact (ownable_restValue hg).null
      · exact ownable_restValue hg

theorem aligned_empty (schema : Schema) : (empty schema).Aligned := by
  refine ⟨fun n p g hg => ?_, fun n p s hs => ?_⟩
  · obtain ⟨t, ht, -⟩ := feature_eq_ok.mp hg
    obtain ⟨x, hx, -⟩ := typeOf_eq_ok.mp ht
    exact absurd hx (by simp [empty])
  · obtain ⟨x, hx, -⟩ := slot_eq_ok.mp hs
    exact absurd hx (by simp [empty])

end Forest

end TrackedGraph
