/-
Forests whose slots are in shape, written.

Every slot holds what its property takes, or what it rests at (`Forest.Shaped`). A slot may hold
what is left of such a value once something is gone, and what comes of it when something is put
in that the property takes. Writing a place concerns no slot, and writing a slot what it may hold
leaves the forest in shape. Nothing is asked of the places, which a default may upset.
-/
import TrackedGraph.Proofs.Forest.Aligned
import Mathlib.Data.List.InsertIdx

set_option autoImplicit false

namespace TrackedGraph

namespace Forest

variable {f f' : Forest} {n m c : NodeId} {p q : PropertyId} {g : Feature} {s old : Slot}
  {t : TypeId} {i j : Nat} {schema : Schema}

/-! ## Values that a slot may hold -/

section items

variable (h : f.MayHold n p g s.value) (hx : g.isMixed = false) (hm : g.many = true)

include h hx hm

theorem MayHold.removeItem : f.MayHold n p g (s.removeItem i).value := by
  obtain ⟨items, hv, hall⟩ := h.items hx hm
  unfold Slot.removeItem
  rw [hv]
  exact .inr ((fits_list hx hm).mpr ⟨_, rfl, fun x hx => hall x (List.mem_of_mem_eraseIdx hx)⟩)

theorem MayHold.insertItem {item : Value} (ha : f.Accepts n p item) :
    f.MayHold n p g (s.insertItem i item).value := by
  obtain ⟨items, hv, hall⟩ := h.items hx hm
  unfold Slot.insertItem
  rw [hv]
  refine .inr ((fits_list hx hm).mpr ⟨_, rfl, fun x hx => ?_⟩)
  rcases List.eq_or_mem_of_mem_insertIdx hx with rfl | hx
  · exact ha
  · exact hall x hx

theorem MayHold.moveItem : f.MayHold n p g (s.moveItem i j).value := by
  obtain ⟨items, hv, hall⟩ := h.items hx hm
  unfold Slot.moveItem
  rw [hv]
  dsimp only
  cases hi : items[i]? with
  | none => exact h
  | some item =>
    refine .inr ((fits_list hx hm).mpr ⟨_, rfl, fun x hx => ?_⟩)
    rcases List.eq_or_mem_of_mem_insertIdx hx with rfl | hx
    · exact hall _ (List.mem_of_getElem? hi)
    · exact hall x (List.mem_of_mem_eraseIdx hx)

end items

section entries

variable (h : f.MayHold n p g s.value) (hx : g.isMixed = true)

include h hx

theorem MayHold.removeEntry : f.MayHold n p g (s.removeEntry i).value := by
  obtain ⟨entries, hv, hall⟩ := h.entries hx
  unfold Slot.removeEntry
  rw [hv]
  exact .inr ((fits_mixed hx).mpr ⟨_, rfl, fun e he => hall e (List.mem_of_mem_eraseIdx he)⟩)

theorem MayHold.insertEntry {e : Entry Value} {k : Feature} (hk : f.feature n e.property = .ok k)
    (ho : k.owner = some p) (ha : f.Accepts n e.property e.value) :
    f.MayHold n p g (s.insertEntry i e).value := by
  obtain ⟨entries, hv, hall⟩ := h.entries hx
  unfold Slot.insertEntry
  rw [hv]
  refine .inr ((fits_mixed hx).mpr ⟨_, rfl, fun x hx => ?_⟩)
  rcases List.eq_or_mem_of_mem_insertIdx hx with rfl | hx
  · exact ⟨⟨k, hk, ho⟩, ha⟩
  · exact hall x hx

end entries

/-! ## Writing -/

theorem GrownFrom.mayHold {v : Value} (hf : GrownFrom f f') (h : f.MayHold n p g v) :
    f'.MayHold n p g v :=
  h.of_types hf.schema hf.typeOf

theorem Shaped.setPlace (hf : f.Shaped) (place : Option Place) : (f.setPlace c place).Shaped := by
  have hslotted : (f.setPlace c place).Slotted := hf.slotted.setPlace place
  refine ⟨by rw [schema_setPlace]; exact hf.coherent, hslotted.slot_of_feature,
    hslotted.feature_of_slot, fun n p g s hg ho hs => ?_, hslotted.member⟩
  rw [slot_setPlace] at hs
  rw [feature_setPlace] at hg
  exact (grownFrom_setPlace place).mayHold (hf.held n p g s hg ho hs)

theorem Shaped.setSlot (hf : f.Shaped) (hold : f.slot n p = .ok old)
    (hg : f.feature n p = .ok g) (ho : g.owner = none) (hs : f.MayHold n p g s.value) :
    (f.setSlot n p s).Shaped := by
  have hslotted : (f.setSlot n p s).Slotted := hf.slotted.setSlot hold hg ho
  refine ⟨by rw [schema_setSlot]; exact hf.coherent, hslotted.slot_of_feature,
    hslotted.feature_of_slot, fun m q k s' hk hko hs' => grownFrom_setSlot.mayHold ?_,
    hslotted.member⟩
  rw [feature_setSlot] at hk
  rcases slot_of_setSlot hold hs' with ⟨rfl, rfl, rfl⟩ | ⟨-, hs'⟩
  · obtain rfl := ok_unique hg hk
    exact hs
  · exact hf.held m q k s' hk hko hs'

/-- A new node has a slot for each property of its type, at rest. -/
theorem Shaped.create (hf : f.Shaped) (h : f.create t = .ok (n, f')) : f'.Shaped := by
  have hslotted := hf.slotted.create h
  refine ⟨by rw [schema_create h]; exact hf.coherent, hslotted.slot_of_feature,
    hslotted.feature_of_slot, fun m q g s hg ho hs => ?_, hslotted.member⟩
  rcases slot_create h hs with hs | ⟨rfl, k, hk, rfl⟩
  · rw [feature_create h (contains_of_slot hs)] at hg
    exact (grownFrom_create h).mayHold (hf.held m q g s hg ho hs)
  · obtain rfl := ok_unique hk ((feature_create_self h q).symm.trans hg)
    exact (slotFits_freshSlot ho).mayHold

theorem shaped_empty (hc : schema.Coherent) : (empty schema).Shaped := by
  have hslot : ∀ {n p a}, (empty schema).slot n p ≠ .ok a := by
    intro n p a h
    obtain ⟨x, hx, -⟩ := slot_eq_ok.mp h
    simp [empty] at hx
  have hfeature : ∀ {n p a}, (empty schema).feature n p ≠ .ok a := by
    intro n p a h
    obtain ⟨u, hu, -⟩ := feature_eq_ok.mp h
    obtain ⟨x, hx, -⟩ := typeOf_eq_ok.mp hu
    simp [empty] at hx
  exact ⟨hc, fun _ _ _ h => absurd h hfeature, fun _ _ _ h => absurd h hslot,
    fun _ _ _ _ h => absurd h hfeature, fun _ _ _ _ h => absurd h hfeature⟩

/-- What is in shape can be read. -/
theorem Shaped.aligned (hf : f.Shaped) : f.Aligned := by
  refine ⟨hf.slot_of_feature, fun n p s hs => ?_⟩
  obtain ⟨g, hg⟩ := hf.feature_of_slot n p s hs
  refine ⟨g, hg, fun hx e he => ?_⟩
  obtain ⟨entries, hv, hall⟩ := (hf.held n p g s hg (hf.owner_of_mixed hg hx) hs).entries hx
  rw [hv] at he
  obtain ⟨⟨k, hk, -⟩, -⟩ := hall e he
  exact ⟨k, hk⟩

end Forest

end TrackedGraph
