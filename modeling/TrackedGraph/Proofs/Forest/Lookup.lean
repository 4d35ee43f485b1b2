/-
What a forest holds, looked up after it was written.

A look-up of the library is a chain of look-ups that may each fail. Here every one
is opened once, as a statement of when it finds something and what. Writing comes
second: what each look-up finds after a place was set, after a slot was set, and
after a node was created. The write that all edits come down to, one slot with the
places that change along with it, is `Forest.write`; no proof after this file
looks at the list of nodes to learn what a write did.
-/
import TrackedGraph.Forest.Conform
import Mathlib.Data.List.Nodup

set_option autoImplicit false

namespace TrackedGraph

attribute [ext] NodeId PropertyId TypeId Place Slot Node Forest

/-- A bind succeeds when both parts do. -/
theorem bind_eq_ok {ε α β : Type} {x : Except ε α} {k : α → Except ε β} {b : β} :
    x >>= k = .ok b ↔ ∃ a, x = .ok a ∧ k a = .ok b := by
  cases x with
  | error e => simp [bind, Except.bind]
  | ok a => simp [bind, Except.bind]

@[simp] theorem bind_ok {ε α β : Type} (a : α) (k : α → Except ε β) :
    (Except.ok a >>= k) = k a := rfl

@[simp] theorem bind_error {ε α β : Type} (e : ε) (k : α → Except ε β) :
    ((Except.error e : Except ε α) >>= k) = .error e := rfl

@[simp] theorem pure_eq_ok {ε α : Type} (a : α) : (pure a : Except ε α) = .ok a := rfl

@[simp] theorem throw_eq_error {ε α : Type} (e : ε) : (throw e : Except ε α) = .error e := rfl

theorem toOption_isSome_iff {ε α : Type} {x : Except ε α} :
    x.toOption.isSome = true ↔ ∃ a, x = .ok a := by
  cases x <;> simp [Except.toOption]

theorem toOption_isNone_iff {ε α : Type} {x : Except ε α} :
    x.toOption.isNone = true ↔ ∃ e, x = .error e := by
  cases x <;> simp [Except.toOption]

/-- How something failed can be compared, whatever it would have been otherwise. -/
instance decidableEqError {ε α : Type} [DecidableEq ε] (x : Except ε α) (e : ε) :
    Decidable (x = .error e) :=
  match x with
  | .ok _ => .isFalse nofun
  | .error e' => decidable_of_iff (e' = e) ⟨congrArg _, Except.error.inj⟩

/-- What is looked up twice is the same. -/
theorem ok_unique {ε α : Type} {x : Except ε α} {a b : α} (h : x = .ok a) (h' : x = .ok b) :
    a = b := Except.ok.inj (h.symm.trans h')

/-- Going through a list succeeds when every element does. -/
theorem forM_eq_ok {ε α : Type} {l : List α} {k : α → Except ε Unit} :
    l.forM k = .ok () ↔ ∀ a ∈ l, k a = .ok () := by
  induction l with
  | nil => exact ⟨fun _ _ h => absurd h (by simp), fun _ => rfl⟩
  | cons a l ih =>
    rw [show (a :: l).forM k = k a >>= fun _ => l.forM k from rfl, bind_eq_ok,
      List.forall_mem_cons, ← ih]
    exact ⟨fun ⟨_, h, hl⟩ => ⟨h, hl⟩, fun ⟨h, hl⟩ => ⟨(), h, hl⟩⟩

namespace Schema

theorem feature_eq_ok {s : Schema} {t : TypeId} {p : PropertyId} {g : Feature} :
    s.feature t p = .ok g ↔
      ∃ type, s.types[t.index]? = some type ∧ type.features[p.index]? = some g := by
  unfold feature nodeType
  cases s.types[t.index]? with
  | none => simp
  | some type => cases h : type.features[p.index]? <;> simp [h]

theorem features_eq_ok {s : Schema} {t : TypeId} {gs : List Feature} :
    s.features t = .ok gs ↔ ∃ type, s.types[t.index]? = some type ∧ type.features = gs := by
  unfold features nodeType
  cases s.types[t.index]? <;> simp

end Schema

namespace Forest

variable {f : Forest} {n m c : NodeId} {p q : PropertyId} {t : TypeId}

/-! ## What a look-up finds -/

theorem node_eq_ok {x : Node} : f.node n = .ok x ↔ f.nodes[n.index]? = some x := by
  unfold node
  cases f.nodes[n.index]? <;> simp

theorem typeOf_eq_ok : f.typeOf n = .ok t ↔ ∃ x, f.nodes[n.index]? = some x ∧ x.type = t := by
  simp only [typeOf, bind_eq_ok, node_eq_ok, pure_eq_ok, Except.ok.injEq]

theorem feature_eq_ok {g : Feature} :
    f.feature n p = .ok g ↔ ∃ t, f.typeOf n = .ok t ∧ f.schema.feature t p = .ok g := by
  simp only [feature, bind_eq_ok]

theorem slot_eq_ok {s : Slot} :
    f.slot n p = .ok s ↔ ∃ x, f.nodes[n.index]? = some x ∧ x.slots[p.index]? = some s := by
  simp only [slot, bind_eq_ok, node_eq_ok]
  refine exists_congr fun x => and_congr_right fun _ => ?_
  cases x.slots[p.index]? <;> simp

theorem place?_eq_some {place : Place} :
    f.place? n = some place ↔ ∃ x, f.nodes[n.index]? = some x ∧ x.place = some place := by
  simp only [place?, Option.bind_eq_bind, Option.bind_eq_some_iff]

theorem contains_iff : f.contains n = true ↔ ∃ t, f.typeOf n = .ok t := by
  simp only [contains, decide_eq_true_eq, typeOf_eq_ok]
  constructor
  · intro h
    exact ⟨_, _, List.getElem?_eq_getElem h, rfl⟩
  · rintro ⟨_, x, hx, -⟩
    exact (List.getElem?_eq_some_iff.mp hx).1

theorem contains_of_slot {s : Slot} (h : f.slot n p = .ok s) : f.contains n = true := by
  obtain ⟨x, hx, -⟩ := slot_eq_ok.mp h
  exact contains_iff.mpr ⟨x.type, typeOf_eq_ok.mpr ⟨x, hx, rfl⟩⟩

theorem contains_of_place {place : Place} (h : f.place? n = some place) : f.contains n = true := by
  obtain ⟨x, hx, -⟩ := place?_eq_some.mp h
  exact contains_iff.mpr ⟨x.type, typeOf_eq_ok.mpr ⟨x, hx, rfl⟩⟩

theorem contains_of_feature {g : Feature} (h : f.feature n p = .ok g) : f.contains n = true := by
  obtain ⟨t, ht, -⟩ := feature_eq_ok.mp h
  exact contains_iff.mpr ⟨t, ht⟩

/-! ## Setting a place -/

theorem getElem?_setPlace (place : Option Place) (i : Nat) :
    (f.setPlace c place).nodes[i]? =
      if c.index = i then f.nodes[i]?.map fun x => { x with place } else f.nodes[i]? := by
  simp only [setPlace, modifyNode, List.getElem?_modify]
  by_cases h : c.index = i
  · simp only [if_pos h]
    rfl
  · simp only [if_neg h]
    cases f.nodes[i]? <;> rfl

@[simp] theorem schema_setPlace (place : Option Place) :
    (f.setPlace c place).schema = f.schema := rfl

@[simp] theorem typeOf_setPlace (place : Option Place) :
    (f.setPlace c place).typeOf n = f.typeOf n := by
  unfold typeOf node
  rw [getElem?_setPlace]
  by_cases h : c.index = n.index
  · rw [if_pos h]
    cases f.nodes[n.index]? <;> rfl
  · rw [if_neg h]

@[simp] theorem slot_setPlace (place : Option Place) :
    (f.setPlace c place).slot n p = f.slot n p := by
  unfold slot node
  rw [getElem?_setPlace]
  by_cases h : c.index = n.index
  · rw [if_pos h]
    cases f.nodes[n.index]? <;> rfl
  · rw [if_neg h]
    rfl

theorem place?_setPlace (place : Option Place) :
    (f.setPlace c place).place? n =
      if n = c ∧ f.contains c = true then place else f.place? n := by
  unfold place?
  rw [getElem?_setPlace]
  by_cases h : c.index = n.index
  · obtain rfl : c = n := NodeId.ext h
    rw [if_pos rfl]
    cases hx : f.nodes[c.index]? with
    | none =>
      have : f.nodes.length ≤ c.index := List.getElem?_eq_none_iff.mp hx
      rw [if_neg (by simp only [contains, decide_eq_true_eq]; omega)]
      rfl
    | some x =>
      have := (List.getElem?_eq_some_iff.mp hx).1
      rw [if_pos ⟨rfl, by simpa only [contains, decide_eq_true_eq] using this⟩]
      rfl
  · rw [if_neg h, if_neg fun hc => h (congrArg NodeId.index hc.1.symm)]

/-! ## Setting a slot -/

theorem getElem?_setSlot (s : Slot) (i : Nat) :
    (f.setSlot c p s).nodes[i]? =
      if c.index = i then f.nodes[i]?.map fun x => { x with slots := x.slots.set p.index s }
      else f.nodes[i]? := by
  simp only [setSlot, modifyNode, List.getElem?_modify]
  by_cases h : c.index = i
  · simp only [if_pos h]
    rfl
  · simp only [if_neg h]
    cases f.nodes[i]? <;> rfl

@[simp] theorem schema_setSlot (s : Slot) : (f.setSlot c p s).schema = f.schema := rfl

@[simp] theorem typeOf_setSlot (s : Slot) : (f.setSlot c p s).typeOf n = f.typeOf n := by
  unfold typeOf node
  rw [getElem?_setSlot]
  by_cases h : c.index = n.index
  · rw [if_pos h]
    cases f.nodes[n.index]? <;> rfl
  · rw [if_neg h]

@[simp] theorem place?_setSlot (s : Slot) : (f.setSlot c p s).place? n = f.place? n := by
  unfold place?
  rw [getElem?_setSlot]
  by_cases h : c.index = n.index
  · rw [if_pos h]
    cases f.nodes[n.index]? <;> rfl
  · rw [if_neg h]

theorem slot_setSlot_self {s s₀ : Slot} (h : f.slot n p = .ok s₀) :
    (f.setSlot n p s).slot n p = .ok s := by
  obtain ⟨x, hx, hs⟩ := slot_eq_ok.mp h
  have hlt : p.index < x.slots.length := (List.getElem?_eq_some_iff.mp hs).1
  refine slot_eq_ok.mpr ⟨{ x with slots := x.slots.set p.index s }, ?_, ?_⟩
  · rw [getElem?_setSlot, if_pos rfl, hx]
    rfl
  · exact List.getElem?_set_self hlt

theorem slot_setSlot_of_ne {s : Slot} (h : (n, p) ≠ (m, q)) :
    (f.setSlot n p s).slot m q = f.slot m q := by
  unfold slot node
  rw [getElem?_setSlot]
  by_cases hi : n.index = m.index
  · obtain rfl : n = m := NodeId.ext hi
    have hp : p.index ≠ q.index := fun hp => h (by rw [PropertyId.ext hp])
    rw [if_pos rfl]
    cases f.nodes[n.index]? with
    | none => rfl
    | some x =>
      simp only [Option.map_some, bind_ok, List.getElem?_set_ne hp]
      rfl
  · rw [if_neg hi]
    rfl

/-- The slot that is read is the one that was set, or is as it was. -/
theorem slot_of_setSlot {s s₀ s' : Slot} (h : f.slot n p = .ok s₀)
    (hs : (f.setSlot n p s).slot m q = .ok s') :
    m = n ∧ q = p ∧ s' = s ∨ (n, p) ≠ (m, q) ∧ f.slot m q = .ok s' := by
  by_cases heq : (n, p) = (m, q)
  · obtain ⟨rfl, rfl⟩ := Prod.mk.injEq .. ▸ heq
    exact .inl ⟨rfl, rfl, ok_unique hs (slot_setSlot_self h)⟩
  · rw [slot_setSlot_of_ne heq] at hs
    exact .inr ⟨heq, hs⟩

theorem exists_slot_setSlot {s s' : Slot} (hs : f.slot m q = .ok s') :
    ∃ s'', (f.setSlot n p s).slot m q = .ok s'' := by
  by_cases heq : (n, p) = (m, q)
  · obtain ⟨rfl, rfl⟩ := Prod.mk.injEq .. ▸ heq
    exact ⟨s, slot_setSlot_self hs⟩
  · exact ⟨s', (slot_setSlot_of_ne heq).trans hs⟩

end Forest

end TrackedGraph
