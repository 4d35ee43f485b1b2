/-
The write that every edit comes down to.

An edit of a document changes one slot, and with it the places of the children that
the slot loses (`freed`) and gains (`taken`). `Forest.write` is that change on the
forest alone, and this file says what each look-up finds after it. Creating a node is
the only other way in which a forest changes, and it is treated the same way at the
end.
-/
import TrackedGraph.Proofs.Forest.Lookup

set_option autoImplicit false

namespace TrackedGraph.Forest

variable {f : Forest} {n m c : NodeId} {p q : PropertyId} {t : TypeId}

/-- Two forests in which every look-up finds the same are the same. -/
theorem ext_lookup {f f' : Forest} (hs : f.schema = f'.schema)
    (ht : ∀ n, f.typeOf n = f'.typeOf n) (hsl : ∀ n p s, f.slot n p = .ok s ↔ f'.slot n p = .ok s)
    (hp : ∀ n, f.place? n = f'.place? n) : f = f' := by
  have found : ∀ (g g' : Forest), (∀ n, g.typeOf n = g'.typeOf n) → ∀ (i : Nat) (x : Node),
      g.nodes[i]? = some x →
      ∃ y : Node, g'.nodes[i]? = some y ∧ y.type = x.type := by
    intro g g' h i x hx
    have ht : g.typeOf ⟨i⟩ = .ok x.type := typeOf_eq_ok.mpr ⟨x, hx, rfl⟩
    rw [h ⟨i⟩] at ht
    exact typeOf_eq_ok.mp ht
  refine Forest.ext hs (List.ext_getElem? fun i => ?_)
  -- A node is known by its type, its slots and its place.
  cases hx : f.nodes[i]? with
  | none =>
    cases hy : f'.nodes[i]? with
    | none => rfl
    | some y =>
      obtain ⟨x, hx', -⟩ := found f' f (fun n => (ht n).symm) i y hy
      rw [hx] at hx'
      exact absurd hx' (by simp)
  | some x =>
    obtain ⟨y, hy, hty⟩ := found f f' ht i x hx
    rw [hy]
    refine congrArg some (Node.ext hty.symm (List.ext_getElem? fun j => Option.ext fun s => ?_) ?_)
    · have h := hsl ⟨i⟩ ⟨j⟩ s
      simp only [slot_eq_ok, hx, hy, Option.some.injEq, exists_eq_left'] at h
      exact h
    · have h := hp ⟨i⟩
      unfold place? at h
      simpa only [hx, hy, Option.bind_eq_bind, Option.bind_some] using h

/-- The type of a node decides what features it has. -/
theorem feature_congr {f f' : Forest} (hs : f'.schema = f.schema) (ht : f'.typeOf n = f.typeOf n)
    (p : PropertyId) : f'.feature n p = f.feature n p := by
  unfold feature
  rw [hs, ht]

@[simp] theorem feature_setPlace (place : Option Place) :
    (f.setPlace c place).feature n p = f.feature n p :=
  feature_congr (schema_setPlace place) (typeOf_setPlace place) p

@[simp] theorem feature_setSlot (s : Slot) : (f.setSlot c q s).feature n p = f.feature n p :=
  feature_congr (schema_setSlot s) (typeOf_setSlot s) p

theorem contains_congr {f f' : Forest} (ht : f'.typeOf n = f.typeOf n) :
    f'.contains n = f.contains n := by
  rw [Bool.eq_iff_iff, contains_iff, contains_iff, ht]

theorem place?_eq_none_of_not_contains (h : ¬ f.contains n = true) : f.place? n = none := by
  cases hp : f.place? n with
  | none => rfl
  | some place => exact absurd (contains_of_place hp) h

/-! ## Freeing and taking children -/

/-- The forest in which the given nodes sit nowhere. -/
def free (f : Forest) (cs : List NodeId) : Forest := cs.foldl (fun f c => f.setPlace c none) f

/-- The forest in which the given nodes sit in `n`, each under its property. -/
def take (f : Forest) (n : NodeId) (cs : List (NodeId × PropertyId)) : Forest :=
  cs.foldl (fun f c => f.setPlace c.1 (some ⟨n, c.2⟩)) f

@[simp] theorem schema_free (cs : List NodeId) : (f.free cs).schema = f.schema := by
  induction cs generalizing f with
  | nil => rfl
  | cons c cs ih => exact (ih (f := f.setPlace c none)).trans rfl

@[simp] theorem schema_take (cs : List (NodeId × PropertyId)) :
    (f.take n cs).schema = f.schema := by
  induction cs generalizing f with
  | nil => rfl
  | cons c cs ih => exact (ih (f := f.setPlace c.1 _)).trans rfl

@[simp] theorem typeOf_free (cs : List NodeId) : (f.free cs).typeOf m = f.typeOf m := by
  induction cs generalizing f with
  | nil => rfl
  | cons c cs ih => exact (ih (f := f.setPlace c none)).trans (typeOf_setPlace none)

@[simp] theorem typeOf_take (cs : List (NodeId × PropertyId)) :
    (f.take n cs).typeOf m = f.typeOf m := by
  induction cs generalizing f with
  | nil => rfl
  | cons c cs ih => exact (ih (f := f.setPlace c.1 _)).trans (typeOf_setPlace _)

@[simp] theorem slot_free (cs : List NodeId) : (f.free cs).slot m q = f.slot m q := by
  induction cs generalizing f with
  | nil => rfl
  | cons c cs ih => exact (ih (f := f.setPlace c none)).trans (slot_setPlace none)

@[simp] theorem slot_take (cs : List (NodeId × PropertyId)) :
    (f.take n cs).slot m q = f.slot m q := by
  induction cs generalizing f with
  | nil => rfl
  | cons c cs ih => exact (ih (f := f.setPlace c.1 _)).trans (slot_setPlace _)

theorem place?_free (cs : List NodeId) :
    (f.free cs).place? m = if m ∈ cs then none else f.place? m := by
  induction cs generalizing f with
  | nil => rfl
  | cons c cs ih =>
    have := ih (f := f.setPlace c none)
    rw [show f.free (c :: cs) = (f.setPlace c none).free cs from rfl, this, place?_setPlace]
    by_cases hm : m ∈ cs
    · rw [if_pos hm, if_pos (List.mem_cons_of_mem c hm)]
    · rw [if_neg hm]
      by_cases hc : m = c
      · subst hc
        by_cases hin : f.contains m = true
        · rw [if_pos ⟨rfl, hin⟩, if_pos List.mem_cons_self]
        · rw [if_neg (fun h => hin h.2), if_pos List.mem_cons_self,
            place?_eq_none_of_not_contains hin]
      · rw [if_neg (fun h => hc h.1), if_neg (by simp [hc, hm])]

theorem place?_take_of_not_mem {cs : List (NodeId × PropertyId)} (h : m ∉ cs.map Prod.fst) :
    (f.take n cs).place? m = f.place? m := by
  induction cs generalizing f with
  | nil => rfl
  | cons c cs ih =>
    rw [List.map_cons, List.mem_cons, not_or] at h
    refine (ih (f := f.setPlace c.1 _) h.2).trans ?_
    rw [place?_setPlace, if_neg fun hc => h.1 hc.1]

theorem place?_take_of_mem {cs : List (NodeId × PropertyId)} (hd : (cs.map Prod.fst).Nodup)
    (hc : f.contains c = true) (h : (c, q) ∈ cs) :
    (f.take n cs).place? c = some ⟨n, q⟩ := by
  induction cs generalizing f with
  | nil => simp at h
  | cons b cs ih =>
    rw [List.map_cons, List.nodup_cons] at hd
    rcases List.mem_cons.mp h with rfl | h
    · refine (place?_take_of_not_mem (f := f.setPlace c _) hd.1).trans ?_
      rw [place?_setPlace, if_pos ⟨rfl, hc⟩]
    · refine ih (f := f.setPlace b.1 _) hd.2 ?_ h
      rw [contains_congr (typeOf_setPlace _)]
      exact hc

/-! ## Writing a slot -/

/-- **Writes a slot** together with the places of the children it loses and gains. -/
def write (f : Forest) (n : NodeId) (p : PropertyId) (s : Slot) (freed : List NodeId)
    (taken : List (NodeId × PropertyId)) : Forest :=
  ((f.free freed).take n taken).setSlot n p s

section write

variable {s : Slot} {freed : List NodeId} {taken : List (NodeId × PropertyId)}

@[simp] theorem schema_write : (f.write n p s freed taken).schema = f.schema := by
  simp only [write, schema_setSlot, schema_take, schema_free]

@[simp] theorem typeOf_write : (f.write n p s freed taken).typeOf m = f.typeOf m := by
  simp only [write, typeOf_setSlot, typeOf_take, typeOf_free]

@[simp] theorem feature_write : (f.write n p s freed taken).feature m q = f.feature m q :=
  feature_congr schema_write typeOf_write q

@[simp] theorem contains_write : (f.write n p s freed taken).contains m = f.contains m :=
  contains_congr typeOf_write

theorem slot_write_self {s₀ : Slot} (h : f.slot n p = .ok s₀) :
    (f.write n p s freed taken).slot n p = .ok s :=
  slot_setSlot_self ((slot_take taken).trans ((slot_free freed).trans h))

theorem slot_write_of_ne (h : (n, p) ≠ (m, q)) :
    (f.write n p s freed taken).slot m q = f.slot m q := by
  rw [write, slot_setSlot_of_ne h, slot_take, slot_free]

/-- The slot that is read is the one that was written, or is as it was. -/
theorem slot_of_write {s₀ s' : Slot} (h : f.slot n p = .ok s₀)
    (hs : (f.write n p s freed taken).slot m q = .ok s') :
    m = n ∧ q = p ∧ s' = s ∨ (n, p) ≠ (m, q) ∧ f.slot m q = .ok s' := by
  refine (slot_of_setSlot ((slot_take taken).trans ((slot_free freed).trans h)) hs).imp_right
    fun hother => ⟨hother.1, ?_⟩
  rw [← slot_free freed, ← slot_take taken]
  exact hother.2

theorem exists_slot_write {s' : Slot} (hs : f.slot m q = .ok s') :
    ∃ s'', (f.write n p s freed taken).slot m q = .ok s'' :=
  exists_slot_setSlot ((slot_take taken).trans ((slot_free freed).trans hs))

theorem place?_write_of_taken (hd : (taken.map Prod.fst).Nodup) (hc : f.contains c = true)
    (h : (c, q) ∈ taken) : (f.write n p s freed taken).place? c = some ⟨n, q⟩ := by
  rw [write, place?_setSlot]
  refine place?_take_of_mem hd ?_ h
  rw [contains_congr (typeOf_free freed)]
  exact hc

theorem place?_write_of_not_taken (h : c ∉ taken.map Prod.fst) :
    (f.write n p s freed taken).place? c = if c ∈ freed then none else f.place? c := by
  rw [write, place?_setSlot, place?_take_of_not_mem h, place?_free]

/-- A place after the write is new, or it was there before. -/
theorem place?_of_write {place : Place} (hd : (taken.map Prod.fst).Nodup)
    (h : (f.write n p s freed taken).place? c = some place) :
    (∃ q, (c, q) ∈ taken ∧ place = ⟨n, q⟩) ∨
      c ∉ taken.map Prod.fst ∧ c ∉ freed ∧ f.place? c = some place := by
  by_cases hc : c ∈ taken.map Prod.fst
  · obtain ⟨⟨_, q⟩, hq, rfl⟩ := List.mem_map.mp hc
    have hin := contains_of_place h
    rw [contains_write] at hin
    rw [place?_write_of_taken hd hin hq, Option.some.injEq] at h
    exact .inl ⟨q, hq, h.symm⟩
  · rw [place?_write_of_not_taken hc] at h
    by_cases hf : c ∈ freed
    · rw [if_pos hf] at h
      exact absurd h (by simp)
    · rw [if_neg hf] at h
      exact .inr ⟨hc, hf, h⟩

end write

/-! ## Creating a node -/

section create

variable {f' : Forest}

theorem create_eq_ok :
    f.create t = .ok (n, f') ↔ ∃ type, f.schema.types[t.index]? = some type ∧
      n = ⟨f.nodes.length⟩ ∧
      f' = { f with nodes := f.nodes ++ [⟨t, type.features.map freshSlot, none⟩] } := by
  simp only [create, bind_eq_ok, Schema.features_eq_ok, pure_eq_ok, Except.ok.injEq, Prod.mk.injEq]
  constructor
  · rintro ⟨gs, ⟨type, h, rfl⟩, rfl, rfl⟩
    exact ⟨type, h, rfl, rfl⟩
  · rintro ⟨type, h, rfl, rfl⟩
    exact ⟨type.features, ⟨type, h, rfl⟩, rfl, rfl⟩

theorem schema_create (h : f.create t = .ok (n, f')) : f'.schema = f.schema := by
  obtain ⟨type, -, -, rfl⟩ := create_eq_ok.mp h
  rfl

theorem typeOf_create_of_ok {u : TypeId} (h : f.create t = .ok (n, f'))
    (hm : f.typeOf m = .ok u) : f'.typeOf m = .ok u := by
  obtain ⟨type, -, -, rfl⟩ := create_eq_ok.mp h
  obtain ⟨x, hx, rfl⟩ := typeOf_eq_ok.mp hm
  have hlt := (List.getElem?_eq_some_iff.mp hx).1
  exact typeOf_eq_ok.mpr ⟨x, (List.getElem?_append_left hlt).trans hx, rfl⟩

/-- The nodes of the forest after a creation: those before, and the new one. -/
theorem nodes_create {x : Node} (h : f.create t = .ok (n, f')) (hx : f'.nodes[m.index]? = some x) :
    f.nodes[m.index]? = some x ∨
      m = n ∧ ∃ type, f.schema.types[t.index]? = some type ∧
        x = ⟨t, type.features.map freshSlot, none⟩ := by
  obtain ⟨type, ht, rfl, rfl⟩ := create_eq_ok.mp h
  simp only at hx
  by_cases hlt : m.index < f.nodes.length
  · rw [List.getElem?_append_left hlt] at hx
    exact .inl hx
  · rw [List.getElem?_append_right (by omega)] at hx
    have hm : m.index - f.nodes.length = 0 := by
      have := (List.getElem?_eq_some_iff.mp hx).1
      simp only [List.length_singleton] at this
      omega
    rw [hm, List.getElem?_cons_zero, Option.some.injEq] at hx
    exact .inr ⟨NodeId.ext (by simp only; omega), type, ht, hx.symm⟩

theorem slot_create_of_ok {s : Slot} (h : f.create t = .ok (n, f')) (hs : f.slot m q = .ok s) :
    f'.slot m q = .ok s := by
  obtain ⟨type, -, -, rfl⟩ := create_eq_ok.mp h
  obtain ⟨x, hx, hxs⟩ := slot_eq_ok.mp hs
  have hlt := (List.getElem?_eq_some_iff.mp hx).1
  exact slot_eq_ok.mpr ⟨x, (List.getElem?_append_left hlt).trans hx, hxs⟩

theorem place?_create (h : f.create t = .ok (n, f')) : f'.place? m = f.place? m := by
  refine Option.ext fun place => ?_
  rw [place?_eq_some, place?_eq_some]
  constructor
  · rintro ⟨x, hx, hp⟩
    rcases nodes_create h hx with hx | ⟨-, type, -, rfl⟩
    · exact ⟨x, hx, hp⟩
    · simp at hp
  · rintro ⟨x, hx, hp⟩
    obtain ⟨type, -, -, rfl⟩ := create_eq_ok.mp h
    have hlt := (List.getElem?_eq_some_iff.mp hx).1
    exact ⟨x, (List.getElem?_append_left hlt).trans hx, hp⟩

end create

end TrackedGraph.Forest
