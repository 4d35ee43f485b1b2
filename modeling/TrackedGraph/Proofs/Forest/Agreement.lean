/-
The agreement of places and slots, read off a forest.

`Linked` speaks of claims, which is handy in proofs. What a reader wants to know is said
by `Agrees` in terms of the library's own look-ups: a node sits in another one under a
property exactly if it is listed there, and the children of all nodes together are
listed without a repetition. Where slots are in shape the two are the same (`agrees_iff`).
-/
import TrackedGraph.Proofs.Forest.Sound

set_option autoImplicit false

namespace TrackedGraph.Forest

variable {f : Forest} {n m c : NodeId} {p q : PropertyId} {g : Feature} {s : Slot}

/-- The child is listed under the containment property: in its slot, or by an entry of the
mixed content that the property is a member of. -/
def Lists (f : Forest) (n : NodeId) (q : PropertyId) (c : NodeId) : Prop :=
  ∃ g, f.feature n q = .ok g ∧ g.owns = true ∧
    match g.owner with
    | none => ∃ s, f.slot n q = .ok s ∧ c ∈ s.value.nodes
    | some mixed => ∃ entries, f.sequence n mixed = .ok entries ∧
        ∃ e ∈ entries, e.property = q ∧ e.value.node? = some c

/-- **Places and slots agree**, and no node is listed twice in the whole forest. -/
structure Agrees (f : Forest) : Prop where
  placed : ∀ c n q, f.place? c = some ⟨n, q⟩ ↔ f.Lists n q c
  once : (f.ids.flatMap f.children).Nodup

/-! ## Lists and claims -/

theorem mixed_of_mem_entries {v : Value} {e : Entry Value} (h : e ∈ v.entries) :
    v = .mixed v.entries := by
  cases v with
  | mixed entries => rfl
  | _ => exact absurd h (by simp [Value.entries, Value.mixed?])

/-- **What is listed is what some slot claims.** -/
theorem Shaped.lists_iff (hf : f.Shaped) :
    f.Lists n q c ↔ ∃ p s, f.slot n p = .ok s ∧ (c, q) ∈ f.claims n p s.value := by
  constructor
  · rintro ⟨g, hg, hown, hlist⟩
    cases ho : g.owner with
    | none =>
      rw [ho] at hlist
      obtain ⟨s, hs, hc⟩ := hlist
      exact ⟨q, s, hs, mem_claims.mpr ⟨g, hg, .inl ⟨hown, rfl, hc⟩⟩⟩
    | some mixed =>
      rw [ho] at hlist
      obtain ⟨entries, hes, e, he, hq, hc⟩ := hlist
      obtain ⟨s, hs, hv⟩ := sequence_eq_ok.mp hes
      obtain ⟨k, hk, hx⟩ := hf.exists_mixed hg ho
      refine ⟨mixed, s, hs, mem_claims.mpr ⟨k, hk, .inr ⟨hx, ?_, e, ?_, hq, hc⟩⟩⟩
      · exact ownsAt_iff.mpr ⟨g, hg, hown⟩
      · rw [hv]
        exact he
  · -- The child is listed under the property that it is a child of, by the slot that hosts it.
    rintro ⟨p, s, hs, hc⟩
    obtain ⟨h, hh, hown, rfl⟩ := hf.host hs hc
    refine ⟨h, hh, hown, ?_⟩
    obtain ⟨k, hk, hcase⟩ := mem_claims.mp hc
    cases ho : h.owner with
    | none =>
      rw [ho, Option.getD_none] at hs hc hk hcase
      rcases hcase with ⟨-, -, hn⟩ | ⟨hx, -⟩
      · exact ⟨s, hs, hn⟩
      · -- A property that owns is no mixed content.
        obtain rfl := ok_unique hh hk
        rw [Property.not_mixed_of_owns hown] at hx
        exact absurd hx (by simp)
    | some mixed =>
      rw [ho, Option.getD_some] at hs hc hk hcase
      obtain ⟨k', hk', hx⟩ := hf.exists_mixed hh ho
      obtain rfl := ok_unique hk' hk
      rcases hcase with ⟨hkown, -⟩ | ⟨-, -, e, he, hq, hn⟩
      · rw [Property.not_mixed_of_owns hkown] at hx
        exact absurd hx (by simp)
      · exact ⟨s.value.entries, sequence_eq_ok.mpr ⟨s, hs, mixed_of_mem_entries he⟩, e, he, hq, hn⟩

/-! ## Children -/

/-- What one slot lists is what it claims. -/
theorem Shaped.childrenIn_eq (hf : f.Shaped) {x : Node} {gs : List Feature} {i : Nat}
    (hx : f.nodes[n.index]? = some x) (hgs : f.schema.features x.type = .ok gs)
    (hg : gs[i]? = some g) (hs : x.slots[i]? = some s) :
    childrenIn gs g s = (f.claims n ⟨i⟩ s.value).map Prod.fst := by
  obtain ⟨type, htype, rfl⟩ := Schema.features_eq_ok.mp hgs
  have hfeature : ∀ {j h}, type.features[j]? = some h → f.feature n ⟨j⟩ = .ok h := fun hj =>
    feature_eq_ok.mpr ⟨x.type, typeOf_eq_ok.mpr ⟨x, hx, rfl⟩,
      Schema.feature_eq_ok.mpr ⟨type, htype, hj⟩⟩
  have hgn := hfeature hg
  have hsn : f.slot n ⟨i⟩ = .ok s := slot_eq_ok.mpr ⟨x, hx, hs⟩
  unfold childrenIn
  cases hr : g.role with
  | containment =>
    rw [claims_of_containment hgn (by simp [Property.owns, hr]), List.map_map]
    cases ho : g.owner with
    | none => exact (List.map_id _).symm
    | some m =>
      rw [hf.member n ⟨i⟩ g s hgn (by simp [ho]) hsn]
      rfl
  | mixed =>
    rw [claims_of_mixed hgn (by simp [Property.isMixed, hr])]
    simp only [List.map_filterMap]
    refine List.filterMap_congr fun e _ => ?_
    cases hh : type.features[e.property.index]? with
    | none =>
      have hno : f.ownsAt n e.property = false := by
        cases hown : f.ownsAt n e.property with
        | false => rfl
        | true =>
          obtain ⟨k, hk, -⟩ := ownsAt_iff.mp hown
          obtain ⟨t, htn, hkt⟩ := feature_eq_ok.mp hk
          obtain ⟨y, hy, rfl⟩ := typeOf_eq_ok.mp htn
          rw [hx, Option.some.injEq] at hy
          subst hy
          obtain ⟨type', htype', hk⟩ := Schema.feature_eq_ok.mp hkt
          rw [htype, Option.some.injEq] at htype'
          rw [← htype', hh] at hk
          exact absurd hk (by simp)
      simp [entryClaim, hno]
    | some h =>
      have hk : f.feature n e.property = .ok h := hfeature hh
      rw [entryClaim_of_feature hk]
      cases how : h.owns <;> cases e.value.node? <;> simp [how]
  | _ =>
    rw [claims_of_plain hgn (by simp [Property.owns, hr]) (by simp [Property.isMixed, hr])]
    rfl

/-- The children of a node, slot by slot. -/
theorem children_eq {x : Node} (hx : f.nodes[n.index]? = some x)
    {gs : List Feature} (hgs : f.schema.features x.type = .ok gs) :
    f.children n = (gs.zip x.slots).flatMap fun (g, s) => childrenIn gs g s := by
  unfold children
  simp only [hx, hgs]

theorem Shaped.exists_features (hf : f.Shaped) {x : Node} (hx : f.nodes[n.index]? = some x)
    (hs : f.slot n p = .ok s) :
    ∃ gs g, f.schema.features x.type = .ok gs ∧ f.feature n p = .ok g ∧ gs[p.index]? = some g ∧
      x.slots[p.index]? = some s := by
  obtain ⟨g, hg⟩ := hf.feature_of_slot n p s hs
  obtain ⟨t, htn, hgt⟩ := feature_eq_ok.mp hg
  obtain ⟨y, hy, rfl⟩ := typeOf_eq_ok.mp htn
  rw [hx, Option.some.injEq] at hy
  subst hy
  obtain ⟨type, htype, hgi⟩ := Schema.feature_eq_ok.mp hgt
  obtain ⟨y, hy, hsi⟩ := slot_eq_ok.mp hs
  rw [hx, Option.some.injEq] at hy
  subst hy
  exact ⟨type.features, g, Schema.features_eq_ok.mpr ⟨type, htype, rfl⟩, hg, hgi, hsi⟩

/-- The children of a node come in one list for each of its slots, that of what the slot claims. -/
theorem Shaped.exists_lists (hf : f.Shaped) (n : NodeId) :
    ∃ lists : List (List NodeId), f.children n = lists.flatten ∧ ∀ p l, lists[p.index]? = some l ↔
      ∃ s, f.slot n p = .ok s ∧ l = (f.claims n p s.value).map Prod.fst := by
  have hempty : f.children n = [] → (∀ p s, f.slot n p ≠ .ok s) →
      ∃ lists : List (List NodeId), f.children n = lists.flatten ∧
        ∀ p l, lists[p.index]? = some l ↔
          ∃ s, f.slot n p = .ok s ∧ l = (f.claims n p s.value).map Prod.fst := by
    intro hnil hno
    exact ⟨[], hnil, fun p l => iff_of_false (by simp) fun ⟨s, hs, _⟩ => hno p s hs⟩
  cases hx : f.nodes[n.index]? with
  | none =>
    refine hempty (by simp [children, hx]) fun p s hs => ?_
    obtain ⟨x, hx', -⟩ := slot_eq_ok.mp hs
    rw [hx] at hx'
    exact absurd hx' (by simp)
  | some x =>
    cases hgs : f.schema.features x.type with
    | error e =>
      refine hempty (by simp [children, hx, hgs]) fun p s hs => ?_
      obtain ⟨gs, -, hgs', -⟩ := hf.exists_features hx hs
      rw [hgs] at hgs'
      exact absurd hgs' (by simp)
    | ok gs =>
      refine ⟨(gs.zip x.slots).map fun (g, s) => childrenIn gs g s, ?_, fun p l => ?_⟩
      · rw [children_eq hx hgs, List.flatMap_def]
      · rw [List.getElem?_map, Option.map_eq_some_iff]
        constructor
        · rintro ⟨⟨g, s⟩, hi, rfl⟩
          obtain ⟨hg, hs⟩ := List.getElem?_zip_eq_some.mp hi
          exact ⟨s, slot_eq_ok.mpr ⟨x, hx, hs⟩, hf.childrenIn_eq hx hgs hg hs⟩
        · rintro ⟨s, hs, rfl⟩
          obtain ⟨gs', g, hgs', -, hg, hsi⟩ := hf.exists_features hx hs
          obtain rfl := ok_unique hgs hgs'
          exact ⟨(g, s), List.getElem?_zip_eq_some.mpr ⟨hg, hsi⟩, hf.childrenIn_eq hx hgs hg hsi⟩

/-- **The children of a node** are what its slots claim. -/
theorem Shaped.mem_children (hf : f.Shaped) :
    c ∈ f.children n ↔ ∃ p s q, f.slot n p = .ok s ∧ (c, q) ∈ f.claims n p s.value := by
  obtain ⟨lists, heq, hlists⟩ := hf.exists_lists n
  rw [heq, List.mem_flatten]
  constructor
  · rintro ⟨l, hl, hc⟩
    obtain ⟨i, hi⟩ := List.mem_iff_getElem?.mp hl
    obtain ⟨s, hs, rfl⟩ := (hlists ⟨i⟩ l).mp hi
    obtain ⟨⟨_, q⟩, hq, rfl⟩ := List.mem_map.mp hc
    exact ⟨⟨i⟩, s, q, hs, hq⟩
  · rintro ⟨p, s, q, hs, hc⟩
    exact ⟨_, List.mem_iff_getElem?.mpr ⟨p.index, (hlists p _).mpr ⟨s, hs, rfl⟩⟩,
      List.mem_map_of_mem hc⟩

/-- A node claims no child twice if each of its slots claims none twice and no two of them
claim the same one. -/
theorem Shaped.nodup_children_iff (hf : f.Shaped) : (f.children n).Nodup ↔
    (∀ p s, f.slot n p = .ok s → ((f.claims n p s.value).map Prod.fst).Nodup) ∧
      ∀ p p' s s' c q q', f.slot n p = .ok s → f.slot n p' = .ok s' →
        (c, q) ∈ f.claims n p s.value → (c, q') ∈ f.claims n p' s'.value → p = p' := by
  obtain ⟨lists, heq, hlists⟩ := hf.exists_lists n
  rw [heq, List.nodup_flatten, List.pairwise_iff_getElem]
  constructor
  · rintro ⟨hone, htwo⟩
    refine ⟨fun p s hs => hone _ ?_, fun p p' s s' c q q' hs hs' hc hc' => ?_⟩
    · exact List.mem_iff_getElem?.mpr ⟨p.index, (hlists p _).mpr ⟨s, hs, rfl⟩⟩
    · obtain ⟨hlt, hget⟩ := List.getElem?_eq_some_iff.mp ((hlists p _).mpr ⟨s, hs, rfl⟩)
      obtain ⟨hlt', hget'⟩ := List.getElem?_eq_some_iff.mp ((hlists p' _).mpr ⟨s', hs', rfl⟩)
      have hin : c ∈ lists[p.index] := by
        rw [hget]
        exact List.mem_map_of_mem hc
      have hin' : c ∈ lists[p'.index] := by
        rw [hget']
        exact List.mem_map_of_mem hc'
      -- The two slots come in one order or the other.
      by_contra hne
      rcases Nat.lt_or_gt_of_ne fun h => hne (PropertyId.ext h) with h | h
      · exact htwo p.index p'.index hlt hlt' h hin hin'
      · exact htwo p'.index p.index hlt' hlt h hin' hin
  · rintro ⟨hone, htwo⟩
    refine ⟨fun l hl => ?_, fun i j hi hj hij c hc hc' => ?_⟩
    · obtain ⟨i, hi⟩ := List.mem_iff_getElem?.mp hl
      obtain ⟨s, hs, rfl⟩ := (hlists ⟨i⟩ l).mp hi
      exact hone _ _ hs
    · obtain ⟨s, hs, heq⟩ := (hlists ⟨i⟩ _).mp (List.getElem?_eq_getElem hi)
      obtain ⟨s', hs', heq'⟩ := (hlists ⟨j⟩ _).mp (List.getElem?_eq_getElem hj)
      rw [heq] at hc
      rw [heq'] at hc'
      obtain ⟨⟨_, q⟩, hq, rfl⟩ := List.mem_map.mp hc
      obtain ⟨⟨_, q'⟩, hq', rfl⟩ := List.mem_map.mp hc'
      have hsame := htwo _ _ _ _ _ _ _ hs hs' hq hq'
      rw [PropertyId.mk.injEq] at hsame
      exact absurd hsame (Nat.ne_of_lt hij)

theorem mem_ids : n ∈ f.ids ↔ f.contains n = true := by
  simp only [ids, List.mem_map, List.mem_range, contains, decide_eq_true_eq]
  constructor
  · rintro ⟨i, hi, rfl⟩
    exact hi
  · exact fun h => ⟨n.index, h, rfl⟩

theorem nodup_ids : f.ids.Nodup :=
  List.nodup_range.map fun _ _ h => congrArg NodeId.index h

/-- **Places and slots agree exactly if the forest is linked.** -/
theorem Shaped.agrees_iff (hf : f.Shaped) : f.Agrees ↔ f.Linked := by
  constructor
  · rintro ⟨hplaced, honce⟩
    obtain ⟨hone, -⟩ := List.nodup_flatMap.mp honce
    refine ⟨fun n p s hs => ?_, fun n p s c q hs hc => ?_, fun c n q hp => ?_⟩
    · have hn : n ∈ f.ids := mem_ids.mpr (contains_of_slot hs)
      exact (hf.nodup_children_iff.mp (hone n hn)).1 p s hs
    · exact (hplaced c n q).mpr (hf.lists_iff.mpr ⟨p, s, hs, hc⟩)
    · exact hf.lists_iff.mp ((hplaced c n q).mp hp)
  · intro hl
    refine ⟨fun c n q => ?_, List.nodup_flatMap.mpr ⟨fun n _ => ?_, ?_⟩⟩
    · rw [hf.lists_iff]
      exact ⟨hl.listed c n q, fun ⟨p, s, hs, hc⟩ => hl.placed n p s c q hs hc⟩
    · refine hf.nodup_children_iff.mpr ⟨hl.once n, fun p p' s s' c q q' hs hs' hc hc' => ?_⟩
      exact (hl.slot_unique (c := c) hf hs' (List.mem_map_of_mem hc') hs
        (List.mem_map_of_mem hc)).2
    · refine nodup_ids.imp fun {n m} hne c hc hc' => hne ?_
      obtain ⟨p, s, q, hs, hq⟩ := hf.mem_children.mp hc
      obtain ⟨p', s', q', hs', hq'⟩ := hf.mem_children.mp hc'
      have hplace := hl.placed n p s c q hs hq
      rw [hl.placed m p' s' c q' hs' hq', Option.some.injEq, Place.mk.injEq] at hplace
      exact hplace.1.symm

theorem Typed.agrees_iff (ht : f.Typed) : f.Agrees ↔ f.Linked := ht.shaped.agrees_iff

/-! ## Computing -/

/-- The slots of a node, each with its property. -/
def slotsOf (f : Forest) (n : NodeId) : List (PropertyId × Slot) :=
  match f.nodes[n.index]? with
  | none => []
  | some x => x.slots.zipIdx.map fun (s, i) => (⟨i⟩, s)

theorem mem_slotsOf : (p, s) ∈ f.slotsOf n ↔ f.slot n p = .ok s := by
  rw [slot_eq_ok]
  unfold slotsOf
  cases f.nodes[n.index]? with
  | none => simp
  | some x =>
    simp only [List.mem_map, Prod.mk.injEq, Prod.exists, List.mem_zipIdx_iff_getElem?,
      Option.some.injEq, exists_eq_left']
    constructor
    · rintro ⟨s', i, hi, rfl, rfl⟩
      exact hi
    · exact fun h => ⟨s, p.index, h, rfl, rfl⟩

/-- Going through the slots and the places tells whether the forest is linked. -/
theorem linked_iff : f.Linked ↔
    (∀ n ∈ f.ids, ∀ x ∈ f.slotsOf n, ((f.claims n x.1 x.2.value).map Prod.fst).Nodup ∧
      ∀ y ∈ f.claims n x.1 x.2.value, f.place? y.1 = some ⟨n, y.2⟩) ∧
    ∀ c ∈ f.ids, ∀ place ∈ f.place? c, ∃ x ∈ f.slotsOf place.container,
      (c, place.property) ∈ f.claims place.container x.1 x.2.value := by
  constructor
  · refine fun hl => ⟨fun n _ x hx => ?_, fun c _ place hplace => ?_⟩
    · have hs := mem_slotsOf.mp hx
      exact ⟨hl.once n x.1 x.2 hs, fun y hy => hl.placed n x.1 x.2 y.1 y.2 hs hy⟩
    · obtain ⟨p, s, hs, hc⟩ := hl.listed c place.container place.property hplace
      exact ⟨(p, s), mem_slotsOf.mpr hs, hc⟩
  · rintro ⟨hslots, hplaces⟩
    refine ⟨fun n p s hs => ?_, fun n p s c q hs hc => ?_, fun c n q hp => ?_⟩
    · exact (hslots n (mem_ids.mpr (contains_of_slot hs)) (p, s) (mem_slotsOf.mpr hs)).1
    · exact (hslots n (mem_ids.mpr (contains_of_slot hs)) (p, s) (mem_slotsOf.mpr hs)).2 (c, q) hc
    · obtain ⟨x, hx, hc⟩ := hplaces c (mem_ids.mpr (contains_of_place hp)) ⟨n, q⟩ hp
      exact ⟨x.1, x.2, mem_slotsOf.mp hx, hc⟩

instance (f : Forest) : Decidable f.Linked := decidable_of_iff _ linked_iff.symm

end TrackedGraph.Forest
