/-
What reverting comes to for the places.

States are brought back by freeing the children of all their properties and then placing
the children that they list, one state after the other. `resettle` does this to the places
alone, without announcing anything, releasing anything or writing a slot; it fails if a
node would come below itself. Reverting follows it step by step (`SamePlaces.assigned`).
-/
import TrackedGraph.Proofs.Forest.Assigning
import TrackedGraph.Journal.Basic

set_option autoImplicit false

namespace TrackedGraph.Forest

variable {f f' : Forest} {n m c : NodeId} {p q : PropertyId} {new old : Slot}
  {x : PriorState} {xs : List PriorState}

/-- The children that the property of a state has at present. -/
def held (f : Forest) (x : PriorState) : List (NodeId × PropertyId) :=
  match f.slot x.node x.property with
  | .ok s => f.claims x.node x.property s.value
  | .error _ => []

/-- The children that a state lists. -/
def listed (f : Forest) (x : PriorState) : List (NodeId × PropertyId) :=
  f.claims x.node x.property x.value

/-- The children of the properties of all states are freed. -/
def emptied (f : Forest) (xs : List PriorState) : Forest :=
  f.free (xs.flatMap fun x => (f.held x).map Prod.fst)

/-- The children that the states list are placed, one state after the other. -/
def refill (f : Forest) : List PriorState → Option Forest
  | [] => some f
  | x :: xs =>
    if (f.listed x).any fun c => f.isWithin x.node c.1 then none
    else (f.take x.node (f.listed x)).refill xs

/-- **The places once the states are brought back**, unless a node would come below itself. -/
def resettle (f : Forest) (xs : List PriorState) : Option Forest := (f.emptied xs).refill xs

theorem held_of_slot (hs : f.slot x.node x.property = .ok old) :
    f.held x = f.claims x.node x.property old.value := by
  unfold held
  rw [hs]

theorem listed_take {l : List (NodeId × PropertyId)} : (f.take n l).listed x = f.listed x :=
  claims_congr fun q => feature_congr (schema_take l) (typeOf_take l) q

theorem listed_emptied : (f.emptied xs).listed x = f.listed x :=
  claims_congr fun q => feature_congr (schema_free _) (typeOf_free _) q

theorem contains_emptied : (f.emptied xs).contains n = f.contains n :=
  contains_congr (typeOf_free _)

/-- What the property of a state claims sits nowhere once the states are emptied. -/
theorem place?_emptied_of_mem (hx : x ∈ xs) (hs : f.slot x.node x.property = .ok old)
    (hc : (c, q) ∈ f.claims x.node x.property old.value) : (f.emptied xs).place? c = none := by
  rw [emptied, place?_free, if_pos]
  refine List.mem_flatMap.mpr ⟨x, hx, ?_⟩
  rw [held_of_slot hs]
  exact List.mem_map_of_mem hc

/-- What another property claims stays where it is. -/
theorem Sound.place?_emptied (hf : f.Sound True) (hs : f.slot n p = .ok old)
    (hc : (c, q) ∈ f.claims n p old.value)
    (hnone : ∀ x ∈ xs, ¬ (x.node = n ∧ x.property = p)) :
    (f.emptied xs).place? c = f.place? c := by
  rw [emptied, place?_free, if_neg]
  intro hheld
  obtain ⟨x, hx, hcx⟩ := List.mem_flatMap.mp hheld
  cases ht : f.slot x.node x.property with
  | error e =>
    unfold held at hcx
    rw [ht] at hcx
    exact absurd hcx List.not_mem_nil
  | ok t =>
    rw [held_of_slot ht] at hcx
    exact hnone x hx ((hf.linked trivial).slot_unique hf.toTyped.shaped hs
      (List.mem_map_of_mem hc) ht hcx)

/-! ## States without children -/

/-- States that list no children make no difference. -/
theorem refill_filter {b : PriorState → Bool} (h : ∀ x ∈ xs, b x = false → f.listed x = []) :
    f.refill xs = f.refill (xs.filter b) := by
  induction xs generalizing f with
  | nil => rfl
  | cons x xs ih =>
    obtain ⟨hx, hxs⟩ := List.forall_mem_cons.mp h
    rw [List.filter_cons]
    cases hb : b x with
    | true =>
      simp only [if_true, refill]
      rw [ih fun y hy hby => listed_take.trans (hxs y hy hby)]
    | false =>
      rw [if_neg (by simp), ← ih hxs, refill, hx hb]
      rfl

/-- Nodes and types stay. -/
theorem refill_frame (h : f.refill xs = some f') :
    f'.schema = f.schema ∧ ∀ m, f'.typeOf m = f.typeOf m := by
  induction xs generalizing f with
  | nil =>
    obtain rfl := Option.some.inj h
    exact ⟨rfl, fun _ => rfl⟩
  | cons x xs ih =>
    rw [refill] at h
    split_ifs at h
    obtain ⟨hs, ht⟩ := ih h
    exact ⟨hs.trans (schema_take _), fun m => (ht m).trans (typeOf_take _)⟩

theorem resettle_feature (h : f.resettle xs = some f') : f'.feature m q = f.feature m q := by
  obtain ⟨hs, ht⟩ := refill_frame h
  exact feature_congr (hs.trans (schema_free _)) ((ht m).trans (typeOf_free _)) q

theorem refill_eq_self (h : ∀ x ∈ xs, f.listed x = []) : f.refill xs = some f := by
  rw [refill_filter (b := fun _ => false) fun x hx _ => h x hx, List.filter_false]
  rfl

/-- **A child that only states of one node list** ends up in that node if it sits there
already or some state lists it. -/
theorem refill_under (h : f.refill xs = some f')
    (hd : ∀ x ∈ xs, ((f.listed x).map Prod.fst).Nodup)
    (hc : ∀ x ∈ xs, ∀ y ∈ f.listed x, f.contains y.1 = true)
    (hnode : ∀ x ∈ xs, c ∈ (f.listed x).map Prod.fst → x.node = n)
    (hc' : f.Under c n ∨ ∃ x ∈ xs, c ∈ (f.listed x).map Prod.fst) : f'.Under c n := by
  induction xs generalizing f with
  | nil =>
    obtain rfl := Option.some.inj h
    exact hc'.resolve_right (by simp)
  | cons x xs ih =>
    obtain ⟨hdx, hd⟩ := List.forall_mem_cons.mp hd
    obtain ⟨hcx, hc⟩ := List.forall_mem_cons.mp hc
    obtain ⟨hnx, hnode⟩ := List.forall_mem_cons.mp hnode
    rw [refill] at h
    split_ifs at h
    have hlisted : ∀ y, (f.take x.node (f.listed x)).listed y = f.listed y := fun _ => listed_take
    have hcontains : ∀ m, (f.take x.node (f.listed x)).contains m = f.contains m :=
      fun _ => contains_congr (typeOf_take _)
    refine ih h (by simpa only [hlisted] using hd) (by simpa only [hlisted, hcontains] using hc)
      (by simpa only [hlisted] using hnode) ?_
    simp only [hlisted]
    -- Once a state has listed it, it is in the node, and later states leave it there.
    by_cases hx : c ∈ (f.listed x).map Prod.fst
    · obtain ⟨y, hy, rfl⟩ := List.mem_map.mp hx
      refine .inl ⟨y.2, ?_⟩
      rw [place?_take_of_mem hdx (hcx y hy) hy, hnx hx]
    · rcases hc' with ⟨q, hq⟩ | ⟨y, hy, hcy⟩
      · exact .inl ⟨q, (place?_take_of_not_mem hx).trans hq⟩
      · rcases List.mem_cons.mp hy with rfl | hy
        · exact absurd hcy hx
        · exact .inr ⟨y, hy, hcy⟩

theorem emptied_filter {b : PriorState → Bool} (h : ∀ x ∈ xs, b x = false → f.held x = []) :
    f.emptied (xs.filter b) = f.emptied xs := by
  unfold emptied
  congr 1
  induction xs with
  | nil => rfl
  | cons x xs ih =>
    obtain ⟨hx, hxs⟩ := List.forall_mem_cons.mp h
    rw [List.filter_cons, List.flatMap_cons]
    cases hb : b x with
    | true => rw [if_pos rfl, List.flatMap_cons, ih hxs]
    | false => rw [if_neg (by simp), ih hxs, hx hb, List.map_nil, List.nil_append]

/-! ## Forests with the same places -/

/-- Two forests have the same nodes in the same places. -/
structure SamePlaces (f h : Forest) : Prop where
  schema : h.schema = f.schema
  typeOf : ∀ m, h.typeOf m = f.typeOf m
  place? : ∀ m, h.place? m = f.place? m

namespace SamePlaces

variable {h : Forest}

theorem feature (hs : f.SamePlaces h) : h.feature m q = f.feature m q :=
  feature_congr hs.schema (hs.typeOf m) q

theorem listed (hs : f.SamePlaces h) : h.listed x = f.listed x := claims_congr fun _ => hs.feature

theorem isWithin (hs : f.SamePlaces h) (ha : f.Acyclic) : h.isWithin n m = f.isWithin n m := by
  have hunder : ∀ a b, h.Under a b ↔ f.Under a b := by
    intro a b
    unfold Under
    rw [hs.place?]
  have hh : h.Acyclic := ha.of_under fun a b => (hunder a b).mp
  rw [Bool.eq_iff_iff, isWithin_iff ha, isWithin_iff hh]
  exact ⟨.of_under fun a b => (hunder a b).mp, .of_under fun a b => (hunder a b).mpr⟩

/-- **An assignment to an empty slot** moves the children that come in and no others. -/
theorem assigned (hs : f.SamePlaces h) (hf : f.Sound True) (ha : f.Assigned n p new f')
    (hold : f.slot n p = .ok old) (hempty : f.claims n p old.value = []) :
    f'.SamePlaces (h.take n (f.claims n p new.value)) := by
  refine ⟨?_, fun m => ?_, fun m => ?_⟩
  · rw [schema_take, ha.schema, hs.schema]
  · rw [typeOf_take, ha.typeOf, hs.typeOf]
  · have hf' := ha.sound hf
    have hnodup : ((f.claims n p new.value).map Prod.fst).Nodup := by
      rw [← ha.claims]
      exact (hf'.linked trivial).once n p new ha.slot_self
    by_cases hm : m ∈ (f.claims n p new.value).map Prod.fst
    · obtain ⟨⟨_, r⟩, hr, rfl⟩ := List.mem_map.mp hm
      have hplace := ha.place?_of_claimed hf hr
      rw [hplace, place?_take_of_mem hnodup ?_ hr]
      rw [contains_congr (hs.typeOf _), ← contains_congr ha.typeOf]
      exact contains_of_place hplace
    · rw [place?_take_of_not_mem hm, ha.place?_of_not hold hm, hempty, hs.place?]
      rfl

end SamePlaces

/-! ## Going back to earlier places -/

/-- What sits in a node of the tree sat there before. -/
def Settled (f f₀ : Forest) (tree : NodeId → Prop) : Prop :=
  ∀ n m q, f.place? n = some ⟨m, q⟩ → tree m → f₀.place? n = some ⟨m, q⟩

section settled

variable {f₀ : Forest} {tree : NodeId → Prop}

theorem Settled.within (hs : f.Settled f₀ tree) (htree : ∀ n m, f₀.Under n m → tree m → tree n)
    (h : f.Within n m) (hm : tree m) : f₀.Within n m := by
  induction h with
  | refl => exact .refl
  | tail _ hu ih =>
    obtain ⟨q, hq⟩ := hu
    have hu₀ : f₀.Under _ _ := ⟨q, hs _ _ q hq hm⟩
    exact (ih (htree _ _ hu₀ hm)).tail hu₀

theorem Settled.take (hs : f.Settled f₀ tree) {l : List (NodeId × PropertyId)}
    (hd : (l.map Prod.fst).Nodup) (hc : ∀ y ∈ l, f.contains y.1 = true)
    (hl : ∀ y ∈ l, f₀.place? y.1 = some ⟨n, y.2⟩) : (f.take n l).Settled f₀ tree := by
  intro m k q hq hk
  by_cases hm : m ∈ l.map Prod.fst
  · obtain ⟨y, hy, rfl⟩ := List.mem_map.mp hm
    rw [place?_take_of_mem hd (hc y hy) hy] at hq
    rw [hl y hy, hq]
  · rw [place?_take_of_not_mem hm] at hq
    exact hs m k q hq hk

/-- **States that list what sat in the tree** can be brought back one after the other, and
their children end up where they sat. -/
theorem Settled.refill (hs : f.Settled f₀ tree) (ha : f₀.Acyclic)
    (htree : ∀ n m, f₀.Under n m → tree m → tree n)
    (hd : ∀ x ∈ xs, ((f.listed x).map Prod.fst).Nodup)
    (hc : ∀ x ∈ xs, ∀ y ∈ f.listed x, f.contains y.1 = true)
    (hxs : ∀ x ∈ xs, ∀ y ∈ f.listed x, tree x.node ∧ f₀.place? y.1 = some ⟨x.node, y.2⟩) :
    ∃ f', f.refill xs = some f' ∧ ∀ c, f'.place? c =
      if c ∈ xs.flatMap (fun x => (f.listed x).map Prod.fst) then f₀.place? c else f.place? c := by
  induction xs generalizing f with
  | nil => exact ⟨f, rfl, fun c => by simp⟩
  | cons x xs ih =>
    obtain ⟨hdx, hd⟩ := List.forall_mem_cons.mp hd
    obtain ⟨hcx, hc⟩ := List.forall_mem_cons.mp hc
    obtain ⟨hx, hxs⟩ := List.forall_mem_cons.mp hxs
    -- No child of the state encloses its node, since none did at the start.
    have hno : ¬ ((f.listed x).any fun y => f.isWithin x.node y.1) = true := by
      intro hany
      obtain ⟨y, hy, hin⟩ := List.any_eq_true.mp hany
      obtain ⟨hnode, hplace⟩ := hx y hy
      have hu : f₀.Under y.1 x.node := ⟨y.2, hplace⟩
      exact ha.not_within hu (hs.within htree (within_of_isWithin hin) (htree _ _ hu hnode))
    have hlisted : ∀ y, (f.take x.node (f.listed x)).listed y = f.listed y := fun _ => listed_take
    have hcontains : ∀ m, (f.take x.node (f.listed x)).contains m = f.contains m :=
      fun _ => contains_congr (typeOf_take _)
    obtain ⟨f', hf', hplace⟩ := ih (hs.take hdx hcx fun y hy => (hx y hy).2)
      (by simpa only [hlisted] using hd) (by simpa only [hlisted, hcontains] using hc)
      (by simpa only [hlisted] using hxs)
    refine ⟨f', by rw [Forest.refill, if_neg hno, hf'], fun c => ?_⟩
    rw [hplace, List.flatMap_cons]
    simp only [hlisted, List.mem_append]
    by_cases hrest : c ∈ xs.flatMap fun x => (f.listed x).map Prod.fst
    · rw [if_pos hrest, if_pos (.inr hrest)]
    · rw [if_neg hrest]
      by_cases hcl : c ∈ (f.listed x).map Prod.fst
      · rw [if_pos (.inl hcl)]
        obtain ⟨y, hy, rfl⟩ := List.mem_map.mp hcl
        rw [place?_take_of_mem hdx (hcx y hy) hy, (hx y hy).2]
      · rw [if_neg (not_or.mpr ⟨hcl, hrest⟩), place?_take_of_not_mem hcl]

end settled

end TrackedGraph.Forest
