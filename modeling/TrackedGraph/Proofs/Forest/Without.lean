/-
Forests without a child.

What releasing a child does to a forest is a function of the forest: the child is gone from the
slot that lists it, and it sits nowhere (`Forest.without`). An orderly forest stays orderly, and
all that was in another slot stays there. One thing more can happen. A single-valued property
holds one child at most, but what it rests at may name several, and its slot is emptied as a
whole. So a child that shares such a slot loses its place as well (`Forest.Shares`).

A write to another slot does not matter to a release, nor does the release to the write, as long
as they concern different children (`Orderly.without_write`). This is what allows children to be
released one by one, before or after others have moved in.
-/
import TrackedGraph.Proofs.Forest.Shaped
import TrackedGraph.Proofs.Forest.Whereabouts

set_option autoImplicit false

namespace TrackedGraph

/-- The children that go with the one at a position: a single value goes as a whole. -/
def Slot.losing (s : Slot) (c : NodeId) : Position → List NodeId
  | .single => s.value.nodes
  | .listed _ | .mixed _ => [c]

/-- **What becomes of the slot that a child leaves**, where the child sits under the property `q`.
A list or sequence keeps the rest in order and is unset when it is empty; a single value becomes
null and stays set. -/
inductive Slot.Loses (q : PropertyId) (c : NodeId) (g : Feature) : Slot → Slot → Prop
  | item (before after : List Value) (isSet : Bool) (hm : g.many = true) (hx : g.isMixed = false) :
    Loses q c g ⟨.list (before ++ .node c :: after), isSet⟩
      ⟨.list (before ++ after), !(before ++ after).isEmpty⟩
  | entry (before after : List (Entry Value)) (isSet : Bool) (hx : g.isMixed = true) :
    Loses q c g ⟨.mixed (before ++ ⟨q, .node c⟩ :: after), isSet⟩
      ⟨.mixed (before ++ after), !(before ++ after).isEmpty⟩
  | single (v : Value) (isSet : Bool) (hm : g.many = false) (hc : c ∈ v.nodes) :
    Loses q c g ⟨v, isSet⟩ ⟨.null, true⟩

namespace Forest

variable {f f' : Forest} {n m c : NodeId} {p q : PropertyId} {g : Feature} {s t old new : Slot}
  {w : Whereabouts} {host : PropertyId} {place : Place} {freed freed' : List NodeId}
  {taken taken' : List (NodeId × PropertyId)}

/-! ## Writing more than once -/

theorem take_append : f.take n (taken ++ taken') = (f.take n taken).take n taken' :=
  List.foldl_append

/-- Where a node sits once others were taken in does not depend on where the others sat. -/
theorem place?_take_congr (hc : f'.contains m = f.contains m)
    (hp : m ∉ taken.map Prod.fst → f'.place? m = f.place? m) :
    (f'.take n taken).place? m = (f.take n taken).place? m := by
  induction taken generalizing f f' with
  | nil => exact hp (by simp)
  | cons x taken ih =>
    show ((f'.setPlace x.1 _).take n taken).place? m = ((f.setPlace x.1 _).take n taken).place? m
    refine ih ?_ fun hm => ?_
    · rw [contains_congr (typeOf_setPlace _), contains_congr (typeOf_setPlace _), hc]
    · rw [place?_setPlace, place?_setPlace]
      by_cases hx : m = x.1
      · subst hx
        rw [hc]
        by_cases hin : f.contains x.1 = true
        · rw [if_pos ⟨rfl, hin⟩, if_pos ⟨rfl, hin⟩]
        · rw [if_neg fun h => hin h.2, if_neg fun h => hin h.2,
            place?_eq_none_of_not_contains hin,
            place?_eq_none_of_not_contains (by rw [hc]; exact hin)]
      · rw [if_neg fun h => hx h.1, if_neg fun h => hx h.1, hp (by simp [hx, hm])]

theorem place?_write_congr (hc : f'.contains m = f.contains m)
    (hp : m ∉ taken.map Prod.fst →
      (if m ∈ freed' then none else f'.place? m) = if m ∈ freed then none else f.place? m) :
    (f'.write n p s freed' taken).place? m = (f.write n p t freed taken).place? m := by
  simp only [write, place?_setSlot]
  refine place?_take_congr ?_ fun hm => ?_
  · rw [contains_congr (typeOf_free _), contains_congr (typeOf_free _), hc]
  · rw [place?_free, place?_free, hp hm]

/-- **Writing a slot once more** is writing it once. -/
theorem write_write (hs : f.slot n p = .ok old) :
    (f.write n p s freed taken).write n p t [] taken' = f.write n p t freed (taken ++ taken') := by
  refine ext_lookup (by simp) (fun _ => by simp) (fun m q u => ?_) fun m => ?_
  · by_cases heq : (n, p) = (m, q)
    · obtain ⟨rfl, rfl⟩ := Prod.mk.injEq .. ▸ heq
      rw [slot_write_self (slot_write_self hs), slot_write_self hs]
    · rw [slot_write_of_ne heq, slot_write_of_ne heq, slot_write_of_ne heq]
  · simp only [write, place?_setSlot, take_append]
    refine place?_take_congr ?_ fun _ => ?_
    · exact contains_congr ((typeOf_free []).trans (typeOf_setSlot s))
    · exact place?_setSlot s

/-- That a child is freed first does not matter if it is taken in then. -/
theorem write_freed (hs : f.slot n p = .ok old)
    (h : ∀ m, m ∉ taken.map Prod.fst → (m ∈ freed' ↔ m ∈ freed)) :
    f.write n p s freed' taken = f.write n p s freed taken := by
  refine ext_lookup (by simp) (fun _ => by simp) (fun m q u => ?_) fun m => ?_
  · by_cases heq : (n, p) = (m, q)
    · obtain ⟨rfl, rfl⟩ := Prod.mk.injEq .. ▸ heq
      rw [slot_write_self hs, slot_write_self hs]
    · rw [slot_write_of_ne heq, slot_write_of_ne heq]
  · refine place?_write_congr rfl fun hm => ?_
    simp only [h m hm]

/-- **Writes to two slots commute** if one of them frees children that the other leaves alone. -/
theorem write_comm (hne : (n, p) ≠ (m, q)) (hs : f.slot n p = .ok old) (ht : f.slot m q = .ok new)
    {u : Slot} (hfreed : ∀ c ∈ freed', c ∉ freed) (htaken : ∀ c ∈ freed', c ∉ taken.map Prod.fst) :
    (f.write n p s freed taken).write m q u freed' [] =
      (f.write m q u freed' []).write n p s freed taken := by
  refine ext_lookup (by simp) (fun _ => by simp) (fun n' p' u' => ?_) fun c => ?_
  · by_cases heq : (n, p) = (n', p')
    · obtain ⟨rfl, rfl⟩ := Prod.mk.injEq .. ▸ heq
      rw [slot_write_of_ne (Ne.symm hne), slot_write_self hs,
        slot_write_self ((slot_write_of_ne (Ne.symm hne)).trans hs)]
    · by_cases heq' : (m, q) = (n', p')
      · obtain ⟨rfl, rfl⟩ := Prod.mk.injEq .. ▸ heq'
        rw [slot_write_self ((slot_write_of_ne hne).trans ht), slot_write_of_ne hne,
          slot_write_self ht]
      · rw [slot_write_of_ne heq', slot_write_of_ne heq, slot_write_of_ne heq,
          slot_write_of_ne heq']
  · rw [place?_write_of_not_taken (by simp)]
    by_cases hc : c ∈ freed'
    · rw [if_pos hc, place?_write_of_not_taken (htaken c hc), if_neg (hfreed c hc),
        place?_write_of_not_taken (by simp), if_pos hc]
    · rw [if_neg hc]
      refine place?_write_congr contains_write.symm fun _ => ?_
      rw [place?_write_of_not_taken (by simp), if_neg hc]

/-! ## Writing an orderly forest -/

theorem Shaped.free (hf : f.Shaped) (cs : List NodeId) : (f.free cs).Shaped := by
  induction cs generalizing f with
  | nil => exact hf
  | cons c cs ih => exact ih (hf.setPlace none)

theorem Shaped.take (hf : f.Shaped) (cs : List (NodeId × PropertyId)) : (f.take n cs).Shaped := by
  induction cs generalizing f with
  | nil => exact hf
  | cons c cs ih => exact ih (hf.setPlace _)

/-- **A rewrite keeps a forest orderly.** -/
theorem Orderly.write (hf : f.Orderly) (h : f.Rewrite True n p g old new freed taken)
    (hc : ∀ x ∈ taken, f.contains x.1 = true) : (f.write n p new freed taken).Orderly := by
  refine ⟨?_, hf.linked.write h hf.shaped hc, hf.acyclic.write h⟩
  have hgrown : GrownFrom f ((f.free freed).take n taken) :=
    ⟨(schema_take _).trans (schema_free _), fun m u hu =>
      (typeOf_take _).trans ((typeOf_free _).trans hu)⟩
  exact ((hf.shaped.free freed).take taken).setSlot
    ((slot_take taken).trans ((slot_free freed).trans h.slot)) (hgrown.feature h.feature) h.direct
    (hgrown.mayHold h.fits.mayHold)

/-! ## Where a child is found -/

/-- The property whose slot lists what sits at a place: the mixed content for a member. -/
def hostOf (f : Forest) (place : Place) : PropertyId :=
  match f.feature place.container place.property with
  | .ok k => k.owner.getD place.property
  | .error _ => place.property

theorem Hosts.hostOf_eq (h : f.Hosts place host g) : f.hostOf place = host := by
  obtain ⟨k, hk, -, rfl, -⟩ := h
  unfold hostOf
  rw [hk]

/-- **All that is known of where a child sits**: the slot that lists it, what the slot holds and
at which position the child is. -/
structure Found (f : Forest) (w : Whereabouts) (host : PropertyId) (g : Feature) (s : Slot) :
    Prop where
  whereabouts : f.whereabouts w.child = .ok (some w)
  place : f.place? w.child = some w.place
  hosts : f.Hosts w.place host g
  suits : w.position.Suits g
  slot : f.slot w.place.container host = .ok s
  found : FoundAt s w.place.property w.child w.position

/-- In an orderly forest a child is found where it sits. -/
theorem Orderly.exists_found (hf : f.Orderly) (hp : f.place? c = some place) :
    ∃ w host g s, w.child = c ∧ w.place = place ∧ f.Found w host g s := by
  obtain ⟨o, ho⟩ := hf.linked.exists_whereabouts hf.shaped c
  cases o with
  | none =>
    rw [place?_of_whereabouts ho] at hp
    exact absurd hp (by simp)
  | some w =>
    obtain ⟨rfl, hplace, host, g, s, hh, hsuits, hs, hfound⟩ :=
      hf.shaped.of_whereabouts (fun n q h => hf.linked.ownsAt h) ho
    rw [hp, Option.some.injEq] at hplace
    exact ⟨w, host, g, s, rfl, hplace.symm, ho, hplace ▸ hp, hh, hsuits, hs, hfound⟩

section found

variable (h : f.Found w host g s)

include h

/-- The slot claims the child. -/
theorem Found.claimed (hf : f.Orderly) :
    (w.child, w.place.property) ∈ f.claims w.place.container host s.value :=
  hf.linked.claimed hf.shaped h.hosts h.place h.slot

/-- A slot that does not list the child is another one. -/
theorem Found.ne_of_not_mem (hf : f.Orderly) (hs : f.slot n p = .ok t)
    (hc : w.child ∉ (f.claims n p t.value).map Prod.fst) : (w.place.container, host) ≠ (n, p) := by
  intro heq
  obtain ⟨rfl, rfl⟩ := Prod.mk.injEq .. ▸ heq
  obtain rfl := ok_unique h.slot hs
  exact hc (List.mem_map_of_mem (h.claimed hf))

/-- What the slot loses are children of its own. -/
theorem Found.claimed_of_losing (hf : f.Orderly) (hc : c ∈ s.losing w.child w.position) :
    c ∈ (f.claims w.place.container host s.value).map Prod.fst := by
  have hclaimed := h.claimed hf
  have hsuits := h.suits
  unfold Slot.losing at hc
  split at hc
  · next hpos =>
    rw [hpos] at hsuits
    obtain ⟨-, hown⟩ := h.hosts.of_not_mixed hf.shaped hsuits.2
    rw [claims_of_containment h.hosts.host_feature hown, List.map_map]
    exact List.mem_map.mpr ⟨c, hc, rfl⟩
  all_goals
    obtain rfl := List.mem_singleton.mp hc
    exact List.mem_map_of_mem hclaimed

/-- The slot loses the child. -/
theorem Found.loses (hf : f.Orderly) :
    Slot.Loses w.place.property w.child g s (s.without w.position) := by
  have hclaimed := h.claimed hf
  have hsuits := h.suits
  have hfound := h.found
  obtain ⟨v, isSet⟩ := s
  rcases hpos : w.position with _ | i | i <;> rw [hpos] at hsuits hfound
  · exact .single v isSet hsuits.1 (mem_nodes_of_mem_claims hclaimed)
  · obtain ⟨items, rfl, hi⟩ := hfound
    have hitem := Slot.Loses.item (q := w.place.property) (c := w.child) (items.take i)
      (items.drop (i + 1)) isSet hsuits.1 hsuits.2
    rw [← eq_take_cons_drop hi, ← List.eraseIdx_eq_take_drop_succ] at hitem
    exact hitem
  · obtain ⟨entries, rfl, hi⟩ := hfound
    have hentry := Slot.Loses.entry (q := w.place.property) (c := w.child) (entries.take i)
      (entries.drop (i + 1)) isSet hsuits.2
    rw [← eq_take_cons_drop hi, ← List.eraseIdx_eq_take_drop_succ] at hentry
    exact hentry

/-- Taking the child out is a rewrite. -/
theorem Found.rewrite (hf : f.Orderly) : f.Rewrite True w.place.container host g s
    (s.without w.position) (s.losing w.child w.position) [] := by
  have hsuits := h.suits
  have hfound := h.found
  obtain ⟨k, hk, hown, -⟩ := id h.hosts
  rcases hpos : w.position with _ | i | i <;> rw [hpos] at hsuits hfound
  · -- A single value is replaced by null, and nothing is left to claim.
    obtain ⟨-, hgown⟩ := h.hosts.of_not_mixed hf.shaped hsuits.2
    have hclaims := claims_of_containment (v := s.value) h.hosts.host_feature hgown
    have hfits : f.SlotFits w.place.container host g ⟨.null, true⟩ :=
      ⟨fun hset => absurd hset (by simp), fun _ => (fits_single hsuits.2 hsuits.1).mpr (.inl rfl),
        fun _ hm => absurd (hsuits.1.symm.trans hm) (by simp)⟩
    have hw := rewrite_out (A := []) (C := []) (fun _ : True => hf.linked) h.hosts.host_feature
      h.hosts.direct h.slot hfits (hclaims.trans (List.append_nil _).symm) claims_null
    rw [List.map_map, show (Prod.fst ∘ fun c => (c, host)) = id from rfl, List.map_id] at hw
    exact hw
  · obtain ⟨items, hv, hi⟩ := hfound
    obtain ⟨-, hgown⟩ := h.hosts.of_not_mixed hf.shaped hsuits.2
    have hw := hf.shaped.rewrite_removeItem (fun _ : True => hf.linked) h.hosts.host_feature
      h.hosts.direct hsuits.1 hsuits.2 h.slot hv hi
    rw [if_pos hgown] at hw
    exact hw
  · obtain ⟨entries, hv, hi⟩ := hfound
    have hw := hf.shaped.rewrite_removeEntry (fun _ : True => hf.linked) h.hosts.host_feature
      h.hosts.direct hsuits.2 h.slot hv hk hi
    rw [if_pos hown] at hw
    exact hw

end found

/-! ## The forest without a child -/

/-- **The forest without a child**: it is gone from the slot that lists it and sits nowhere. -/
def without (f : Forest) (c : NodeId) : Forest :=
  match f.whereabouts c with
  | .ok (some w) =>
    match f.slot w.place.container (f.hostOf w.place) with
    | .ok s => f.write w.place.container (f.hostOf w.place) (s.without w.position)
        (s.losing c w.position) []
    | .error _ => f
  | _ => f

theorem Found.without_eq (h : f.Found w host g s) :
    f.without w.child = f.write w.place.container host (s.without w.position)
      (s.losing w.child w.position) [] := by
  unfold without
  simp only [h.whereabouts, h.hosts.hostOf_eq, h.slot]

theorem without_of_none (h : f.place? c = none) : f.without c = f := by
  have hw : f.whereabouts c = .ok none := by
    unfold whereabouts
    rw [h]
    rfl
  unfold without
  rw [hw]

/-- Releasing is a write, or nothing. -/
theorem without_eq (f : Forest) (c : NodeId) :
    f.without c = f ∨ ∃ n p s cs, f.without c = f.write n p s cs [] := by
  unfold without
  split
  · split
    · exact .inr ⟨_, _, _, _, rfl⟩
    · exact .inl rfl
  · exact .inl rfl

@[simp] theorem schema_without : (f.without c).schema = f.schema := by
  rcases f.without_eq c with h | ⟨n, p, s, cs, h⟩ <;> simp [h]

@[simp] theorem typeOf_without : (f.without c).typeOf m = f.typeOf m := by
  rcases f.without_eq c with h | ⟨n, p, s, cs, h⟩ <;> simp [h]

@[simp] theorem feature_without : (f.without c).feature m q = f.feature m q :=
  feature_congr schema_without typeOf_without q

@[simp] theorem contains_without : (f.without c).contains m = f.contains m :=
  contains_congr typeOf_without

@[simp] theorem claims_without {v : Value} : (f.without c).claims m q v = f.claims m q v :=
  claims_congr fun _ => feature_without

/-- No node gets a place. -/
theorem place?_of_without (h : (f.without c).place? m = some place) : f.place? m = some place := by
  rcases f.without_eq c with heq | ⟨n, p, s, cs, heq⟩ <;> rw [heq] at h
  · exact h
  · rw [place?_write_of_not_taken (by simp)] at h
    split at h
    · exact absurd h (by simp)
    · exact h

/-- The forest without several children, one after the other. -/
def withoutAll (f : Forest) (cs : List NodeId) : Forest := cs.foldl without f

theorem withoutAll_cons {cs : List NodeId} :
    f.withoutAll (c :: cs) = (f.without c).withoutAll cs := rfl

@[simp] theorem withoutAll_nil : f.withoutAll [] = f := rfl

@[simp] theorem schema_withoutAll {cs : List NodeId} : (f.withoutAll cs).schema = f.schema := by
  induction cs generalizing f with
  | nil => rfl
  | cons c cs ih => rw [withoutAll_cons, ih, schema_without]

@[simp] theorem typeOf_withoutAll {cs : List NodeId} :
    (f.withoutAll cs).typeOf m = f.typeOf m := by
  induction cs generalizing f with
  | nil => rfl
  | cons c cs ih => rw [withoutAll_cons, ih, typeOf_without]

@[simp] theorem feature_withoutAll {cs : List NodeId} :
    (f.withoutAll cs).feature m q = f.feature m q :=
  feature_congr schema_withoutAll typeOf_withoutAll q

@[simp] theorem contains_withoutAll {cs : List NodeId} :
    (f.withoutAll cs).contains m = f.contains m :=
  contains_congr typeOf_withoutAll

@[simp] theorem claims_withoutAll {cs : List NodeId} {v : Value} :
    (f.withoutAll cs).claims m q v = f.claims m q v :=
  claims_congr fun _ => feature_withoutAll

theorem lostChildren_withoutAll {cs : List NodeId} {v v' : Value} :
    (f.withoutAll cs).lostChildren m q v v' = f.lostChildren m q v v' := by
  unfold lostChildren
  rw [claims_withoutAll, claims_withoutAll]

theorem grownFrom_withoutAll (cs : List NodeId) : GrownFrom f (f.withoutAll cs) :=
  ⟨schema_withoutAll, fun _ _ h => typeOf_withoutAll.trans h⟩

theorem withoutAll_append {cs cs' : List NodeId} :
    f.withoutAll (cs ++ cs') = (f.withoutAll cs).withoutAll cs' := List.foldl_append

theorem place?_of_withoutAll {cs : List NodeId} (h : (f.withoutAll cs).place? m = some place) :
    f.place? m = some place := by
  induction cs generalizing f with
  | nil => exact h
  | cons c cs ih => exact place?_of_without (ih h)

theorem place?_withoutAll_of_none {cs : List NodeId} (h : f.place? m = none) :
    (f.withoutAll cs).place? m = none := by
  refine Option.eq_none_iff_forall_ne_some.mpr fun place hp => ?_
  rw [place?_of_withoutAll hp] at h
  exact absurd h (by simp)

/-- Both children sit in one slot that is meant for one. -/
def Shares (f : Forest) (c m : NodeId) : Prop :=
  ∃ place k, f.place? c = some place ∧ f.place? m = some place ∧
    f.feature place.container place.property = .ok k ∧ k.owner = none ∧ k.many = false

section orderly

variable (hf : f.Orderly)

include hf

/-- **A forest stays orderly** without a child. -/
theorem Orderly.without (c : NodeId) : (f.without c).Orderly := by
  cases hp : f.place? c with
  | none => rwa [without_of_none hp]
  | some place =>
    obtain ⟨w, host, g, s, rfl, -, h⟩ := hf.exists_found hp
    rw [h.without_eq]
    exact hf.write (h.rewrite hf) (by simp)

theorem Orderly.withoutAll (cs : List NodeId) : (f.withoutAll cs).Orderly := by
  induction cs generalizing f with
  | nil => exact hf
  | cons c cs ih => exact ih (hf.without c)

/-- What goes with the child is the child, and what shares its slot. -/
theorem Found.mem_losing (h : f.Found w host g s) :
    m ∈ s.losing w.child w.position ↔ m = w.child ∨ f.Shares w.child m := by
  have hsuits := h.suits
  rcases hpos : w.position with _ | i | i <;> rw [hpos] at hsuits
  · obtain ⟨rfl, hown⟩ := h.hosts.of_not_mixed hf.shaped hsuits.2
    have hclaims := claims_of_containment (v := s.value) h.hosts.host_feature hown
    -- The slot lists what sits there.
    have hmem : m ∈ s.value.nodes ↔ f.place? m = some w.place := by
      constructor
      · intro hm
        refine hf.linked.placed _ _ s m _ h.slot ?_
        rw [hclaims]
        exact List.mem_map_of_mem hm
      · exact fun hm => mem_nodes_of_mem_claims (hf.linked.claimed hf.shaped h.hosts hm h.slot)
    show m ∈ s.value.nodes ↔ _
    rw [hmem]
    constructor
    · exact fun hm => .inr
        ⟨w.place, g, h.place, hm, h.hosts.host_feature, h.hosts.direct, hsuits.1⟩
    · rintro (rfl | ⟨place, k, hc, hm, -⟩)
      · exact h.place
      · rw [hm, ← hc, h.place]
  all_goals
    show m ∈ [w.child] ↔ _
    rw [List.mem_singleton]
    refine ⟨.inl, fun hm => hm.resolve_right ?_⟩
    rintro ⟨place, k, hc, -, hk, hko, hkm⟩
    rw [h.place, Option.some.injEq] at hc
    subst hc
    obtain ⟨k', hk', -, rfl, hg, -⟩ := h.hosts
    obtain rfl := ok_unique hk' hk
    rw [hko, Option.getD_none, hk', Except.ok.injEq] at hg
    rw [← hg] at hsuits
    exact absurd (hkm.symm.trans hsuits.1) (by simp)

theorem Orderly.place?_without_self : (f.without c).place? c = none := by
  cases hp : f.place? c with
  | none => rwa [without_of_none hp]
  | some place =>
    obtain ⟨w, host, g, s, rfl, -, h⟩ := hf.exists_found hp
    rw [h.without_eq, place?_write_of_not_taken (by simp),
      if_pos ((h.mem_losing hf).mpr (.inl rfl))]

theorem Orderly.place?_without_of_shares (hm : f.Shares c m) : (f.without c).place? m = none := by
  obtain ⟨place, -, hp, -⟩ := id hm
  obtain ⟨w, host, g, s, rfl, -, h⟩ := hf.exists_found hp
  rw [h.without_eq, place?_write_of_not_taken (by simp), if_pos ((h.mem_losing hf).mpr (.inr hm))]

/-- Everything else stays where it sits. -/
theorem Orderly.place?_without (hne : m ≠ c) (hm : ¬ f.Shares c m) :
    (f.without c).place? m = f.place? m := by
  cases hp : f.place? c with
  | none => rw [without_of_none hp]
  | some place =>
    obtain ⟨w, host, g, s, rfl, -, h⟩ := hf.exists_found hp
    rw [h.without_eq, place?_write_of_not_taken (by simp),
      if_neg fun hin => ((h.mem_losing hf).mp hin).elim hne hm]

/-- A slot that does not list the child stays as it is. -/
theorem Orderly.slot_without (hs : f.slot n p = .ok s)
    (hc : c ∉ (f.claims n p s.value).map Prod.fst) : (f.without c).slot n p = .ok s := by
  cases hp : f.place? c with
  | none => rwa [without_of_none hp]
  | some place =>
    obtain ⟨w, host, g, t, rfl, -, h⟩ := hf.exists_found hp
    rw [h.without_eq, slot_write_of_ne (h.ne_of_not_mem hf hs hc), hs]

theorem Orderly.slot_withoutAll {cs : List NodeId} (hs : f.slot n p = .ok s)
    (hc : ∀ c ∈ cs, c ∉ (f.claims n p s.value).map Prod.fst) :
    (f.withoutAll cs).slot n p = .ok s := by
  induction cs generalizing f with
  | nil => exact hs
  | cons c cs ih =>
    refine ih (hf.without c) (hf.slot_without hs (hc c (by simp))) fun m hm => ?_
    rw [claims_without]
    exact hc m (by simp [hm])

end orderly

/-! ## Releases and writes elsewhere -/

theorem sequence_write_of_ne (hne : (n, p) ≠ (m, q)) :
    (f.write n p s freed taken).sequence m q = f.sequence m q := by
  unfold sequence label
  rw [slot_write_of_ne hne, typeOf_write, schema_write]

theorem itemsOf_write_of_ne (hne : (n, p) ≠ (m, q)) :
    (f.write n p s freed taken).itemsOf m q = f.itemsOf m q := by
  unfold itemsOf label
  rw [feature_write, slot_write_of_ne hne, typeOf_write, schema_write]

/-- A child is found where it was after another slot was written. -/
theorem Found.write (h : f.Found w host g s) (hne : (n, p) ≠ (w.place.container, host))
    (hp : (f.write n p t freed taken).place? w.child = f.place? w.child) :
    (f.write n p t freed taken).Found w host g s := by
  have hhosts : (f.write n p t freed taken).Hosts w.place host g := by
    obtain ⟨k, hk, hown, hhost, hg, ho⟩ := h.hosts
    exact ⟨k, feature_write.trans hk, hown, hhost, feature_write.trans hg, ho⟩
  refine ⟨?_, hp.trans h.place, hhosts, h.suits, (slot_write_of_ne hne).trans h.slot, h.found⟩
  have hw := h.whereabouts
  obtain ⟨k, hk, -, hhost, -⟩ := h.hosts
  unfold Forest.whereabouts at hw ⊢
  rw [hp]
  simp only [h.place, hk, bind_ok, feature_write] at hw ⊢
  cases ho : k.owner with
  | none =>
    rw [ho, Option.getD_none] at hhost
    simp only [ho] at hw ⊢
    rwa [itemsOf_write_of_ne (hhost ▸ hne)]
  | some mixed =>
    rw [ho, Option.getD_some] at hhost
    simp only [ho] at hw ⊢
    rwa [sequence_write_of_ne (hhost ▸ hne)]

/-- **A release does not matter to a write** of a slot that does not list the child, nor the write
to the release. -/
theorem Orderly.without_write (hf : f.Orderly) (hs : f.slot n p = .ok s)
    (hc : c ∉ (f.claims n p s.value).map Prod.fst)
    (hfreed : ∀ x ∈ freed, x ∈ (f.claims n p s.value).map Prod.fst)
    (htaken : ∀ x ∈ taken.map Prod.fst, x ≠ c ∧
      (f.place? x = none ∨ x ∈ (f.claims n p s.value).map Prod.fst)) :
    (f.write n p t freed taken).without c = (f.without c).write n p t freed taken := by
  have hstays : (f.write n p t freed taken).place? c = f.place? c := by
    rw [place?_write_of_not_taken fun hin => (htaken c hin).1 rfl,
      if_neg fun hin => hc (hfreed c hin)]
  cases hp : f.place? c with
  | none => rw [without_of_none hp, without_of_none (hstays.trans hp)]
  | some place =>
    obtain ⟨w, host, g, u, rfl, -, h⟩ := hf.exists_found hp
    have hne := h.ne_of_not_mem hf hs hc
    rw [(h.write (Ne.symm hne) hstays).without_eq, h.without_eq]
    -- What goes with the child is listed by its slot, so the written one does not list it.
    have hother : ∀ x ∈ u.losing w.child w.position,
        x ∉ (f.claims n p s.value).map Prod.fst := by
      intro x hx hin
      obtain ⟨rfl, rfl⟩ := hf.linked.slot_unique hf.shaped hs hin h.slot (h.claimed_of_losing hf hx)
      exact hne rfl
    refine write_comm (Ne.symm hne) hs h.slot (fun x hx hin => hother x hx (hfreed x hin))
      fun x hx hin => ?_
    rcases (htaken x hin).2 with hnone | hin'
    · obtain ⟨⟨_, q⟩, hq, rfl⟩ := List.mem_map.mp (h.claimed_of_losing hf hx)
      rw [hf.linked.placed _ _ _ _ _ h.slot hq] at hnone
      exact absurd hnone (by simp)
    · exact hother x hx hin'

end Forest

end TrackedGraph
