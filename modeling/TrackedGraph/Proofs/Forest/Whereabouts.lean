/-
Where a child sits, and the forest without it there.

`Forest.whereabouts` reads a place off the slots, and fails where these do not list the
child. A child is released by a rewrite of the slot that it was found in (`Lift`), and a
sequence of releases is kept as the list of what was found, the latest last (`Lifts`).
Releasing a child frees that child and no other (`Lift.place?`), and where places and slots
agree a child is always found.
-/
import TrackedGraph.Proofs.Forest.Rewrites

set_option autoImplicit false

namespace TrackedGraph

/-- What is left of a slot once the child at a position is gone. -/
def Slot.without (s : Slot) : Position → Slot
  | .single => ⟨.null, true⟩
  | .listed i => s.removeItem i
  | .mixed i => s.removeEntry i

/-- Whether a position is one in a property of this kind. -/
def Position.Suits (g : Feature) : Position → Prop
  | .single => g.many = false ∧ g.isMixed = false
  | .listed _ => g.many = true ∧ g.isMixed = false
  | .mixed _ => g.many = true ∧ g.isMixed = true

namespace Forest

variable {strict : Prop} {f f' f₁ : Forest} {n c m : NodeId} {p q : PropertyId} {g : Feature}
  {s old : Slot} {w : Whereabouts} {ws : List Whereabouts}

/-- The slot in which a place is listed: that of the mixed content for a member. -/
def Hosts (f : Forest) (place : Place) (host : PropertyId) (g : Feature) : Prop :=
  ∃ k, f.feature place.container place.property = .ok k ∧ k.owns = true ∧
    host = k.owner.getD place.property ∧ f.feature place.container host = .ok g ∧ g.owner = none

/-- The child is found in the slot at the position. -/
def FoundAt (s : Slot) (p : PropertyId) (c : NodeId) : Position → Prop
  | .single => True
  | .listed i => ∃ items, s.value = .list items ∧ items[i]? = some (.node c)
  | .mixed i => ∃ entries, s.value = .mixed entries ∧ entries[i]? = some ⟨p, .node c⟩

theorem node?_eq_some {v : Value} (h : v.node? = some c) : v = .node c := by
  cases v <;> simp [Value.node?] at h
  rw [h]

/-- **Where a child is found**, if it sits under a property that owns. -/
theorem Shaped.of_whereabouts (hf : f.Shaped)
    (hplaced : ∀ n q, f.place? c = some ⟨n, q⟩ → f.ownsAt n q = true)
    (h : f.whereabouts c = .ok (some w)) :
    w.child = c ∧ f.place? c = some w.place ∧ ∃ host g s, f.Hosts w.place host g ∧
      Position.Suits g w.position ∧ f.slot w.place.container host = .ok s ∧
      FoundAt s w.place.property c w.position := by
  unfold whereabouts at h
  cases hp : f.place? c with
  | none =>
    rw [hp] at h
    exact absurd h (by simp)
  | some place =>
    obtain ⟨n, p⟩ := place
    obtain ⟨k, hk, hown⟩ := ownsAt_iff.mp (hplaced n p hp)
    have hkx := Property.not_mixed_of_owns hown
    simp only [hp, hk, bind_ok] at h
    cases ho : k.owner with
    | some m =>
      -- The child is looked for in the entries of the mixed content.
      simp only [ho, bind_eq_ok] at h
      obtain ⟨entries, hes, h⟩ := h
      obtain ⟨s, hs, hv⟩ := sequence_eq_ok.mp hes
      split at h
      · next i hi =>
        simp only [pure_eq_ok, Except.ok.injEq, Option.some.injEq] at h
        subst h
        obtain ⟨hlt, hfound, -⟩ := List.findIdx?_eq_some_iff_getElem.mp hi
        simp only [Bool.and_eq_true, beq_iff_eq] at hfound
        obtain ⟨g, hg, hx⟩ := hf.exists_mixed hk ho
        refine ⟨rfl, rfl, m, g, s, ⟨k, hk, hown, by rw [ho]; rfl, hg, hf.owner_of_mixed hg hx⟩,
          ⟨hf.many_of_mixed hg hx, hx⟩, hs, entries, hv, ?_⟩
        rw [List.getElem?_eq_getElem hlt, ← hfound.1, ← node?_eq_some hfound.2]
      · exact absurd h (by simp)
    | none =>
      have hhost : f.Hosts ⟨n, p⟩ p k := ⟨k, hk, hown, by rw [ho]; rfl, hk, ho⟩
      simp only [ho] at h
      cases hm : k.many with
      | true =>
        -- It is looked for in the items of the list.
        rw [hm, if_pos rfl, bind_eq_ok] at h
        obtain ⟨items, hitems, h⟩ := h
        obtain ⟨-, s, -, -, -, -, hs, hv⟩ := itemsOf_eq_ok.mp hitems
        split at h
        · next i hi =>
          simp only [pure_eq_ok, Except.ok.injEq, Option.some.injEq] at h
          subst h
          obtain ⟨hlt, hfound, -⟩ := List.findIdx?_eq_some_iff_getElem.mp hi
          simp only [beq_iff_eq] at hfound
          refine ⟨rfl, rfl, p, k, s, hhost, ⟨hm, hkx⟩, hs, items, hv, ?_⟩
          rw [List.getElem?_eq_getElem hlt, node?_eq_some hfound]
        · exact absurd h (by simp)
      | false =>
        -- In a single value there is nothing to look for.
        simp only [hm, Bool.false_eq_true, if_false, pure_eq_ok, Except.ok.injEq,
          Option.some.injEq] at h
        subst h
        obtain ⟨s, hs⟩ := hf.slot_of_feature n p k hk
        exact ⟨rfl, rfl, p, k, s, hhost, ⟨hm, hkx⟩, hs, trivial⟩

theorem Typed.of_whereabouts (ht : f.Typed) (h : f.whereabouts c = .ok (some w)) :
    w.child = c ∧ f.place? c = some w.place ∧ ∃ host g s, f.Hosts w.place host g ∧
      Position.Suits g w.position ∧ f.slot w.place.container host = .ok s ∧
      FoundAt s w.place.property c w.position :=
  ht.shaped.of_whereabouts (ht.placed c) h

/-- What is found nowhere sits nowhere. -/
theorem place?_of_whereabouts (h : f.whereabouts c = .ok none) : f.place? c = none := by
  unfold whereabouts at h
  cases hp : f.place? c with
  | none => rfl
  | some place =>
    simp only [hp, bind_eq_ok] at h
    obtain ⟨k, -, h⟩ := h
    split at h
    · obtain ⟨entries, -, h⟩ := bind_eq_ok.mp h
      split at h <;> exact absurd h (by simp)
    · split at h
      · obtain ⟨items, -, h⟩ := bind_eq_ok.mp h
        split at h <;> exact absurd h (by simp)
      · exact absurd h (by simp)

/-! ## Where places and slots agree -/

theorem Hosts.host_feature {place : Place} {host : PropertyId} (h : f.Hosts place host g) :
    f.feature place.container host = .ok g := by
  obtain ⟨-, -, -, -, hg, -⟩ := h
  exact hg

theorem Hosts.direct {place : Place} {host : PropertyId} (h : f.Hosts place host g) :
    g.owner = none := by
  obtain ⟨-, -, -, -, -, ho⟩ := h
  exact ho

/-- A place that is not in mixed content is listed in its own slot. -/
theorem Hosts.of_not_mixed (hf : f.Shaped) {place : Place} {host : PropertyId}
    (h : f.Hosts place host g) (hx : g.isMixed = false) :
    host = place.property ∧ g.owns = true := by
  obtain ⟨k, hk, hown, rfl, hg, -⟩ := h
  cases ho : k.owner with
  | none =>
    rw [ho, Option.getD_none, hk, Except.ok.injEq] at hg
    exact ⟨rfl, by rw [← hg]; exact hown⟩
  | some m =>
    obtain ⟨g', hg', hx'⟩ := hf.exists_mixed hk ho
    rw [ho, Option.getD_some, hg', Except.ok.injEq] at hg
    rw [hg, hx] at hx'
    exact absurd hx' (by simp)

/-- The slot of a place claims the child that sits there. -/
theorem Linked.claimed (hf : f.Shaped) (hl : f.Linked) {place : Place} {host : PropertyId}
    (hh : f.Hosts place host g) (hp : f.place? c = some place)
    (hs : f.slot place.container host = .ok s) :
    (c, place.property) ∈ f.claims place.container host s.value := by
  obtain ⟨p', s', hs', hc⟩ := hl.listed c place.container place.property hp
  obtain ⟨k', hk', -, rfl⟩ := hf.host hs' hc
  obtain ⟨k, hk, -, rfl, -⟩ := hh
  rw [hk, Except.ok.injEq] at hk'
  rw [← hk', hs, Except.ok.injEq] at hs'
  rw [← hs', ← hk'] at hc
  exact hc

/-- Where a child sits, some slot claims it under a property that owns. -/
theorem Linked.ownsAt (hl : f.Linked) (hp : f.place? c = some ⟨n, q⟩) : f.ownsAt n q = true := by
  obtain ⟨p, s, -, hc⟩ := hl.listed c n q hp
  exact ownsAt_of_mem_claims hc

theorem Shaped.exists_hosts (hf : f.Shaped) {place : Place}
    (hown : f.ownsAt place.container place.property = true) :
    ∃ host g s, f.Hosts place host g ∧ f.slot place.container host = .ok s := by
  obtain ⟨n, p⟩ := place
  obtain ⟨k, hk, hown⟩ := ownsAt_iff.mp hown
  cases ho : k.owner with
  | none =>
    obtain ⟨s, hs⟩ := hf.slot_of_feature n p k hk
    exact ⟨p, k, s, ⟨k, hk, hown, by rw [ho]; rfl, hk, ho⟩, hs⟩
  | some m =>
    obtain ⟨g, hg, hx⟩ := hf.exists_mixed hk ho
    obtain ⟨s, hs⟩ := hf.slot_of_feature n m g hg
    exact ⟨m, g, s, ⟨k, hk, hown, by rw [ho]; rfl, hg, hf.owner_of_mixed hg hx⟩, hs⟩

/-- A single-valued slot holds the child that sits in it and no other. -/
theorem Typed.single (ht : f.Typed) {place : Place} {host : PropertyId}
    (hh : f.Hosts place host g) (hm : g.many = false) (hx : g.isMixed = false)
    (hp : f.place? c = some place) (hs : f.slot place.container host = .ok s) :
    host = place.property ∧ s = ⟨.node c, true⟩ ∧
      f.claims place.container host s.value = [(c, host)] := by
  obtain ⟨rfl, hown⟩ := hh.of_not_mixed ht.shaped hx
  have hg := hh.host_feature
  obtain ⟨s', hs', hv⟩ := ht.held _ _ _ g hp hg hh.direct hm
  obtain rfl := ok_unique hs hs'
  have hclaims : f.claims place.container place.property s.value = [(c, place.property)] := by
    rw [hv, claims_of_containment hg hown]
    rfl
  have hset := (ht.fits _ _ g s hg hh.direct hs).isSet_of_claims ht.regular hg
    (hclaims ▸ List.mem_singleton_self _)
  exact ⟨rfl, Slot.ext hv hset, hclaims⟩

/-- An entry that claims a child is found. -/
theorem exists_findIdx?_entry {es : MixedContent} (hg : f.feature n p = .ok g)
    (hx : g.isMixed = true) (hc : (c, q) ∈ f.claims n p (.mixed es)) :
    ∃ i, es.findIdx? (fun e => e.property == q && e.value.node? == some c) = some i := by
  obtain ⟨g', hg', hcase⟩ := mem_claims.mp hc
  obtain rfl := ok_unique hg hg'
  rcases hcase with ⟨hown, -⟩ | ⟨-, -, e, he, hq, hec⟩
  · rw [Property.not_mixed_of_owns hown] at hx
    exact absurd hx (by simp)
  · cases hfind : es.findIdx? fun e => e.property == q && e.value.node? == some c with
    | some i => exact ⟨i, rfl⟩
    | none =>
      have hmiss := List.findIdx?_eq_none_iff.mp hfind e he
      simp [hq, hec] at hmiss

/-- An item that claims a child is found. -/
theorem exists_findIdx?_item {items : List Value} (hg : f.feature n p = .ok g)
    (hown : g.owns = true) (hc : (c, p) ∈ f.claims n p (.list items)) :
    ∃ i, items.findIdx? (·.node? == some c) = some i := by
  rw [claims_of_containment hg hown] at hc
  obtain ⟨x, hx, heq⟩ := List.mem_map.mp hc
  obtain ⟨rfl, -⟩ := Prod.mk.injEq .. ▸ heq
  obtain ⟨item, hi, hix⟩ := List.mem_filterMap.mp hx
  cases hfind : items.findIdx? (·.node? == some x) with
  | some i => exact ⟨i, rfl⟩
  | none =>
    have hmiss := List.findIdx?_eq_none_iff.mp hfind item hi
    simp [hix] at hmiss

/-- Where places and slots agree, a child is found where it sits. -/
theorem Linked.exists_whereabouts (hf : f.Shaped) (hl : f.Linked) (c : NodeId) :
    ∃ o, f.whereabouts c = .ok o := by
  unfold whereabouts
  cases hp : f.place? c with
  | none => exact ⟨none, rfl⟩
  | some place =>
    obtain ⟨host, g, s, hh, hs⟩ := hf.exists_hosts (hl.ownsAt hp)
    have hc := hl.claimed hf hh hp hs
    obtain ⟨n, p⟩ := place
    obtain ⟨k, hk, hown, rfl, hg, hgo⟩ := hh
    simp only [hk, bind_ok]
    cases ho : k.owner with
    | some m =>
      simp only [ho, Option.getD_some] at hg hs hc
      obtain ⟨g', hg', hx⟩ := hf.exists_mixed hk ho
      obtain rfl := ok_unique hg hg'
      obtain ⟨entries, hv, -⟩ := (hf.held n m g s hg hgo hs).entries hx
      rw [hv] at hc
      have hes : f.sequence n m = .ok entries := sequence_eq_ok.mpr ⟨s, hs, hv⟩
      obtain ⟨i, hi⟩ := exists_findIdx?_entry hg hx hc
      simp only [hes, bind_ok, hi]
      exact ⟨_, rfl⟩
    | none =>
      simp only [ho, Option.getD_none] at hs hc
      cases hm : k.many with
      | false => exact ⟨_, rfl⟩
      | true =>
        have hx := Property.not_mixed_of_owns hown
        obtain ⟨items, hv, -⟩ := (hf.held n p k s hk ho hs).items hx hm
        rw [hv] at hc
        have hitems : f.itemsOf n p = .ok items :=
          itemsOf_eq_ok.mpr ⟨k, s, hk, ho, hm, hx, hs, hv⟩
        obtain ⟨i, hi⟩ := exists_findIdx?_item hk hown hc
        simp only [if_true, hitems, bind_ok, hi]
        exact ⟨_, rfl⟩

/-! ## Releasing a child -/

/-- **The forest `f'` is `f` after a child was released** from where it was found. -/
def Lift (strict : Prop) (f : Forest) (w : Whereabouts) (f' : Forest) : Prop :=
  ∃ host g old freed, f.Hosts w.place host g ∧ w.position.Suits g ∧
    f.slot w.place.container host = .ok old ∧ FoundAt old w.place.property w.child w.position ∧
    f.place? w.child = some w.place ∧
    f.Rewrite strict w.place.container host g old (old.without w.position) freed [] ∧
    freed = [w.child] ∧
    f' = f.write w.place.container host (old.without w.position) freed []

section lift

variable (h : Lift strict f w f')

include h

theorem Lift.schema : f'.schema = f.schema := by
  obtain ⟨host, g, old, freed, -, -, -, -, -, -, -, rfl⟩ := h
  exact schema_write

theorem Lift.typeOf : f'.typeOf n = f.typeOf n := by
  obtain ⟨host, g, old, freed, -, -, -, -, -, -, -, rfl⟩ := h
  exact typeOf_write

theorem Lift.feature : f'.feature n p = f.feature n p := feature_congr h.schema h.typeOf p

theorem Lift.sound (hf : f.Sound strict) : f'.Sound strict := by
  obtain ⟨host, g, old, freed, -, -, -, -, -, hw, -, rfl⟩ := h
  exact hf.write hw

/-- A release gives no node a place. -/
theorem Lift.place?_of_some {place : Place} (hp : f'.place? c = some place) :
    f.place? c = some place := by
  obtain ⟨host, g, old, freed, -, -, -, -, -, hw, -, rfl⟩ := h
  rcases place?_of_write hw.distinct hp with ⟨_, hx, -⟩ | ⟨-, -, hp⟩
  · exact absurd hx (by simp)
  · exact hp

/-- A release frees the child and no other. -/
theorem Lift.place? : f'.place? c = if c = w.child then none else f.place? c := by
  obtain ⟨host, g, old, freed, -, -, -, -, -, -, hfreed, rfl⟩ := h
  rw [place?_write_of_not_taken (by simp), hfreed]
  simp only [List.mem_singleton]

/-- Slots that do not mention the child stay. -/
theorem Lift.slot_of_not_mem (ht : f.Typed) (hs : f.slot n p = .ok s)
    (hc : w.child ∉ s.value.nodes) : f'.slot n p = .ok s := by
  obtain ⟨host, g, old, freed, hh, hsuits, hold, hfound, hp, -, -, rfl⟩ := h
  refine (slot_write_of_ne fun heq => ?_).trans hs
  obtain ⟨rfl, rfl⟩ := Prod.mk.injEq .. ▸ heq
  obtain rfl := ok_unique hs hold
  rcases hpos : w.position with _ | i | i <;> rw [hpos] at hsuits hfound
  · obtain ⟨rfl, -⟩ := hh.of_not_mixed ht.shaped hsuits.2
    obtain ⟨s', hs', hv⟩ := ht.held _ _ _ g hp hh.host_feature hh.direct hsuits.1
    rw [hs, Except.ok.injEq] at hs'
    rw [hs', hv] at hc
    exact hc (List.mem_singleton_self _)
  · obtain ⟨items, hv, hi⟩ := hfound
    rw [hv] at hc
    exact hc (List.mem_filterMap.mpr ⟨_, List.mem_of_getElem? hi, rfl⟩)
  · obtain ⟨entries, hv, hi⟩ := hfound
    rw [hv] at hc
    exact hc (List.mem_filterMap.mpr ⟨_, List.mem_of_getElem? hi, rfl⟩)

/-- Slots other than that of the place stay. -/
theorem Lift.slot_of_ne (hf : f.Sound strict) (hst : strict) (hs : f.slot n p = .ok s)
    (hc : ∀ q, (w.child, q) ∉ f.claims n p s.value) : f'.slot n p = .ok s := by
  obtain ⟨host, g, old, freed, hh, -, hold, -, hp, -, -, rfl⟩ := h
  refine (slot_write_of_ne fun heq => ?_).trans hs
  obtain ⟨rfl, rfl⟩ := Prod.mk.injEq .. ▸ heq
  obtain rfl := ok_unique hs hold
  exact hc _ ((hf.linked hst).claimed hf.toTyped.shaped hh hp hs)

end lift

/-- **Releases one after another**, in order. -/
inductive Lifts (strict : Prop) (f : Forest) : List Whereabouts → Forest → Prop
  | start : Lifts strict f [] f
  | next (f₁ f' : Forest) (ws : List Whereabouts) (w : Whereabouts) (h : Lifts strict f ws f₁)
      (hw : Lift strict f₁ w f') : Lifts strict f (ws ++ [w]) f'

theorem Lifts.of_nil (h : Lifts strict f [] f') : f' = f := by
  generalize hws : [] = ws at h
  cases h with
  | start => rfl
  | next f₁ _ ws w h hw => exact absurd hws (by simp)

section lifts

variable (h : Lifts strict f ws f')

include h

theorem Lifts.schema : f'.schema = f.schema := by
  induction h with
  | start => rfl
  | next f₁ f' ws w _ hw ih => exact hw.schema.trans ih

theorem Lifts.typeOf : f'.typeOf n = f.typeOf n := by
  induction h with
  | start => rfl
  | next f₁ f' ws w _ hw ih => exact hw.typeOf.trans ih

theorem Lifts.feature : f'.feature n p = f.feature n p := feature_congr h.schema h.typeOf p

theorem Lifts.sound (hf : f.Sound strict) : f'.Sound strict := by
  induction h with
  | start => exact hf
  | next f₁ f' ws w _ hw ih => exact hw.sound ih

theorem Lifts.place?_of_some {place : Place} (hp : f'.place? c = some place) :
    f.place? c = some place := by
  induction h with
  | start => exact hp
  | next f₁ f' ws w _ hw ih => exact ih (hw.place?_of_some hp)

theorem Lifts.within (hw : f'.Within n m) : f.Within n m :=
  hw.of_under fun _ _ ⟨q, hp⟩ => ⟨q, h.place?_of_some hp⟩

theorem Lifts.place? :
    f'.place? c = if c ∈ ws.map Whereabouts.child then none else f.place? c := by
  induction h with
  | start => rfl
  | next f₁ f' ws w _ hw ih =>
    rw [hw.place?, ih]
    by_cases hc : c = w.child
    · simp [hc]
    · simp [hc]

theorem Lifts.slot_of_not_mem (hf : f.Sound strict) (hs : f.slot n p = .ok s)
    (hc : ∀ w ∈ ws, w.child ∉ s.value.nodes) : f'.slot n p = .ok s := by
  induction h with
  | start => exact hs
  | next f₁ f' ws w h hw ih =>
    refine hw.slot_of_not_mem (h.sound hf).toTyped (ih fun x hx => hc x ?_) (hc w ?_)
    · exact List.mem_append_left _ hx
    · exact List.mem_append_right _ List.mem_cons_self

theorem Lifts.slot_of_ne (hf : f.Sound strict) (hst : strict) (hs : f.slot n p = .ok s)
    (hc : ∀ w ∈ ws, ∀ q, (w.child, q) ∉ f.claims n p s.value) : f'.slot n p = .ok s := by
  induction h with
  | start => exact hs
  | next f₁ f' ws w h hw ih =>
    refine hw.slot_of_ne (h.sound hf) hst (ih fun x hx => hc x ?_) ?_
    · exact List.mem_append_left _ hx
    · intro q
      rw [claims_congr fun q => h.feature]
      exact hc w (List.mem_append_right _ List.mem_cons_self) q

end lifts

end Forest

end TrackedGraph
