/-
Slots that are filled anew.

A slot that holds many values can be filled at once or one entry after the other. Either way the
forest comes to be the same (`Forest.restock`): the children that sit elsewhere are released, the
slot is written, its old children are freed and the new ones taken. What stands before it is the
same as well (`Forest.Admits`): the property takes every entry, no child comes twice, and none is
above the node. An entry more is one step further in both (`restock_append`,
`admits_append_iff`).

In between the tree changes, and children may come to sit below one another. That the test for
ancestors is made in another forest each time does not matter, since nothing above the node moves
(`Orderly.within_restock`). This needs that a child goes alone when it is released, and so that
containment properties have no default.
-/
import TrackedGraph.Proofs.Forest.Admit
import TrackedGraph.Proofs.Forest.Without

set_option autoImplicit false

namespace TrackedGraph

open Relation

/-- **What a property that holds many values holds with the entries**: mixed content of them, or the
list of their values. -/
def Feature.holding (g : Feature) (es : List (Entry Value)) : Value :=
  if g.isMixed then .mixed es else .list (es.map (·.value))

section holding

variable {g : Feature} {es : List (Entry Value)}

theorem Feature.holding_mixed (hx : g.isMixed = true) : g.holding es = .mixed es := if_pos hx

theorem Feature.holding_list (hx : g.isMixed = false) :
    g.holding es = .list (es.map (·.value)) := if_neg (by simp [hx])

theorem Feature.restValue_eq_holding (hm : g.many = true) : g.restValue = g.holding [] := by
  simp only [Property.restValue, Feature.holding, hm, if_true, List.map_nil]

theorem Feature.isEmpty_holding : (g.holding es).isEmpty = es.isEmpty := by
  unfold Feature.holding
  split <;> cases es <;> rfl

theorem Feature.nodes_holding : (g.holding es).nodes = es.filterMap (·.value.node?) := by
  unfold Feature.holding
  split
  · rfl
  · exact List.filterMap_map

end holding

namespace Forest

variable {f f' : Forest} {n m c : NodeId} {p q : PropertyId} {g : Feature} {s : Slot}
  {e : Entry Value} {es : List (Entry Value)} {cs : List NodeId}

/-! ## Entries and their children -/

/-- **The property takes the entry**: that of one of its members in mixed content, or one of its
own. -/
structure Takes (f : Forest) (n : NodeId) (p : PropertyId) (g : Feature) (e : Entry Value) :
    Prop where
  suits : if g.isMixed then ∃ h, f.feature n e.property = .ok h ∧ h.owner = some p
    else e.property = p
  accepts : f.Accepts n e.property e.value

/-- The children of the entries, each with its property. -/
def newcomers (f : Forest) (n : NodeId) (es : List (Entry Value)) : List (NodeId × PropertyId) :=
  es.filterMap (f.entryClaim n)

theorem newcomers_append {es' : List (Entry Value)} :
    f.newcomers n (es ++ es') = f.newcomers n es ++ f.newcomers n es' :=
  List.filterMap_append

theorem newcomers_singleton : f.newcomers n [e] = (f.entryClaim n e).toList := by
  unfold newcomers
  cases h : f.entryClaim n e <;> simp [h]

/-- The entries of a list are all of its own property. -/
def Own (p : PropertyId) (g : Feature) (es : List (Entry Value)) : Prop :=
  g.isMixed = false → ∀ e ∈ es, e.property = p

theorem Own.left {es' : List (Entry Value)} (h : Own p g (es ++ es')) : Own p g es :=
  fun hx e he => h hx e (List.mem_append_left _ he)

/-- The children of the entries are those of the value. -/
theorem claims_holding (hg : f.feature n p = .ok g) (hes : Own p g es) :
    f.claims n p (g.holding es) = f.newcomers n es := by
  cases hx : g.isMixed with
  | true =>
    rw [Feature.holding_mixed hx, claims_of_mixed hg hx]
    rfl
  | false =>
    have hentry : ∀ e ∈ es, f.entryClaim n e = if g.owns then e.value.node?.map (·, p) else none :=
      fun e he => by rw [← hes hx e he] at hg ⊢; exact entryClaim_of_feature hg
    rw [Feature.holding_list hx]
    unfold newcomers
    rw [List.filterMap_congr hentry]
    cases ho : g.owns with
    | true =>
      rw [claims_of_containment hg ho]
      simp only [Value.nodes, List.filterMap_map, List.map_filterMap, if_true]
      rfl
    | false =>
      rw [claims_of_plain hg ho hx]
      simp

theorem fits_holding (hm : g.many = true) (hes : Own p g es) :
    f.Fits n p g (g.holding es) ↔ ∀ e ∈ es, f.Takes n p g e := by
  cases hx : g.isMixed with
  | true =>
    rw [fits_mixed hx, Feature.holding_mixed hx]
    constructor
    · -- The entries of mixed content name their properties themselves.
      rintro ⟨entries, heq, hall⟩ e he
      obtain rfl := Value.mixed.inj heq
      exact ⟨by rw [if_pos hx]; exact (hall e he).1, (hall e he).2⟩
    · exact fun hall => ⟨es, rfl, fun e he =>
        ⟨by simpa only [hx, if_true] using (hall e he).suits, (hall e he).accepts⟩⟩
  | false =>
    rw [fits_list hx hm, Feature.holding_list hx]
    constructor
    · rintro ⟨items, heq, hall⟩ e he
      obtain rfl := Value.list.inj heq
      have hproperty := hes hx e he
      refine ⟨by rw [if_neg (by simp [hx])]; exact hproperty, ?_⟩
      rw [hproperty]
      exact hall e.value (List.mem_map_of_mem he)
    · refine fun hall => ⟨_, rfl, fun item hitem => ?_⟩
      obtain ⟨e, he, rfl⟩ := List.mem_map.mp hitem
      rw [← hes hx e he]
      exact (hall e he).accepts

theorem Takes.of_types (hs : f'.schema = f.schema)
    (ht : ∀ m u, f.typeOf m = .ok u → f'.typeOf m = .ok u) (h : f.Takes n p g e) :
    f'.Takes n p g e := by
  refine ⟨?_, h.accepts.of_types hs ht⟩
  have hsuits := h.suits
  split at hsuits
  · next hx =>
    obtain ⟨k, hk, ho⟩ := hsuits
    obtain ⟨t, htn, hkt⟩ := feature_eq_ok.mp hk
    rw [if_pos hx]
    exact ⟨k, feature_eq_ok.mpr ⟨t, ht n t htn, by rw [hs]; exact hkt⟩, ho⟩
  · next hx =>
    rw [if_neg hx]
    exact hsuits

/-- What a slot for many values holds are entries that its property takes. -/
theorem Shaped.exists_holding (hf : f.Shaped) (hg : f.feature n p = .ok g) (ho : g.owner = none)
    (hm : g.many = true) (hs : f.slot n p = .ok s) :
    ∃ es, s.value = g.holding es ∧ Own p g es ∧ ∀ e ∈ es, f.Takes n p g e := by
  rcases hf.held n p g s hg ho hs with hrest | hfits
  · exact ⟨[], hrest.trans (Feature.restValue_eq_holding hm), by simp [Own], by simp⟩
  · obtain ⟨es, heq, hown⟩ : ∃ es, s.value = g.holding es ∧ Own p g es := by
      cases hx : g.isMixed with
      | true =>
        obtain ⟨entries, hv, -⟩ := (fits_mixed hx).mp hfits
        exact ⟨entries, hv.trans (Feature.holding_mixed hx).symm, by simp [Own, hx]⟩
      | false =>
        obtain ⟨items, hv, -⟩ := (fits_list hx hm).mp hfits
        refine ⟨items.map (⟨p, ·⟩), ?_, by simp [Own]⟩
        rw [Feature.holding_list hx, hv, List.map_map]
        exact congrArg Value.list (List.map_id items).symm
    exact ⟨es, heq, hown, (fits_holding hm hown).mp (heq ▸ hfits)⟩

/-- The child that an entry brings, given the property that it belongs to. -/
theorem newcomers_eq {k : Feature} (hk : f.feature n e.property = .ok k) :
    f.newcomers n [e] = (if k.owns then e.value.node? else none).toList.map (·, e.property) := by
  rw [newcomers_singleton, entryClaim_of_feature hk]
  split <;> cases e.value.node? <;> rfl

theorem map_fst_newcomers {k : Feature} (hk : f.feature n e.property = .ok k) :
    (f.newcomers n [e]).map Prod.fst = (if k.owns then e.value.node? else none).toList := by
  rw [newcomers_eq hk, List.map_map]
  exact List.map_id _

theorem forall_newcomers {k : Feature} {P : NodeId → Prop} (hk : f.feature n e.property = .ok k) :
    (∀ x ∈ f.newcomers n [e], P x.1) ↔
      ∀ c, (if k.owns then e.value.node? else none) = some c → P c := by
  rw [newcomers_eq hk, List.forall_mem_map]
  simp only [Option.mem_toList]

/-! ## Mentions and children -/

/-- No member of the mixed content is a reference that owns nothing. -/
def MembersOwn (f : Forest) (n : NodeId) (p : PropertyId) : Prop :=
  ∀ q h, f.feature n q = .ok h → h.owner = some p → h.role ≠ .reference

/-- A member that owns what it refers to makes a child of what its entry mentions. -/
theorem Takes.ownsAt_of_mixed (h : f.Takes n p g e) (hx : g.isMixed = true)
    (hmembers : f.MembersOwn n p) (hc : e.value.node? = some c) : f.ownsAt n e.property = true := by
  have hsuits := h.suits
  rw [hx, if_pos rfl] at hsuits
  obtain ⟨k, hk, ho⟩ := hsuits
  obtain ⟨k', hk', hfits, -⟩ := h.accepts
  obtain rfl := ok_unique hk hk'
  have hrefers := (nodes_of_itemFits hfits).2 (by simp [hc])
  have hnot := hmembers _ k hk ho
  refine ownsAt_iff.mpr ⟨k, hk, ?_⟩
  unfold Property.owns
  cases hr : k.role <;> simp_all [Role.refers]

/-- All entries of a list are children if one is. -/
theorem Takes.ownsAt_of_list {e' : Entry Value} {x : NodeId × PropertyId} (h : f.Takes n p g e)
    (h' : f.Takes n p g e') (hx : g.isMixed = false) (hnew : x ∈ f.newcomers n [e']) :
    f.ownsAt n e.property = true := by
  have hsuits := h.suits
  have hsuits' := h'.suits
  rw [hx, if_neg Bool.false_ne_true] at hsuits hsuits'
  rw [newcomers_singleton, Option.mem_toList] at hnew
  obtain ⟨hq, -, hown⟩ := entryClaim_eq_some.mp hnew
  rw [hsuits, ← hsuits', hq]
  exact hown

/-- **Where a child comes in, every mention is a child**: in a list because there all are, and in
mixed content if its members own what they refer to. -/
theorem mem_nodes_holding {x : NodeId × PropertyId}
    (hall : ∀ e ∈ es, f.Takes n p g e) (hmembers : g.isMixed = true → f.MembersOwn n p)
    (hx : x ∈ f.newcomers n [e]) (he : f.Takes n p g e) :
    c ∈ (g.holding es).nodes ↔ c ∈ (f.newcomers n es).map Prod.fst := by
  have howns : ∀ e' ∈ es, ∀ c, e'.value.node? = some c → f.ownsAt n e'.property = true := by
    intro e' he' c hc
    cases hmix : g.isMixed with
    | true => exact (hall e' he').ownsAt_of_mixed hmix (hmembers hmix) hc
    | false => exact (hall e' he').ownsAt_of_list he hmix hx
  rw [Feature.nodes_holding]
  constructor
  · intro hc
    obtain ⟨e', he', hc⟩ := List.mem_filterMap.mp hc
    exact List.mem_map.mpr ⟨(c, e'.property), List.mem_filterMap.mpr
      ⟨e', he', entryClaim_eq_some.mpr ⟨rfl, hc, howns e' he' c hc⟩⟩, rfl⟩
  · intro hc
    obtain ⟨⟨_, q⟩, hq, rfl⟩ := List.mem_map.mp hc
    obtain ⟨e', he', hclaim⟩ := List.mem_filterMap.mp hq
    exact List.mem_filterMap.mpr ⟨e', he', (entryClaim_eq_some.mp hclaim).2.1⟩

/-! ## Which entries are admitted -/

/-- **The slot may be filled with the entries**: the property takes each of them, no child comes
twice, and none is the node or above it. -/
structure Admits (f : Forest) (n : NodeId) (p : PropertyId) (g : Feature)
    (es : List (Entry Value)) : Prop where
  takes : ∀ e ∈ es, f.Takes n p g e
  distinct : ((f.newcomers n es).map Prod.fst).Nodup
  upward : ∀ x ∈ f.newcomers n es, ¬ f.Within n x.1

theorem admits_nil : f.Admits n p g [] := ⟨by simp, List.nodup_nil, by simp [newcomers]⟩

theorem Admits.left {es' : List (Entry Value)} (h : f.Admits n p g (es ++ es')) :
    f.Admits n p g es := by
  have hd := h.distinct
  rw [newcomers_append, List.map_append, List.nodup_append] at hd
  refine ⟨fun e he => h.takes e (List.mem_append_left _ he), hd.1, fun x hx => h.upward x ?_⟩
  rw [newcomers_append]
  exact List.mem_append_left _ hx

/-- **One entry more** is admitted if the property takes it and its child is new. -/
theorem admits_append_iff : f.Admits n p g (es ++ [e]) ↔ f.Admits n p g es ∧ f.Takes n p g e ∧
    ∀ x ∈ f.newcomers n [e], x.1 ∉ (f.newcomers n es).map Prod.fst ∧ ¬ f.Within n x.1 := by
  constructor
  · intro h
    have hd := h.distinct
    rw [newcomers_append, List.map_append, List.nodup_append] at hd
    refine ⟨h.left, h.takes e (by simp), fun x hx => ⟨fun hin => ?_, h.upward x ?_⟩⟩
    · exact hd.2.2 _ hin _ (List.mem_map_of_mem hx) rfl
    · rw [newcomers_append]
      exact List.mem_append_right _ hx
  · rintro ⟨h, he, hnew⟩
    refine ⟨fun e' he' => ?_, ?_, fun x hx => ?_⟩
    · rcases List.mem_append.mp he' with he' | he'
      · exact h.takes e' he'
      · rwa [List.mem_singleton.mp he']
    · rw [newcomers_append, List.map_append, List.nodup_append]
      refine ⟨h.distinct, ?_, fun a ha b hb hab => ?_⟩
      · rw [newcomers_singleton]
        cases f.entryClaim n e <;> simp
      · obtain ⟨x, hx, rfl⟩ := List.mem_map.mp hb
        exact (hnew x hx).1 (hab ▸ ha)
    · rw [newcomers_append] at hx
      rcases List.mem_append.mp hx with hx | hx
      · exact h.upward x hx
      · exact (hnew x hx).2

/-- **A value is admitted exactly if its entries are.** -/
theorem admitValue_holding_iff (hf : f.Acyclic) (hg : f.feature n p = .ok g) (ho : g.owner = none)
    (hm : g.many = true) (hes : Own p g es) :
    (∃ cs, f.admitValue n p (g.holding es) = .ok cs) ↔ f.Admits n p g es := by
  simp only [admitValue_eq_ok]
  constructor
  · rintro ⟨cs, g', hg', -, hfits, rfl, hd, hup⟩
    obtain rfl := ok_unique hg hg'
    rw [claims_holding hg hes] at hd hup
    exact ⟨(fits_holding hm hes).mp hfits, hd,
      fun x hx => (isWithin_eq_false_iff hf).mp (hup x.1 (List.mem_map_of_mem hx))⟩
  · intro h
    refine ⟨_, g, hg, ho, (fits_holding hm hes).mpr h.takes, rfl, ?_, ?_⟩
    · rw [claims_holding hg hes]
      exact h.distinct
    · rw [claims_holding hg hes]
      intro c hc
      obtain ⟨x, hx, rfl⟩ := List.mem_map.mp hc
      exact (isWithin_eq_false_iff hf).mpr (h.upward x hx)

/-! ## Children that go alone -/

section alone

variable (hf : f.Orderly) (hnull : f.schema.NullContainment)

include hf hnull

/-- Without defaults for containment properties nothing shares a single value with a child. -/
theorem Orderly.eq_of_shares (h : f.Shares c m) : m = c := by
  obtain ⟨place, k, hp, -, -⟩ := id h
  obtain ⟨w, host, g, s, rfl, rfl, hw⟩ := hf.exists_found hp
  have hm := (hw.mem_losing hf).mpr (.inr h)
  have hc := (hw.mem_losing hf).mpr (.inl rfl)
  have hsuits := hw.suits
  rcases hpos : w.position with _ | i | i <;> rw [hpos] at hm hc hsuits
  · -- A single value that is no default names one node at most.
    have hown := (hw.hosts.of_not_mixed hf.shaped hsuits.2).2
    have hfits : f.Fits w.place.container host g s.value := by
      rcases hf.shaped.held _ _ _ _ hw.hosts.host_feature hw.hosts.direct hw.slot with hrest | hfits
      · obtain ⟨t, -, hgt⟩ := feature_eq_ok.mp hw.hosts.host_feature
        have hrestValue : s.value = .null := by
          rw [hrest, Property.restValue, if_neg (by simp [hsuits.2]), if_neg (by simp [hsuits.1]),
            hnull t host g hgt hown]
        exact (fits_single hsuits.2 hsuits.1).mpr (.inl hrestValue)
      · exact hfits
    rcases (fits_single hsuits.2 hsuits.1).mp hfits with hv | ⟨k, -, hitem, -⟩
    · exact absurd hm (by simp [Slot.losing, hv, Value.nodes])
    · have hnodes := (nodes_of_itemFits hitem).1
      simp only [Slot.losing, hnodes, Option.mem_toList] at hm hc
      exact Option.some.inj (hm.symm.trans hc)
  · exact List.mem_singleton.mp hm
  · exact List.mem_singleton.mp hm

theorem Orderly.place?_withoutAll (hm : m ∉ cs) : (f.withoutAll cs).place? m = f.place? m := by
  induction cs generalizing f with
  | nil => rfl
  | cons c cs ih =>
    rw [List.mem_cons, not_or] at hm
    rw [withoutAll_cons, ih (hf.without c) (by rw [schema_without]; exact hnull) hm.2,
      hf.place?_without hm.1 fun h => hm.1 (hf.eq_of_shares hnull h)]

end alone

/-- What is released sits nowhere. -/
theorem Orderly.place?_withoutAll_of_mem (hf : f.Orderly) (hm : m ∈ cs) :
    (f.withoutAll cs).place? m = none := by
  induction cs generalizing f with
  | nil => exact absurd hm (by simp)
  | cons c cs ih =>
    rw [withoutAll_cons]
    rcases List.mem_cons.mp hm with rfl | hm
    · exact place?_withoutAll_of_none hf.place?_without_self
    · exact ih (hf.without c) hm

/-! ## The forest that is filled anew -/

/-- The forest once the children of the entries are released, but for those that the slot, which
holds `s`, has already. -/
def cleared (f : Forest) (n : NodeId) (p : PropertyId) (g : Feature) (s : Slot)
    (es : List (Entry Value)) : Forest :=
  f.withoutAll (f.lostChildren n p (g.holding es) s.value)

/-- **The forest in which the slot, which held `s`, holds the entries instead.** -/
def restock (f : Forest) (n : NodeId) (p : PropertyId) (g : Feature) (s : Slot)
    (es : List (Entry Value)) : Forest :=
  (f.cleared n p g s es).write n p ⟨g.holding es, !es.isEmpty⟩
    ((f.claims n p s.value).map Prod.fst) (f.newcomers n es)

theorem grownFrom_cleared : GrownFrom f (f.cleared n p g s es) := grownFrom_withoutAll _

@[simp] theorem claims_cleared {v : Value} : (f.cleared n p g s es).claims m q v = f.claims m q v :=
  claims_withoutAll

theorem lostChildren_cleared {v v' : Value} :
    (f.cleared n p g s es).lostChildren m q v v' = f.lostChildren m q v v' :=
  lostChildren_withoutAll

@[simp] theorem schema_restock : (f.restock n p g s es).schema = f.schema :=
  schema_write.trans schema_withoutAll

@[simp] theorem typeOf_restock : (f.restock n p g s es).typeOf m = f.typeOf m :=
  typeOf_write.trans typeOf_withoutAll

@[simp] theorem feature_restock : (f.restock n p g s es).feature m q = f.feature m q :=
  feature_congr schema_restock typeOf_restock q

@[simp] theorem newcomers_restock {es' : List (Entry Value)} :
    (f.restock n p g s es).newcomers m es' = f.newcomers m es' := by
  unfold newcomers entryClaim ownsAt
  simp only [feature_restock]

/-- The children that are released are those that the slot did not have. -/
theorem lostChildren_holding (hg : f.feature n p = .ok g) (hes : Own p g es) {v : Value} :
    f.lostChildren n p (g.holding es) v =
      ((f.newcomers n es).map Prod.fst).filter (!((f.claims n p v).map Prod.fst).contains ·) := by
  unfold lostChildren
  rw [claims_holding hg hes]

/-- While nothing above the node has moved, what is above it is as it was. -/
theorem within_congr (h : ∀ a, f.Within n a → f'.place? a = f.place? a) :
    f'.Within n c ↔ f.Within n c := by
  constructor
  · intro hc
    induction hc with
    | refl => exact .refl
    | tail _ hab ih =>
      obtain ⟨q, hq⟩ := hab
      exact ih.tail ⟨q, (h _ ih).symm.trans hq⟩
  · intro hc
    induction hc with
    | refl => exact .refl
    | tail ha hab ih =>
      obtain ⟨q, hq⟩ := hab
      exact ih.tail ⟨q, (h _ ha).trans hq⟩

/-- With no entries the slot is as if it was unset. -/
theorem restock_nil (hg : f.feature n p = .ok g) (hm : g.many = true) :
    f.restock n p g s [] =
      f.write n p ⟨g.restValue, false⟩ ((f.claims n p s.value).map Prod.fst) [] := by
  have hown : Own p g [] := fun _ => by simp
  unfold restock cleared
  rw [lostChildren_holding hg hown, Feature.restValue_eq_holding hm]
  rfl

/-- With one entry more, its child is released as well, unless the slot has it already. -/
theorem restock_append_eq (hg : f.feature n p = .ok g) (hall : Own p g (es ++ [e])) :
    f.restock n p g s (es ++ [e]) = ((f.cleared n p g s es).withoutAll
      (((f.newcomers n [e]).map Prod.fst).filter
        (!((f.claims n p s.value).map Prod.fst).contains ·))).write n p
      ⟨g.holding (es ++ [e]), true⟩ ((f.claims n p s.value).map Prod.fst)
      (f.newcomers n es ++ f.newcomers n [e]) := by
  unfold restock cleared
  rw [← withoutAll_append, lostChildren_holding hg hall, lostChildren_holding hg hall.left,
    newcomers_append, List.map_append, List.filter_append,
    List.isEmpty_eq_false_iff.mpr (List.append_ne_nil_of_right_ne_nil es (by simp))]
  rfl

section restock

variable (hf : f.Orderly) (hg : f.feature n p = .ok g) (hes : Own p g es)

include hf

theorem Orderly.slot_cleared (hs : f.slot n p = .ok s) :
    (f.cleared n p g s es).slot n p = .ok s :=
  hf.slot_withoutAll hs fun _ hc => (mem_lostChildren.mp hc).2

theorem Orderly.slot_restock (hs : f.slot n p = .ok s) :
    (f.restock n p g s es).slot n p = .ok ⟨g.holding es, !es.isEmpty⟩ :=
  slot_write_self (hf.slot_cleared hs)

include hg hes

/-- Once released, the children sit nowhere, but for those that the slot had. -/
theorem Orderly.place?_cleared (hc : c ∈ (f.newcomers n es).map Prod.fst) :
    (f.cleared n p g s es).place? c = none ∨ c ∈ (f.claims n p s.value).map Prod.fst := by
  by_cases hin : c ∈ (f.claims n p s.value).map Prod.fst
  · exact .inr hin
  · refine .inl (hf.place?_withoutAll_of_mem (mem_lostChildren.mpr ⟨?_, hin⟩))
    rwa [claims_holding hg hes]

/-- It does not matter whether the children that the slot keeps are freed first. -/
theorem Orderly.restock_eq (hs : f.slot n p = .ok s) :
    f.restock n p g s es = (f.cleared n p g s es).write n p ⟨g.holding es, !es.isEmpty⟩
      (f.lostChildren n p s.value (g.holding es)) (f.claims n p (g.holding es)) := by
  rw [claims_holding hg hes]
  refine write_freed (hf.slot_cleared hs) fun c hc => ?_
  rw [mem_lostChildren, claims_holding hg hes]
  exact (and_iff_left hc).symm

variable (ho : g.owner = none) (hm : g.many = true) (hs : f.slot n p = .ok s)

include ho hm hs

/-- **Filling a slot anew** with entries that are admitted keeps the forest orderly. -/
theorem Orderly.restock (h : f.Admits n p g es) : (f.restock n p g s es).Orderly := by
  have hgrown : GrownFrom f (f.cleared n p g s es) := grownFrom_cleared
  have hclaims := claims_holding hg hes
  have hfits := (fits_holding hm hes).mpr fun e he =>
    (h.takes e he).of_types hgrown.schema hgrown.typeOf
  have hslot : (f.cleared n p g s es).SlotFits n p g ⟨g.holding es, !es.isEmpty⟩ := by
    have hslot := hfits.slotFits
    rwa [hm, Bool.not_true, Bool.false_or, Feature.isEmpty_holding] at hslot
  have hrewrite : (f.cleared n p g s es).Rewrite True n p g s ⟨g.holding es, !es.isEmpty⟩
      ((f.cleared n p g s es).lostChildren n p s.value (g.holding es))
      ((f.cleared n p g s es).claims n p (g.holding es)) := by
    refine rewrite_all (hgrown.feature hg) ho (hf.slot_cleared hs) hslot ?_ ?_ ?_
    · rw [claims_cleared, hclaims]
      exact h.distinct
    · rw [claims_cleared, hclaims]
      refine fun x hx hwithin => h.upward x hx (.of_under (fun _ _ hab => ?_) hwithin)
      exact hab.imp fun _ hq => place?_of_withoutAll hq
    · rw [claims_cleared, claims_cleared, hclaims]
      exact fun _ x hx => hf.place?_cleared hg hes (List.mem_map_of_mem hx)
  have hwritten := (hf.withoutAll _).write hrewrite fun x hx =>
    Fits.contains_of_claims (hgrown.feature hg) hfits x hx
  rw [hf.restock_eq hg hes hs]
  rwa [claims_cleared, lostChildren_cleared] at hwritten

omit ho hm in
/-- **What is above the node** is as it was: neither the children that it loses nor those that come
are. -/
theorem Orderly.within_restock (hnull : f.schema.NullContainment) (h : f.Admits n p g es) :
    (f.restock n p g s es).Within n c ↔ f.Within n c := by
  -- A child that comes in is not above the node by assumption, and one that leaves is below it.
  refine within_congr fun a ha => ?_
  have hnew : a ∉ (f.newcomers n es).map Prod.fst := by
    intro hin
    obtain ⟨x, hx, rfl⟩ := List.mem_map.mp hin
    exact h.upward x hx ha
  have hold : a ∉ (f.claims n p s.value).map Prod.fst := by
    intro hin
    obtain ⟨⟨_, q⟩, hq, rfl⟩ := List.mem_map.mp hin
    exact hf.acyclic n (TransGen.tail' ha ⟨q, hf.linked.placed n p s _ q hs hq⟩)
  have hreleased : a ∉ f.lostChildren n p (g.holding es) s.value := by
    rw [lostChildren_holding hg hes]
    exact fun hin => hnew (List.mem_of_mem_filter hin)
  unfold Forest.restock
  rw [place?_write_of_not_taken hnew, if_neg hold]
  exact hf.place?_withoutAll hnull hreleased

omit ho hm in
/-- **One entry more**: its child is released, and the entry is appended. -/
theorem Orderly.restock_append (hall : Own p g (es ++ [e]))
    (hnew : ∀ x ∈ f.newcomers n [e], x.1 ∉ (f.newcomers n es).map Prod.fst) :
    ((f.restock n p g s es).withoutAll ((f.newcomers n [e]).map Prod.fst)).write n p
        ⟨g.holding (es ++ [e]), true⟩ [] (f.newcomers n [e]) =
      f.restock n p g s (es ++ [e]) := by
  have hs' : (f.cleared n p g s es).slot n p = .ok s := hf.slot_cleared hs
  rw [restock_append_eq hg hall, newcomers_singleton]
  rw [newcomers_singleton] at hnew
  cases hx : f.entryClaim n e with
  | none => exact write_write hs'
  | some x =>
    rw [hx] at hnew
    have hfresh := hnew x (by simp)
    simp only [Option.toList_some, List.map_cons, List.map_nil, withoutAll_cons, withoutAll_nil]
    by_cases hc : x.1 ∈ (f.claims n p s.value).map Prod.fst
    · -- The child was freed when the slot was written first.
      have hplace : (f.restock n p g s es).place? x.1 = none := by
        rw [Forest.restock, place?_write_of_not_taken hfresh, if_pos hc]
      rw [List.filter_cons_of_neg (by simpa using hc), List.filter_nil, withoutAll_nil,
        without_of_none hplace]
      exact write_write hs'
    · have hc' : x.1 ∉ ((f.cleared n p g s es).claims n p s.value).map Prod.fst := by
        rwa [claims_cleared]
      have hcommute : (f.restock n p g s es).without x.1 =
          ((f.cleared n p g s es).without x.1).write n p ⟨g.holding es, !es.isEmpty⟩
            ((f.claims n p s.value).map Prod.fst) (f.newcomers n es) := by
        refine (hf.withoutAll _).without_write hs' hc' (fun y hy => by rwa [claims_withoutAll])
          fun y hy => ⟨fun heq => hfresh (heq ▸ hy), ?_⟩
        rw [claims_withoutAll]
        exact hf.place?_cleared hg hes hy
      rw [List.filter_cons_of_pos (by simpa using hc), List.filter_nil, withoutAll_cons,
        withoutAll_nil, hcommute]
      exact write_write ((hf.withoutAll _).slot_without hs' hc')

end restock

/-! ## Filling step by step -/

/-- **A slot that can be filled anew**: it is one for many values, its forest is orderly, no
containment property has a default, and if it holds mixed content, the members own what they refer
to. -/
structure Restockable (f : Forest) (n : NodeId) (p : PropertyId) (g : Feature) (s : Slot) :
    Prop where
  orderly : f.Orderly
  nullContainment : f.schema.NullContainment
  feature : f.feature n p = .ok g
  direct : g.owner = none
  many : g.many = true
  slot : f.slot n p = .ok s
  members : g.isMixed = true → f.MembersOwn n p

namespace Restockable

variable (h : f.Restockable n p g s)

include h

theorem orderly_restock (hes : Own p g es) (hadmits : f.Admits n p g es) :
    (f.restock n p g s es).Orderly :=
  h.orderly.restock h.feature hes h.direct h.many h.slot hadmits

/-- The children that are not mentioned in the slot are those that it does not have. -/
theorem foreign (hes : Own p g es) (hadmits : f.Admits n p g es) :
    ((f.claims n p (g.holding es)).map Prod.fst).filter (!s.value.nodes.contains ·) =
      f.lostChildren n p (g.holding es) s.value := by
  obtain ⟨old, hv, hown, hold⟩ :=
    h.orderly.shaped.exists_holding h.feature h.direct h.many h.slot
  refine List.filter_congr fun c hc => ?_
  rw [claims_holding h.feature hes] at hc
  obtain ⟨x, hx, rfl⟩ := List.mem_map.mp hc
  obtain ⟨e, he, hclaim⟩ := List.mem_filterMap.mp hx
  have hmem : x.1 ∈ s.value.nodes ↔ x.1 ∈ (f.claims n p s.value).map Prod.fst := by
    rw [hv, claims_holding h.feature hown]
    refine mem_nodes_holding hold h.members (x := x) ?_ (hadmits.takes e he)
    rw [newcomers_singleton, hclaim]
    exact List.mem_singleton_self x
  simp only [List.contains_eq_mem, hmem]

/-- **A child is let in** while the slot is being filled if it is new among the entries, and was not
above the node in the first place. -/
theorem requireNewcomer_iff {x : NodeId × PropertyId} (hes : Own p g es)
    (hadmits : f.Admits n p g es) (he : f.Takes n p g e) (hx : x ∈ f.newcomers n [e]) :
    (f.restock n p g s es).requireNewcomer n p x.1 = .ok () ↔
      x.1 ∉ (f.newcomers n es).map Prod.fst ∧ ¬ f.Within n x.1 := by
  rw [requireNewcomer_eq_ok, isWithin_eq_false_iff (h.orderly_restock hes hadmits).acyclic,
    h.orderly.within_restock h.feature hes h.slot h.nullContainment hadmits,
    h.orderly.slot_restock h.slot]
  simp only [Except.ok.injEq, exists_eq_left', mem_nodes_holding hadmits.takes h.members hx he]
  exact and_comm

/-- **The next entry is admitted** exactly if it may be added to the forest that those before it
have left. -/
theorem admits_next_iff (hall : Own p g (es ++ [e])) (hadmits : f.Admits n p g es) :
    f.Admits n p g (es ++ [e]) ↔ (f.restock n p g s es).Takes n p g e ∧
      ∀ x ∈ (f.restock n p g s es).newcomers n [e],
        (f.restock n p g s es).requireNewcomer n p x.1 = .ok () := by
  have htakes : (f.restock n p g s es).Takes n p g e ↔ f.Takes n p g e :=
    ⟨fun ht => ht.of_types schema_restock.symm fun _ _ hu => typeOf_restock.symm.trans hu,
      fun ht => ht.of_types schema_restock fun _ _ hu => typeOf_restock.trans hu⟩
  rw [admits_append_iff, and_iff_right hadmits, htakes, newcomers_restock]
  refine and_congr_right fun he => forall₂_congr fun x hx => ?_
  exact (h.requireNewcomer_iff hall.left hadmits he hx).symm

end Restockable

end Forest

end TrackedGraph
