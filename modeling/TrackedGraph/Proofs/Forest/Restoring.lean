/-
A release taken back.

Where places and slots agree, a release is undone by one write to the slot it changed
(`Lift.write_back`), and the library's own admissions let that write pass. There is one
exception. Mixed content that refers to a child beside owning it (`Doubled`) still
mentions the child once it is released, and then it does not take it in again.
-/
import TrackedGraph.Proofs.Forest.Whereabouts

set_option autoImplicit false

namespace TrackedGraph

/-- The slot with a child put at a position. -/
def Slot.refill (s : Slot) (p : PropertyId) (c : NodeId) : Position → Slot
  | .single => ⟨.node c, true⟩
  | .listed i => s.insertItem i (.node c)
  | .mixed i => s.insertEntry i ⟨p, .node c⟩

namespace Forest

variable {f f' : Forest} {n c : NodeId} {p q : PropertyId} {g : Feature} {s : Slot}
  {w : Whereabouts} {ws : List Whereabouts} {entries : MixedContent}

/-- The mixed content that a node is a child in mentions it under another property as well. -/
def Doubled (f : Forest) (c : NodeId) : Prop :=
  ∃ n q k mixed entries, f.place? c = some ⟨n, q⟩ ∧ f.feature n q = .ok k ∧
    k.owner = some mixed ∧ f.sequence n mixed = .ok entries ∧
    ∃ e ∈ entries, e.value.node? = some c ∧ e.property ≠ q

/-- A place in mixed content is that of a member. -/
theorem Hosts.of_mixed {place : Place} {host : PropertyId} (h : f.Hosts place host g)
    (hx : g.isMixed = true) : ∃ k mixed, f.feature place.container place.property = .ok k ∧
      k.owns = true ∧ k.owner = some mixed ∧ f.feature place.container mixed = .ok g ∧
      host = mixed := by
  obtain ⟨k, hk, hown, rfl, hg, -⟩ := h
  cases ho : k.owner with
  | some mixed =>
    rw [ho] at hg
    exact ⟨k, mixed, hk, hown, ho, hg, rfl⟩
  | none =>
    rw [ho, Option.getD_none, hk, Except.ok.injEq] at hg
    simp only [Property.owns, beq_iff_eq] at hown
    simp [Property.isMixed, ← hg, hown] at hx

/-- Mixed content that claims no child twice has one entry that owns the child; what else
mentions it does so under another property. -/
theorem property_ne_of_mem_eraseIdx {i : Nat} {e : Entry Value} (hg : f.feature n p = .ok g)
    (hx : g.isMixed = true) (hd : ((f.claims n p (.mixed entries)).map Prod.fst).Nodup)
    (hown : f.ownsAt n q = true) (hi : entries[i]? = some ⟨q, .node c⟩)
    (he : e ∈ entries.eraseIdx i) (hc : e.value.node? = some c) : e.property ≠ q := by
  intro heq
  have hmem : ∀ l : MixedContent, (∃ e ∈ l, e.property = q ∧ e.value.node? = some c) →
      c ∈ (f.claims n p (.mixed l)).map Prod.fst := fun l hl =>
    List.mem_map.mpr ⟨(c, q), mem_claims.mpr ⟨g, hg, .inr ⟨hx, hown, hl⟩⟩, rfl⟩
  rw [eq_take_cons_drop hi, ← List.singleton_append, claims_mixed_append, claims_mixed_append,
    List.map_append, List.map_append, List.nodup_append, List.nodup_append] at hd
  rw [List.eraseIdx_eq_take_drop_succ] at he
  have hmid := hmem [⟨q, .node c⟩] ⟨_, List.mem_singleton_self _, rfl, rfl⟩
  rcases List.mem_append.mp he with he | he
  · exact hd.2.2 c (hmem _ ⟨e, he, heq, hc⟩) c (List.mem_append_left _ hmid) rfl
  · exact hd.2.1.2.2 c hmid c (hmem _ ⟨e, he, heq, hc⟩) rfl

/-- What was taken out at a position goes back there. -/
theorem FoundAt.refill_without {pos : Position} (h : FoundAt s p c pos) (hset : s.isSet = true)
    (hsingle : pos = .single → s = ⟨.node c, true⟩) : (s.without pos).refill p c pos = s := by
  cases pos with
  | single => exact (hsingle rfl).symm
  | listed i =>
    obtain ⟨items, hv, hi⟩ := h
    refine Slot.ext ?_ ?_
    · simp only [Slot.without, Slot.removeItem, hv, Slot.refill, Slot.insertItem,
        insertIdx_eraseIdx_of_getElem? hi]
    · simp only [Slot.without, Slot.removeItem, hv, Slot.refill, Slot.insertItem, hset]
  | mixed i =>
    obtain ⟨entries, hv, hi⟩ := h
    refine Slot.ext ?_ ?_
    · simp only [Slot.without, Slot.removeEntry, hv, Slot.refill, Slot.insertEntry,
        insertIdx_eraseIdx_of_getElem? hi]
    · simp only [Slot.without, Slot.removeEntry, hv, Slot.refill, Slot.insertEntry, hset]

/-- **A release is undone by one write.** -/
theorem Lift.write_back (hf : f.Sound True) (h : Lift True f w f') :
    ∃ host g old, f.Hosts w.place host g ∧ w.position.Suits g ∧
      f.slot w.place.container host = .ok old ∧
      FoundAt old w.place.property w.child w.position ∧
      f'.slot w.place.container host = .ok (old.without w.position) ∧
      f'.write w.place.container host
        ((old.without w.position).refill w.place.property w.child w.position) []
        [(w.child, w.place.property)] = f := by
  obtain ⟨host, g, old, freed, hh, hsuits, hold, hfound, hp, hw, hfreed, rfl⟩ := h
  have hl := hf.linked trivial
  -- A slot that the child was found in was set, and it is set again.
  have hset : old.isSet = true :=
    (hf.fits _ _ g old hh.host_feature hh.direct hold).isSet_of_claims hf.regular hh.host_feature
      (hl.claimed hf.toTyped.shaped hh hp hold)
  have hrefill : (old.without w.position).refill w.place.property w.child w.position = old := by
    refine hfound.refill_without hset fun hpos => ?_
    rw [hpos] at hsuits
    exact (hf.toTyped.single hh hsuits.1 hsuits.2 hp hold).2.1
  have hdistinct : ([(w.child, w.place.property)].map Prod.fst).Nodup := List.nodup_singleton _
  refine ⟨host, g, old, hh, hsuits, hold, hfound, slot_write_self hold, ?_⟩
  rw [hrefill]
  refine ext_lookup ?_ (fun m => ?_) (fun m r u => ?_) fun m => ?_
  · rw [schema_write, schema_write]
  · rw [typeOf_write, typeOf_write]
  · by_cases heq : (w.place.container, host) = (m, r)
    · obtain ⟨rfl, rfl⟩ := Prod.mk.injEq .. ▸ heq
      rw [slot_write_self (slot_write_self hold), hold]
    · rw [slot_write_of_ne heq, slot_write_of_ne heq]
  · by_cases hm : m = w.child
    · rw [hm, hp]
      refine place?_write_of_taken hdistinct ?_ (List.mem_singleton_self _)
      rw [contains_write]
      exact contains_of_place hp
    · rw [place?_write_of_not_taken (by simpa using hm), place?_write_of_not_taken (by simp),
        hfreed, if_neg (by simp), if_neg (by simpa using hm)]

/-! ## Letting the child in again -/

section admission

variable (hf : f.Sound True) (h : Lift True f w f')

include hf h

theorem Lift.not_isWithin : f'.isWithin w.place.container w.child = false := by
  have ha : f'.Acyclic := (h.sound hf).acyclic
  obtain ⟨host, g, old, freed, -, -, -, -, hp, -⟩ := id h
  rw [Bool.eq_false_iff]
  intro hin
  have hwithin : f'.Within w.place.container w.child := (isWithin_iff ha).mp hin
  refine hf.acyclic.not_within ⟨w.place.property, hp⟩ (hwithin.of_under ?_)
  exact fun _ _ ⟨q, hq⟩ => ⟨q, h.place?_of_some hq⟩

theorem Lift.accepts : f'.Accepts w.place.container w.place.property (.node w.child) := by
  obtain ⟨host, g, old, freed, hh, -, hold, -, hp, -⟩ := id h
  have hc := (hf.linked trivial).claimed hf.toTyped.shaped hh hp hold
  have hfits := hf.fits _ _ g old hh.host_feature hh.direct hold
  refine ((hfits.fits (hfits.isSet_of_claims hf.regular hh.host_feature hc)).accepts_of_claims
    hh.host_feature hc).of_types h.schema fun m u hu => ?_
  exact h.typeOf.trans hu

theorem Lift.admitItem {i : Nat} (hpos : w.position = .listed i) :
    f'.admitItem w.place.container w.place.property i (.node w.child) = .ok (some w.child) := by
  obtain ⟨host, g, old, hh, hsuits, hold, hfound, hnew, -⟩ := h.write_back hf
  rw [hpos] at hsuits hfound hnew
  obtain ⟨items, hv, hi⟩ := hfound
  obtain ⟨rfl, hown⟩ := hh.of_not_mixed hf.toTyped.shaped hsuits.2
  have hg := hh.host_feature
  have hvalue : (old.without (.listed i)).value = .list (items.eraseIdx i) := by
    simp only [Slot.without, Slot.removeItem, hv]
  -- The list claims the child once, so nothing of it is left.
  have hnot : w.child ∉ (Value.list (items.eraseIdx i)).nodes := by
    have hd := (hf.linked trivial).once _ _ old hold
    rw [claims_of_containment hg hown, List.map_map, hv, eq_take_cons_drop hi] at hd
    simp only [Value.nodes, List.filterMap_append, List.filterMap_cons, Value.node?,
      List.map_append, List.map_cons] at hd
    rw [List.nodup_middle, List.nodup_cons] at hd
    rw [List.eraseIdx_eq_take_drop_succ]
    intro hc
    refine hd.1 ?_
    rw [← List.map_append]
    refine List.mem_map.mpr ⟨w.child, ?_, rfl⟩
    simpa only [Value.nodes, List.filterMap_append] using hc
  refine admitItem_eq_ok.mpr ⟨g, items.eraseIdx i, h.feature.trans hg, itemsOf_eq_ok.mpr
    ⟨g, _, h.feature.trans hg, hh.direct, hsuits.1, hsuits.2, hnew, hvalue⟩, ?_, h.accepts hf, ?_, ?_⟩
  · have hlt := (List.getElem?_eq_some_iff.mp hi).1
    rw [List.length_eraseIdx_of_lt hlt]
    omega
  · rw [if_pos hown]
    rfl
  · intro c hc
    rw [Option.some.injEq] at hc
    subst hc
    exact requireNewcomer_eq_ok.mpr ⟨h.not_isWithin hf, _, hnew, by rw [hvalue]; exact hnot⟩

theorem Lift.admitValue (hpos : w.position = .single) :
    f'.admitValue w.place.container w.place.property (.node w.child) = .ok [w.child] := by
  obtain ⟨host, g, old, hh, hsuits, hold, hfound, hnew, -⟩ := h.write_back hf
  rw [hpos] at hsuits hnew
  obtain ⟨rfl, hown⟩ := hh.of_not_mixed hf.toTyped.shaped hsuits.2
  have hg := h.feature.trans hh.host_feature
  refine admitValue_eq_ok.mpr ⟨g, hg, hh.direct, (fits_single hsuits.2 hsuits.1).mpr
    (.inr (h.accepts hf)), ?_, List.nodup_singleton _, ?_⟩
  · rw [claims_of_containment hg hown]
    rfl
  · intro c hc
    rw [List.mem_singleton.mp hc]
    exact h.not_isWithin hf

theorem Lift.admitEntry {i : Nat} (hpos : w.position = .mixed i) :
    f.Doubled w.child ∨ ∃ host, f'.admitEntry w.place.container i w.place.property
      (.node w.child) = .ok (host, some w.child) := by
  obtain ⟨host, g, old, hh, hsuits, hold, hfound, hnew, -⟩ := h.write_back hf
  obtain ⟨_, _, _, _, -, -, -, -, hp, -⟩ := id h
  rw [hpos] at hsuits hfound hnew
  obtain ⟨entries, hv, hi⟩ := hfound
  obtain ⟨k, mixed, hk, hown, ho, hg, rfl⟩ := hh.of_mixed hsuits.2
  have hvalue : (old.without (.mixed i)).value = .mixed (entries.eraseIdx i) := by
    simp only [Slot.without, Slot.removeEntry, hv]
  -- An entry that is left may mention the child without owning it, which keeps it out.
  by_cases hin : ∃ e ∈ entries.eraseIdx i, e.value.node? = some w.child
  · obtain ⟨e, he, hc⟩ := hin
    refine .inl ⟨_, _, k, host, entries, hp, hk, ho, sequence_eq_ok.mpr ⟨old, hold, hv⟩, e,
      List.mem_of_mem_eraseIdx he, hc, ?_⟩
    have hd := (hf.linked trivial).once _ _ old hold
    rw [hv] at hd
    exact property_ne_of_mem_eraseIdx hg hsuits.2 hd (ownsAt_iff.mpr ⟨k, hk, hown⟩) hi he hc
  · refine .inr ⟨host, admitEntry_eq_ok.mpr ⟨k, entries.eraseIdx i, h.feature.trans hk, ho,
      sequence_eq_ok.mpr ⟨_, hnew, hvalue⟩, ?_, h.accepts hf, ?_, ?_⟩⟩
    · have hlt := (List.getElem?_eq_some_iff.mp hi).1
      rw [List.length_eraseIdx_of_lt hlt]
      omega
    · rw [if_pos hown]
      rfl
    · intro c hc
      rw [Option.some.injEq] at hc
      subst hc
      refine requireNewcomer_eq_ok.mpr ⟨h.not_isWithin hf, _, hnew, fun hn => ?_⟩
      rw [hvalue] at hn
      exact hin (List.mem_filterMap.mp hn)

end admission

/-! ## Several releases -/

/-- What a release leaves of mixed content was in it before. -/
theorem Lift.sequence_subset (h : Lift True f w f') (hes : f'.sequence n p = .ok entries) :
    ∃ entries', f.sequence n p = .ok entries' ∧ entries ⊆ entries' := by
  obtain ⟨host, g, old, freed, hh, hsuits, hold, hfound, -, -, -, rfl⟩ := h
  obtain ⟨s, hs, hv⟩ := sequence_eq_ok.mp hes
  by_cases heq : (w.place.container, host) = (n, p)
  swap
  · rw [slot_write_of_ne heq] at hs
    exact ⟨entries, sequence_eq_ok.mpr ⟨s, hs, hv⟩, List.Subset.refl _⟩
  obtain ⟨rfl, rfl⟩ := Prod.mk.injEq .. ▸ heq
  rw [slot_write_self hold, Except.ok.injEq] at hs
  subst hs
  -- Only mixed content is a sequence, and it loses one entry.
  cases hpos : w.position with
  | single =>
    rw [hpos] at hv
    exact absurd hv (by simp [Slot.without])
  | listed i =>
    rw [hpos] at hv hfound
    obtain ⟨items, hi, -⟩ := hfound
    exact absurd hv (by simp [Slot.without, Slot.removeItem, hi])
  | mixed i =>
    rw [hpos] at hv hfound
    obtain ⟨entries', hi, -⟩ := hfound
    simp only [Slot.without, Slot.removeEntry, hi, Value.mixed.injEq] at hv
    refine ⟨entries', sequence_eq_ok.mpr ⟨old, hold, hi⟩, ?_⟩
    rw [← hv]
    exact List.eraseIdx_subset

theorem Lift.doubled (h : Lift True f w f') (hd : f'.Doubled c) : f.Doubled c := by
  obtain ⟨n, q, k, mixed, entries, hp, hk, ho, hes, e, he, hc, hq⟩ := hd
  obtain ⟨entries', hes', hsub⟩ := h.sequence_subset hes
  exact ⟨n, q, k, mixed, entries', h.place?_of_some hp, h.feature.symm.trans hk, ho, hes', e,
    hsub he, hc, hq⟩

theorem Lifts.doubled (h : Lifts True f ws f') (hd : f'.Doubled c) : f.Doubled c := by
  induction h with
  | start => exact hd
  | next f₁ f' ws w _ hw ih => exact ih (hw.doubled hd)

end Forest

end TrackedGraph
