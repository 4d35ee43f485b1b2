/-
Which values a property takes.

An edit is admitted by a sequence of checks, each of which may refuse. What has been
checked when none refuses is stated here without the checks: `Accepts` for one item,
`Fits` for the value of a whole slot. Each admission of the library succeeds exactly
when these hold and the incoming children may come in (`admitValue_eq_ok`,
`admitItem_eq_ok`, `admitEntry_eq_ok`); the direction from right to left is what puts
a value back that was there before.
-/
import TrackedGraph.Proofs.Forest.Claims

set_option autoImplicit false

namespace TrackedGraph.Forest

variable {f : Forest} {n m c : NodeId} {p q : PropertyId} {t : TypeId} {v item : Value}
  {g : Feature}

/-! ## Reading lists and sequences -/

theorem itemsOf_eq_ok {items : List Value} : f.itemsOf n p = .ok items ↔
    ∃ g s, f.feature n p = .ok g ∧ g.owner = none ∧ g.many = true ∧ g.isMixed = false ∧
      f.slot n p = .ok s ∧ s.value = .list items := by
  simp only [itemsOf, bind_eq_ok]
  constructor
  · rintro ⟨g, hg, l, hl, h⟩
    refine ⟨g, ?_⟩
    cases ho : g.owner with
    | some m => simp [ho] at h
    | none =>
      cases hm : g.many with
      | false => simp [ho, hm] at h
      | true =>
        cases hx : g.isMixed with
        | true => simp [ho, hm, hx] at h
        | false =>
          simp only [ho, hm, hx, Option.isSome_none, Bool.false_eq_true, if_false, Bool.not_true,
            Bool.or_false] at h
          cases hs : f.slot n p with
          | error e => simp [hs] at h
          | ok s =>
            cases hv : s.value <;> simp [hs, hv] at h
            exact ⟨s, hg, rfl, rfl, rfl, rfl, hv.trans (congrArg _ h)⟩
  · rintro ⟨g, s, hg, ho, hm, hx, hs, hv⟩
    obtain ⟨t, ht, -⟩ := feature_eq_ok.mp hg
    refine ⟨g, hg, f.schema.label t p, ?_, ?_⟩
    · simp [label, ht]
    · simp [ho, hm, hx, hs, hv]

theorem sequence_eq_ok {entries : MixedContent} : f.sequence n p = .ok entries ↔
    ∃ s, f.slot n p = .ok s ∧ s.value = .mixed entries := by
  simp only [sequence, bind_eq_ok]
  refine exists_congr fun s => and_congr_right fun _ => ?_
  cases s.value with
  | mixed es => simp
  | _ =>
    simp only [reduceCtorEq, iff_false]
    cases f.label n p <;> simp

theorem sequenceOwner_eq_ok {mixed : PropertyId} : f.sequenceOwner n q = .ok mixed ↔
    ∃ g, f.feature n q = .ok g ∧ g.owner = some mixed := by
  simp only [sequenceOwner, bind_eq_ok]
  refine exists_congr fun g => and_congr_right fun _ => ?_
  cases g.owner with
  | some m => simp
  | none =>
    simp only [reduceCtorEq, iff_false]
    cases f.label n q <;> simp

/-! ## One item -/

/-- The property takes the item: it is of the right kind, and a node that it refers to
exists and is of the right type. -/
def Accepts (f : Forest) (n : NodeId) (p : PropertyId) (item : Value) : Prop :=
  ∃ g, f.feature n p = .ok g ∧ Schema.itemFits g item = true ∧
    ∀ m, item.node? = some m → ∃ t, f.typeOf m = .ok t ∧ g.target.all (· == t) = true

theorem requireTarget_eq_ok : f.requireTarget t p m = .ok () ↔ ∃ u g, f.typeOf m = .ok u ∧
    f.schema.feature t p = .ok g ∧ g.target.all (· == u) = true := by
  simp only [requireTarget, Schema.mayPointTo, bind_eq_ok]
  constructor
  · rintro ⟨u, hu, g, hg, b, ⟨_, hg', hb⟩, h⟩
    obtain rfl := ok_unique hg hg'
    cases b with
    | false => simp at h
    | true => exact ⟨u, g, hu, hg, Except.ok.inj hb⟩
  · rintro ⟨u, g, hu, hg, h⟩
    exact ⟨u, hu, g, hg, true, ⟨g, hg, congrArg Except.ok h⟩, rfl⟩

theorem conformItem_eq_ok {s : Schema} : s.conformItem t p item = .ok () ↔
    ∃ g, s.feature t p = .ok g ∧ Schema.itemFits g item = true := by
  simp only [Schema.conformItem, bind_eq_ok]
  refine exists_congr fun g => and_congr_right fun _ => ?_
  cases Schema.itemFits g item <;> simp

/-- What fits as an item refers to a node exactly if the property is for references. -/
theorem nodes_of_itemFits (h : Schema.itemFits g item = true) :
    item.nodes = item.node?.toList ∧ (item.node? ≠ none → g.role.refers = true) := by
  unfold Schema.itemFits at h
  cases hr : g.role with
  | mixed => simp [hr] at h
  | containment =>
    cases item <;> simp [hr, Value.node?] at h
    exact ⟨rfl, fun _ => rfl⟩
  | reference =>
    cases item <;> simp [hr, Value.node?] at h
    exact ⟨rfl, fun _ => rfl⟩
  | _ =>
    simp only [hr] at h
    cases item with
    | null | bool | int | float | str => exact ⟨rfl, fun hn => absurd rfl hn⟩
    | node n => cases hs : g.scalar <;> simp [hs, ScalarType.accepts] at h
    | list items => cases hs : g.scalar <;> simp [hs, ScalarType.accepts] at h
    | mixed entries => cases hs : g.scalar <;> simp [hs, ScalarType.accepts] at h

theorem not_mixed_of_itemFits {entries : List (Entry Value)} (h : item = .mixed entries) :
    Schema.itemFits g item = false := by
  subst h
  unfold Schema.itemFits
  cases g.role with
  | mixed => rfl
  | containment => rfl
  | reference => rfl
  | _ => cases g.scalar <;> rfl

theorem not_list_of_itemFits {items : List Value} (h : item = .list items) :
    Schema.itemFits g item = false := by
  subst h
  unfold Schema.itemFits
  cases g.role with
  | mixed => rfl
  | containment => rfl
  | reference => rfl
  | _ => cases g.scalar <;> rfl

theorem requireTargets_item_eq_ok (ht : f.typeOf n = .ok t) (hg : f.schema.feature t p = .ok g)
    (hf : Schema.itemFits g item = true) : f.requireTargets n p item = .ok () ↔
      ∀ m, item.node? = some m → ∃ u, f.typeOf m = .ok u ∧ g.target.all (· == u) = true := by
  have hnodes := nodes_of_itemFits hf
  have hmixed : ∀ es, item ≠ .mixed es := by
    intro es he
    rw [not_mixed_of_itemFits he] at hf
    exact absurd hf (by simp)
  have hopen : f.requireTargets n p item =
      if g.role.refers then item.nodes.forM (f.requireTarget t p) else .ok () := by
    unfold requireTargets
    cases item with
    | mixed es => exact absurd rfl (hmixed es)
    | _ => simp [ht, hg]
  rw [hopen]
  by_cases hr : g.role.refers = true
  · rw [if_pos hr, forM_eq_ok, hnodes.1]
    simp only [requireTarget_eq_ok, hg, Option.mem_toList, Except.ok.injEq, exists_eq_left',
      exists_and_left]
  · rw [if_neg hr]
    refine iff_of_true rfl fun m hm => absurd (hnodes.2 ?_) hr
    rw [hm]
    simp

theorem accepts_iff (ht : f.typeOf n = .ok t) :
    f.Accepts n p item ↔
      f.schema.conformItem t p item = .ok () ∧ f.requireTargets n p item = .ok () := by
  rw [conformItem_eq_ok]
  constructor
  · rintro ⟨g, hg, hf, htarget⟩
    obtain ⟨_, ht', hg⟩ := feature_eq_ok.mp hg
    obtain rfl := ok_unique ht ht'
    exact ⟨⟨g, hg, hf⟩, (requireTargets_item_eq_ok ht hg hf).mpr htarget⟩
  · rintro ⟨⟨g, hg, hf⟩, htarget⟩
    exact ⟨g, feature_eq_ok.mpr ⟨t, ht, hg⟩, hf, (requireTargets_item_eq_ok ht hg hf).mp htarget⟩

theorem Accepts.of_types {f' : Forest} (hs : f'.schema = f.schema)
    (ht : ∀ m u, f.typeOf m = .ok u → f'.typeOf m = .ok u) (h : f.Accepts n p item) :
    f'.Accepts n p item := by
  obtain ⟨g, hg, hf, htarget⟩ := h
  obtain ⟨t, htn, hg⟩ := feature_eq_ok.mp hg
  refine ⟨g, feature_eq_ok.mpr ⟨t, ht n t htn, by rw [hs]; exact hg⟩, hf, fun m hm => ?_⟩
  obtain ⟨u, hu, h⟩ := htarget m hm
  exact ⟨u, ht m u hu, h⟩

theorem Accepts.contains (h : f.Accepts n p item) (hc : item.node? = some c) :
    f.contains c = true := by
  obtain ⟨_, -, -, htarget⟩ := h
  obtain ⟨t, ht, -⟩ := htarget c hc
  exact contains_iff.mpr ⟨t, ht⟩

/-! ## The value of a slot -/

/-- The property takes the value for its slot. -/
def Fits (f : Forest) (n : NodeId) (p : PropertyId) (g : Feature) (v : Value) : Prop :=
  if g.isMixed then
    ∃ entries, v = .mixed entries ∧ ∀ e ∈ entries,
      (∃ h, f.feature n e.property = .ok h ∧ h.owner = some p) ∧ f.Accepts n e.property e.value
  else if g.many then ∃ items, v = .list items ∧ ∀ item ∈ items, f.Accepts n p item
  else v = .null ∨ f.Accepts n p v

theorem fits_mixed (hm : g.isMixed = true) : f.Fits n p g v ↔
    ∃ entries, v = .mixed entries ∧ ∀ e ∈ entries,
      (∃ h, f.feature n e.property = .ok h ∧ h.owner = some p) ∧
        f.Accepts n e.property e.value := by
  rw [Fits, if_pos hm]

theorem fits_list (hx : g.isMixed = false) (hm : g.many = true) : f.Fits n p g v ↔
    ∃ items, v = .list items ∧ ∀ item ∈ items, f.Accepts n p item := by
  rw [Fits, if_neg (by simp [hx]), if_pos hm]

theorem fits_single (hx : g.isMixed = false) (hm : g.many = false) :
    f.Fits n p g v ↔ v = .null ∨ f.Accepts n p v := by
  rw [Fits, if_neg (by simp [hx]), if_neg (by simp [hm])]

theorem Fits.of_types {f' : Forest} (hs : f'.schema = f.schema)
    (ht : ∀ m u, f.typeOf m = .ok u → f'.typeOf m = .ok u) (h : f.Fits n p g v) :
    f'.Fits n p g v := by
  have hfeature : ∀ q h, f.feature n q = .ok h → f'.feature n q = .ok h := by
    intro q h hq
    obtain ⟨t, htn, hg⟩ := feature_eq_ok.mp hq
    exact feature_eq_ok.mpr ⟨t, ht n t htn, by rw [hs]; exact hg⟩
  unfold Fits at h ⊢
  split_ifs at h ⊢ with h1 h2
  · obtain ⟨es, rfl, he⟩ := h
    refine ⟨es, rfl, fun e hm => ?_⟩
    obtain ⟨⟨k, hk, ho⟩, ha⟩ := he e hm
    exact ⟨⟨k, hfeature _ k hk, ho⟩, ha.of_types hs ht⟩
  · obtain ⟨items, rfl, hi⟩ := h
    exact ⟨items, rfl, fun item hm => (hi item hm).of_types hs ht⟩
  · exact h.imp_right fun h => h.of_types hs ht

end TrackedGraph.Forest
