/-
When the admissions of the library succeed.

The checks of an admission come in a fixed order, which decides what fault a bad edit
meets. Whether one succeeds does not depend on the order, and is said here in terms of
`Fits` and `Accepts`, of the children that the value claims, and of the climb that
rules out circles.
-/
import TrackedGraph.Proofs.Forest.Fit
import TrackedGraph.Proofs.Forest.Tree

set_option autoImplicit false

namespace TrackedGraph.Forest

variable {f : Forest} {n m c : NodeId} {p q : PropertyId} {t : TypeId} {v item : Value}
  {g : Feature}

/-! ## Conforming values -/

theorem conformEntry_eq_ok {s : Schema} {mixed member : PropertyId} :
    s.conformEntry t mixed member item = .ok () ↔
      (∃ h, s.feature t member = .ok h ∧ h.owner = some mixed) ∧
        s.conformItem t member item = .ok () := by
  simp only [Schema.conformEntry, bind_eq_ok]
  constructor
  · rintro ⟨h, hh, hrest⟩
    by_cases ho : h.owner = some mixed
    · simp only [ho, bne_self_eq_false, Bool.false_eq_true, if_false] at hrest
      exact ⟨⟨h, hh, ho⟩, hrest⟩
    · simp [ho] at hrest
  · rintro ⟨⟨h, hh, ho⟩, hrest⟩
    refine ⟨h, hh, ?_⟩
    simp only [ho, bne_self_eq_false, Bool.false_eq_true, if_false]
    exact hrest

theorem requireTargets_mixed {entries : List (Entry Value)} (ht : f.typeOf n = .ok t) :
    f.requireTargets n p (.mixed entries) = .ok () ↔
      ∀ e ∈ entries, ∀ m, e.value.node? = some m → f.requireTarget t e.property m = .ok () := by
  simp only [requireTargets, ht, bind_ok, forM_eq_ok]
  refine forall₂_congr fun e _ => ?_
  cases e.value.node? with
  | none => simp
  | some m => simp

/-- An entry is accepted when it conforms and its target may be pointed to. -/
theorem accepts_entry_iff (ht : f.typeOf n = .ok t) {e : Entry Value} :
    f.Accepts n e.property e.value ↔ f.schema.conformItem t e.property e.value = .ok () ∧
      ∀ m, e.value.node? = some m → f.requireTarget t e.property m = .ok () := by
  simp only [Accepts, feature_eq_ok, ht, conformItem_eq_ok, requireTarget_eq_ok, Except.ok.injEq,
    exists_eq_left']
  constructor
  · rintro ⟨g, hg, hf, htarget⟩
    refine ⟨⟨g, hg, hf⟩, fun m hm => ?_⟩
    obtain ⟨u, hu, h⟩ := htarget m hm
    exact ⟨u, g, hu, hg, h⟩
  · rintro ⟨⟨g, hg, hf⟩, htarget⟩
    refine ⟨g, hg, hf, fun m hm => ?_⟩
    obtain ⟨u, g', hu, hg', h⟩ := htarget m hm
    rw [hg, Except.ok.injEq] at hg'
    exact ⟨u, hu, by rw [hg']; exact h⟩

theorem requireTargets_list {items : List Value} (ht : f.typeOf n = .ok t)
    (hg : f.schema.feature t p = .ok g)
    (hf : ∀ item ∈ items, Schema.itemFits g item = true) :
    f.requireTargets n p (.list items) = .ok () ↔
      ∀ item ∈ items, f.requireTargets n p item = .ok () := by
  have hopen : f.requireTargets n p (.list items) =
      if g.role.refers then (items.filterMap Value.node?).forM (f.requireTarget t p)
      else .ok () := by
    simp [requireTargets, ht, hg, Value.nodes]
  rw [hopen]
  by_cases hr : g.role.refers = true
  · rw [if_pos hr, forM_eq_ok]
    constructor
    · intro h item hi
      rw [requireTargets_item_eq_ok ht hg (hf item hi)]
      intro m hm
      -- Each item brings its own node at most, so the nodes of the list are those of its items.
      obtain ⟨u, g', hu, hg', hall⟩ :=
        requireTarget_eq_ok.mp (h m (List.mem_filterMap.mpr ⟨item, hi, hm⟩))
      rw [hg, Except.ok.injEq] at hg'
      exact ⟨u, hu, by rw [hg']; exact hall⟩
    · intro h m hm
      obtain ⟨item, hi, hm⟩ := List.mem_filterMap.mp hm
      obtain ⟨u, hu, hall⟩ := (requireTargets_item_eq_ok ht hg (hf item hi)).mp (h item hi) m hm
      exact requireTarget_eq_ok.mpr ⟨u, g, hu, hg, hall⟩
  · rw [if_neg hr]
    refine iff_of_true rfl fun item hi => ?_
    rw [requireTargets_item_eq_ok ht hg (hf item hi)]
    intro m hm
    exact absurd ((nodes_of_itemFits (hf item hi)).2 (by rw [hm]; simp)) hr

/-- Mixed content conforms entry by entry. -/
theorem conforms_mixed_iff (ht : f.typeOf n = .ok t) (hg : f.schema.feature t p = .ok g)
    (ho : g.owner = none) (hx : g.isMixed = true) :
    (f.schema.conformSlot t p v = .ok () ∧ f.requireTargets n p v = .ok ()) ↔ f.Fits n p g v := by
  have hfeature : ∀ q h, f.feature n q = .ok h ↔ f.schema.feature t q = .ok h := by
    intro q h
    simp only [feature_eq_ok, ht, Except.ok.injEq, exists_eq_left']
  rw [fits_mixed hx]
  have hopen : f.schema.conformSlot t p v = .ok () ↔ ∃ es, v = .mixed es ∧
      ∀ e ∈ es, f.schema.conformEntry t p e.property e.value = .ok () := by
    simp only [Schema.conformSlot, hg, ho, hx, bind_ok, Option.isSome_none,
      Bool.false_eq_true, if_false, if_true]
    cases v with
    | mixed es => simpa using forM_eq_ok
    | _ => simp
  rw [hopen]
  constructor
  · rintro ⟨⟨es, rfl, hes⟩, htarget⟩
    refine ⟨es, rfl, fun e he => ?_⟩
    obtain ⟨hown, hitem⟩ := conformEntry_eq_ok.mp (hes e he)
    refine ⟨?_, (accepts_entry_iff ht).mpr ⟨hitem, (requireTargets_mixed ht).mp htarget e he⟩⟩
    obtain ⟨h, hh, hm⟩ := hown
    exact ⟨h, (hfeature _ _).mpr hh, hm⟩
  · rintro ⟨es, rfl, hes⟩
    refine ⟨⟨es, rfl, fun e he => conformEntry_eq_ok.mpr ⟨?_, ?_⟩⟩, ?_⟩
    · obtain ⟨h, hh, hm⟩ := (hes e he).1
      exact ⟨h, (hfeature _ _).mp hh, hm⟩
    · exact ((accepts_entry_iff ht).mp (hes e he).2).1
    · rw [requireTargets_mixed ht]
      exact fun e he => ((accepts_entry_iff ht).mp (hes e he).2).2

/-- A list conforms item by item. -/
theorem conforms_list_iff (ht : f.typeOf n = .ok t) (hg : f.schema.feature t p = .ok g)
    (ho : g.owner = none) (hx : g.isMixed = false) (hm : g.many = true) :
    (f.schema.conformSlot t p v = .ok () ∧ f.requireTargets n p v = .ok ()) ↔ f.Fits n p g v := by
  rw [fits_list hx hm]
  have hopen : f.schema.conformSlot t p v = .ok () ↔ ∃ items, v = .list items ∧
      ∀ item ∈ items, f.schema.conformItem t p item = .ok () := by
    simp only [Schema.conformSlot, hg, ho, hx, hm, bind_ok, Option.isSome_none,
      Bool.false_eq_true, if_false, if_true]
    cases v with
    | list items => simpa using forM_eq_ok
    | _ => simp
  rw [hopen]
  have hitems : ∀ items : List Value,
      (∀ item ∈ items, f.schema.conformItem t p item = .ok ()) →
        ∀ item ∈ items, Schema.itemFits g item = true := by
    intro items h item hi
    obtain ⟨g', hg', hf⟩ := conformItem_eq_ok.mp (h item hi)
    rw [hg, Except.ok.injEq] at hg'
    rw [hg']
    exact hf
  constructor
  · rintro ⟨⟨items, rfl, hc⟩, htarget⟩
    rw [requireTargets_list ht hg (hitems items hc)] at htarget
    exact ⟨items, rfl, fun item hi => (accepts_iff ht).mpr ⟨hc item hi, htarget item hi⟩⟩
  · rintro ⟨items, rfl, ha⟩
    have hc := fun item hi => ((accepts_iff ht).mp (ha item hi)).1
    refine ⟨⟨items, rfl, hc⟩, ?_⟩
    rw [requireTargets_list ht hg (hitems items hc)]
    exact fun item hi => ((accepts_iff ht).mp (ha item hi)).2

/-- A single value conforms if it is null or an item. -/
theorem conforms_single_iff (ht : f.typeOf n = .ok t) (hg : f.schema.feature t p = .ok g)
    (ho : g.owner = none) (hx : g.isMixed = false) (hm : g.many = false) :
    (f.schema.conformSlot t p v = .ok () ∧ f.requireTargets n p v = .ok ()) ↔ f.Fits n p g v := by
  rw [fits_single hx hm]
  simp only [Schema.conformSlot, hg, ho, hx, hm, bind_ok, Option.isSome_none,
    Bool.false_eq_true, if_false]
  cases hn : v.isNull with
  | true =>
    have hv : v = .null := by
      cases v <;> simp [Value.isNull] at hn
      rfl
    subst hv
    refine iff_of_true ⟨rfl, ?_⟩ (.inl rfl)
    unfold requireTargets
    simp only [ht, hg, bind_ok, Value.nodes]
    split_ifs <;> rfl
  | false =>
    have hv : v ≠ .null := by
      rintro rfl
      exact absurd hn (by simp [Value.isNull])
    simp only [Bool.false_eq_true, if_false, hv, false_or]
    exact (accepts_iff ht).symm

/-- **A value conforms to a property and may point where it points** exactly if the
property has a slot of its own and takes the value. -/
theorem conforms_iff_fits (ht : f.typeOf n = .ok t) (hg : f.schema.feature t p = .ok g) :
    (f.schema.conformSlot t p v = .ok () ∧ f.requireTargets n p v = .ok ()) ↔
      g.owner = none ∧ f.Fits n p g v := by
  cases ho : g.owner with
  | some m => simp [Schema.conformSlot, hg, ho]
  | none =>
    rw [eq_self, true_and]
    cases hx : g.isMixed with
    | true => exact conforms_mixed_iff ht hg ho hx
    | false =>
      cases hm : g.many with
      | true => exact conforms_list_iff ht hg ho hx hm
      | false => exact conforms_single_iff ht hg ho hx hm

/-- The children of a value that fits can be computed. -/
theorem owned_of_fits (hg : f.feature n p = .ok g) (h : f.Fits n p g v) :
    f.owned n p v = .ok ((f.claims n p v).map Prod.fst) := by
  have hok : ∃ cs, f.owned n p v = .ok cs := by
    obtain ⟨t, ht, hgt⟩ := feature_eq_ok.mp hg
    simp only [owned, ht, hgt, bind_ok]
    cases hr : g.role with
    | mixed =>
      obtain ⟨es, rfl, hes⟩ := (fits_mixed (by simp [Property.isMixed, hr])).mp h
      have hk : ∀ e ∈ es, ∃ b : Option NodeId, (do
          let member ← f.schema.feature t e.property
          return if member.owns then e.value.node? else none : Except Fault _) = .ok b := by
        intro e he
        obtain ⟨⟨k, hk, -⟩, -⟩ := hes e he
        obtain ⟨u, hu, hk⟩ := feature_eq_ok.mp hk
        obtain rfl := ok_unique ht hu
        exact ⟨_, by rw [hk]; rfl⟩
      obtain ⟨bs, hbs⟩ := exists_mapM_eq_ok hk
      exact ⟨bs.filterMap id, bind_eq_ok.mpr ⟨bs, hbs, rfl⟩⟩
    | _ => exact ⟨_, rfl⟩
  obtain ⟨cs, hcs⟩ := hok
  rw [hcs, owned_eq_claims hcs]

/-! ## Incoming children -/

theorem requireDistinct_eq_ok {earlier cs : List NodeId} :
    f.requireDistinct n p earlier cs = .ok () ↔ cs.Nodup ∧ ∀ c ∈ cs, c ∉ earlier := by
  induction cs generalizing earlier with
  | nil => simp [requireDistinct]
  | cons c cs ih =>
    rw [requireDistinct]
    by_cases hc : c ∈ earlier
    · simp only [hc, if_true]
      refine iff_of_false ?_ fun h => h.2 c List.mem_cons_self hc
      cases f.label n p <;> simp
    · simp only [hc, if_false]
      rw [ih, List.nodup_cons, List.forall_mem_cons]
      constructor
      · rintro ⟨hd, h⟩
        exact ⟨⟨fun hm => h c hm List.mem_cons_self, hd⟩, hc,
          fun x hx hin => h x hx (List.mem_cons_of_mem c hin)⟩
      · rintro ⟨⟨hn, hd⟩, -, h⟩
        refine ⟨hd, fun x hx hin => ?_⟩
        rcases List.mem_cons.mp hin with rfl | hin
        · exact hn hx
        · exact h x hx hin

theorem requireAcyclic_eq_ok : f.requireAcyclic n c = .ok () ↔ f.isWithin n c = false := by
  unfold requireAcyclic
  cases f.isWithin n c <;> simp

theorem requireNewcomer_eq_ok : f.requireNewcomer n p c = .ok () ↔
    f.isWithin n c = false ∧ ∃ s, f.slot n p = .ok s ∧ c ∉ s.value.nodes := by
  have hlisted : ∀ s : Slot, (if s.value.nodes.contains c then do
      throw (.mismatch (← f.label n p) "distinct children" (c.label ++ " already present"))
      else return () : Except Fault Unit) = .ok () ↔ c ∉ s.value.nodes := by
    intro s
    by_cases hc : c ∈ s.value.nodes
    · rw [if_pos (List.contains_iff_mem.mpr hc)]
      cases f.label n p <;> simp [hc]
    · rw [if_neg (by simpa using hc)]
      simp [hc]
  simp only [requireNewcomer, bind_eq_ok]
  constructor
  · rintro ⟨_, ha, s, hs, h⟩
    exact ⟨requireAcyclic_eq_ok.mp ha, s, hs, (hlisted s).mp h⟩
  · rintro ⟨ha, s, hs, h⟩
    exact ⟨(), requireAcyclic_eq_ok.mpr ha, s, hs, (hlisted s).mpr h⟩

/-! ## Admissions -/

/-- **When a value is admitted to a slot**, and what children come in with it. -/
theorem admitValue_eq_ok {cs : List NodeId} : f.admitValue n p v = .ok cs ↔
    ∃ g, f.feature n p = .ok g ∧ g.owner = none ∧ f.Fits n p g v ∧
      cs = (f.claims n p v).map Prod.fst ∧ cs.Nodup ∧ ∀ c ∈ cs, f.isWithin n c = false := by
  simp only [admitValue, bind_eq_ok, pure_eq_ok, Except.ok.injEq]
  constructor
  · rintro ⟨t, ht, _, hconform, _, htarget, incoming, hin, _, hd, _, ha, rfl⟩
    obtain ⟨g, hg⟩ : ∃ g, f.schema.feature t p = .ok g := by
      simp only [Schema.conformSlot, bind_eq_ok] at hconform
      obtain ⟨g, hg, -⟩ := hconform
      exact ⟨g, hg⟩
    obtain ⟨ho, hfits⟩ := (conforms_iff_fits ht hg).mp ⟨hconform, htarget⟩
    refine ⟨g, feature_eq_ok.mpr ⟨t, ht, hg⟩, ho, hfits, owned_eq_claims hin,
      (requireDistinct_eq_ok.mp hd).1, fun c hc => ?_⟩
    exact requireAcyclic_eq_ok.mp (forM_eq_ok.mp ha c hc)
  · rintro ⟨g, hg, ho, hfits, hcs, hd, ha⟩
    obtain ⟨t, ht, hgt⟩ := feature_eq_ok.mp hg
    obtain ⟨hconform, htarget⟩ := (conforms_iff_fits ht hgt).mpr ⟨ho, hfits⟩
    refine ⟨t, ht, (), hconform, (), htarget, cs, ?_, (), ?_, (), ?_, rfl⟩
    · rw [hcs]
      exact owned_of_fits hg hfits
    · exact requireDistinct_eq_ok.mpr ⟨hd, by simp⟩
    · exact forM_eq_ok.mpr fun c hc => requireAcyclic_eq_ok.mpr (ha c hc)

theorem optionForM_eq_ok {o : Option NodeId} {k : NodeId → Except Fault Unit} :
    o.forM k = .ok () ↔ ∀ c, o = some c → k c = .ok () := by
  cases o with
  | none => simp [Option.forM]
  | some c => simp [Option.forM]

/-- **When an item is admitted to a list**, and what child it would be. -/
theorem admitItem_eq_ok {i : Nat} {incoming : Option NodeId} :
    f.admitItem n p i item = .ok incoming ↔ ∃ g items, f.feature n p = .ok g ∧
      f.itemsOf n p = .ok items ∧ i ≤ items.length ∧ f.Accepts n p item ∧
      incoming = (if g.owns then item.node? else none) ∧
      ∀ c, incoming = some c → f.requireNewcomer n p c = .ok () := by
  simp only [admitItem, bind_eq_ok, pure_eq_ok]
  constructor
  · rintro ⟨items, hitems, h⟩
    by_cases hi : items.length < i
    · simp [hi] at h
    · simp only [hi, if_false, bind_eq_ok, Except.ok.injEq] at h
      obtain ⟨t, ht, _, hc, _, htarget, g, hg, _, hnew, rfl⟩ := h
      exact ⟨g, items, hg, hitems, by omega, (accepts_iff ht).mpr ⟨hc, htarget⟩, rfl,
        optionForM_eq_ok.mp hnew⟩
  · rintro ⟨g, items, hg, hitems, hi, ha, rfl, hnew⟩
    obtain ⟨t, ht, -⟩ := feature_eq_ok.mp hg
    obtain ⟨hc, htarget⟩ := (accepts_iff ht).mp ha
    refine ⟨items, hitems, ?_⟩
    have hlt : ¬ items.length < i := by omega
    simp only [hlt, if_false, bind_eq_ok, Except.ok.injEq]
    exact ⟨t, ht, (), hc, (), htarget, g, hg, (), optionForM_eq_ok.mpr hnew, rfl⟩

/-- **When an entry is admitted to mixed content**, where, and what child it would
bring. -/
theorem admitEntry_eq_ok {i : Nat} {mixed : PropertyId} {incoming : Option NodeId} :
    f.admitEntry n i q item = .ok (mixed, incoming) ↔ ∃ g entries, f.feature n q = .ok g ∧
      g.owner = some mixed ∧ f.sequence n mixed = .ok entries ∧ i ≤ entries.length ∧
      f.Accepts n q item ∧ incoming = (if g.owns then item.node? else none) ∧
      ∀ c, incoming = some c → f.requireNewcomer n mixed c = .ok () := by
  simp only [admitEntry, bind_eq_ok, pure_eq_ok, sequenceOwner_eq_ok]
  constructor
  · rintro ⟨m, ⟨g, hg, ho⟩, entries, hes, h⟩
    by_cases hi : entries.length < i
    · simp [hi] at h
    · simp only [hi, if_false, bind_eq_ok, Except.ok.injEq, Prod.mk.injEq] at h
      obtain ⟨t, ht, _, hentry, _, htarget, g', hg', _, hnew, rfl, rfl⟩ := h
      obtain ⟨-, hc⟩ := conformEntry_eq_ok.mp hentry
      obtain rfl := ok_unique hg hg'
      exact ⟨g, entries, hg, ho, hes, by omega, (accepts_iff ht).mpr ⟨hc, htarget⟩, rfl,
        optionForM_eq_ok.mp hnew⟩
  · rintro ⟨g, entries, hg, ho, hes, hi, ha, rfl, hnew⟩
    obtain ⟨t, ht, hgt⟩ := feature_eq_ok.mp hg
    obtain ⟨hc, htarget⟩ := (accepts_iff ht).mp ha
    refine ⟨mixed, ⟨g, hg, ho⟩, entries, hes, ?_⟩
    have hlt : ¬ entries.length < i := by omega
    simp only [hlt, if_false, bind_eq_ok, Except.ok.injEq]
    exact ⟨t, ht, (), conformEntry_eq_ok.mpr ⟨⟨g, hgt, ho⟩, hc⟩, (), htarget, g, hg, (),
      optionForM_eq_ok.mpr hnew, rfl⟩

end TrackedGraph.Forest
