/-
Sound forests.

`Typed` is what holds of every forest that edits can reach: slots are aligned with the
schema, each holds what its property takes, an unset slot is at rest, no node sits below
itself, and a single-valued slot holds the child that sits in it. `Linked` is the agreement
of the two copies of the tree: a node sits in another one under a property exactly if a slot
there claims it under that property, and no slot claims a node twice. An edit that is
admitted keeps the first whatever the second does, so `Sound` carries the second as an
implication: `Sound False` is `Typed`, and `Sound True` is both.

`Rewrite` lists what has to be known of a write for it to keep a forest sound
(`Sound.write`). Every edit is such a write, or a few of them.
-/
import TrackedGraph.Proofs.Forest.Admit
import TrackedGraph.Proofs.Schema.Coherent

set_option autoImplicit false

namespace TrackedGraph.Forest

variable {f : Forest} {n m c : NodeId} {p q r : PropertyId} {t : TypeId} {v : Value} {g : Feature}
  {s : Slot}

/-- A slot holds what its property takes; while it is unset it is at rest, and a list or
mixed content that is set is not empty. -/
structure SlotFits (f : Forest) (n : NodeId) (p : PropertyId) (g : Feature) (s : Slot) : Prop where
  rest : s.isSet = false → s.value = g.restValue
  fits : s.isSet = true → f.Fits n p g s.value
  full : s.isSet = true → g.many = true → s.value.isEmpty = false

/-- The property can come to hold the value: it takes it, or it rests at it. -/
def MayHold (f : Forest) (n : NodeId) (p : PropertyId) (g : Feature) (v : Value) : Prop :=
  v = g.restValue ∨ f.Fits n p g v

/-- Slots are aligned with the schema, and those of the members of mixed content hold nothing. -/
structure Slotted (f : Forest) : Prop where
  slot_of_feature : ∀ n p g, f.feature n p = .ok g → ∃ s, f.slot n p = .ok s
  feature_of_slot : ∀ n p s, f.slot n p = .ok s → ∃ g, f.feature n p = .ok g
  member : ∀ n p g s, f.feature n p = .ok g → g.owner ≠ none → f.slot n p = .ok s →
    s = ⟨.null, false⟩

/-- Slots are aligned with the schema, and each holds what its property can come to hold. This
is so whatever the defaults are, and whatever places say. -/
structure Shaped (f : Forest) : Prop where
  coherent : f.schema.Coherent
  slot_of_feature : ∀ n p g, f.feature n p = .ok g → ∃ s, f.slot n p = .ok s
  feature_of_slot : ∀ n p s, f.slot n p = .ok s → ∃ g, f.feature n p = .ok g
  held : ∀ n p g s, f.feature n p = .ok g → g.owner = none → f.slot n p = .ok s →
    f.MayHold n p g s.value
  member : ∀ n p g s, f.feature n p = .ok g → g.owner ≠ none → f.slot n p = .ok s →
    s = ⟨.null, false⟩

/-- Slots are aligned with the schema and hold what it lets them hold, places are under
properties that own, and no node sits below itself. -/
structure Typed (f : Forest) : Prop where
  regular : f.schema.Regular
  slot_of_feature : ∀ n p g, f.feature n p = .ok g → ∃ s, f.slot n p = .ok s
  feature_of_slot : ∀ n p s, f.slot n p = .ok s → ∃ g, f.feature n p = .ok g
  fits : ∀ n p g s, f.feature n p = .ok g → g.owner = none → f.slot n p = .ok s →
    f.SlotFits n p g s
  member : ∀ n p g s, f.feature n p = .ok g → g.owner ≠ none → f.slot n p = .ok s →
    s = ⟨.null, false⟩
  placed : ∀ c n q, f.place? c = some ⟨n, q⟩ → f.ownsAt n q = true
  acyclic : f.Acyclic
  /-- A single-valued slot holds the child that sits in it, whether places and slots agree
  or not. -/
  held : ∀ c n q g, f.place? c = some ⟨n, q⟩ → f.feature n q = .ok g → g.owner = none →
    g.many = false → ∃ s, f.slot n q = .ok s ∧ s.value = .node c

/-- Places and slots agree, and no slot claims a node twice. -/
structure Linked (f : Forest) : Prop where
  once : ∀ n p s, f.slot n p = .ok s → ((f.claims n p s.value).map Prod.fst).Nodup
  placed : ∀ n p s c q, f.slot n p = .ok s → (c, q) ∈ f.claims n p s.value →
    f.place? c = some ⟨n, q⟩
  listed : ∀ c n q, f.place? c = some ⟨n, q⟩ →
    ∃ p s, f.slot n p = .ok s ∧ (c, q) ∈ f.claims n p s.value

/-- A typed forest, in which, if `strict`, places and slots agree. -/
structure Sound (strict : Prop) (f : Forest) : Prop extends f.Typed where
  linked : strict → f.Linked

/-- **Places and slots agree, and no node sits below itself.** Nothing is asked of the defaults. -/
structure Orderly (f : Forest) : Prop where
  shaped : f.Shaped
  linked : f.Linked
  acyclic : f.Acyclic

/-! ## What slots hold -/

theorem SlotFits.mayHold (h : f.SlotFits n p g s) : f.MayHold n p g s.value := by
  cases hset : s.isSet with
  | true => exact .inr (h.fits hset)
  | false => exact .inl (h.rest hset)

theorem MayHold.of_types {f' : Forest} (hs : f'.schema = f.schema)
    (ht : ∀ m u, f.typeOf m = .ok u → f'.typeOf m = .ok u) (h : f.MayHold n p g v) :
    f'.MayHold n p g v :=
  h.imp_right (·.of_types hs ht)

/-- Mixed content rests at a sequence that it takes. -/
theorem MayHold.entries (h : f.MayHold n p g v) (hx : g.isMixed = true) :
    ∃ entries, v = .mixed entries ∧ ∀ e ∈ entries,
      (∃ h, f.feature n e.property = .ok h ∧ h.owner = some p) ∧ f.Accepts n e.property e.value := by
  rcases h with rfl | h
  · exact ⟨[], by rw [Property.restValue, if_pos hx], by simp⟩
  · exact (fits_mixed hx).mp h

/-- A list rests at one that it takes. -/
theorem MayHold.items (h : f.MayHold n p g v) (hx : g.isMixed = false) (hm : g.many = true) :
    ∃ items, v = .list items ∧ ∀ item ∈ items, f.Accepts n p item := by
  rcases h with rfl | h
  · exact ⟨[], by rw [Property.restValue, if_neg (by simp [hx]), if_pos hm], by simp⟩
  · exact (fits_list hx hm).mp h

theorem Typed.shaped (ht : f.Typed) : f.Shaped where
  coherent := ht.regular.coherent
  slot_of_feature := ht.slot_of_feature
  feature_of_slot := ht.feature_of_slot
  held := fun n p g s hg ho hs => (ht.fits n p g s hg ho hs).mayHold
  member := ht.member

theorem Shaped.slotted (hf : f.Shaped) : f.Slotted :=
  ⟨hf.slot_of_feature, hf.feature_of_slot, hf.member⟩

theorem Sound.orderly (hf : f.Sound True) : f.Orderly :=
  ⟨hf.toTyped.shaped, hf.linked trivial, hf.acyclic⟩

/-! ## What slots claim -/

theorem SlotFits.of_types {f' : Forest} (hs : f'.schema = f.schema)
    (ht : ∀ m u, f.typeOf m = .ok u → f'.typeOf m = .ok u) (h : f.SlotFits n p g s) :
    f'.SlotFits n p g s :=
  ⟨h.rest, fun hset => (h.fits hset).of_types hs ht, h.full⟩

theorem feature_of_types {f' : Forest} (hs : f'.schema = f.schema)
    (ht : ∀ m u, f.typeOf m = .ok u → f'.typeOf m = .ok u) (h : f.feature n p = .ok g) :
    f'.feature n p = .ok g := by
  obtain ⟨t, htn, hg⟩ := feature_eq_ok.mp h
  exact feature_eq_ok.mpr ⟨t, ht n t htn, by rw [hs]; exact hg⟩

/-- A property at rest claims nothing. -/
theorem claims_restValue (hr : f.schema.Regular) (hg : f.feature n p = .ok g) :
    f.claims n p g.restValue = [] := by
  obtain ⟨t, -, hgt⟩ := feature_eq_ok.mp hg
  cases ho : g.owns with
  | true =>
    have hx := Property.not_mixed_of_owns ho
    have hd : g.default = .null := hr.nullContainment t p g hgt ho
    rw [claims_of_containment hg ho]
    unfold Property.restValue
    rw [if_neg (by simp [hx])]
    split_ifs
    · rfl
    · rw [hd]
      rfl
  | false =>
    cases hx : g.isMixed with
    | true =>
      rw [claims_of_mixed hg hx]
      unfold Property.restValue
      rw [if_pos hx]
      rfl
    | false => exact claims_of_plain hg ho hx

theorem SlotFits.isSet_of_claims (hr : f.schema.Regular) (hg : f.feature n p = .ok g)
    (h : f.SlotFits n p g s) (hc : (c, q) ∈ f.claims n p s.value) : s.isSet = true := by
  cases hset : s.isSet with
  | true => rfl
  | false =>
    rw [h.rest hset, claims_restValue hr hg] at hc
    exact absurd hc (by simp)

/-- A child that a value claims is accepted where it is claimed. -/
theorem Fits.accepts_of_claims (hg : f.feature n p = .ok g) (h : f.Fits n p g v)
    (hclaim : (c, q) ∈ f.claims n p v) : f.Accepts n q (.node c) := by
  obtain ⟨g', hg', hcase⟩ := mem_claims.mp hclaim
  obtain rfl := ok_unique hg hg'
  rcases hcase with ⟨ho, rfl, hc⟩ | ⟨hx, -, e, he, rfl, hc⟩
  · have hx := Property.not_mixed_of_owns ho
    cases hm : g.many with
    | true =>
      obtain ⟨items, rfl, hitems⟩ := (fits_list hx hm).mp h
      obtain ⟨item, hi, hc⟩ := List.mem_filterMap.mp hc
      cases item <;> simp [Value.node?] at hc
      subst hc
      exact hitems _ hi
    | false =>
      rcases (fits_single hx hm).mp h with rfl | ha
      · simp [Value.nodes] at hc
      · obtain ⟨_, -, hf, -⟩ := id ha
        rw [(nodes_of_itemFits hf).1] at hc
        cases v <;> simp [Value.node?] at hc
        subst hc
        exact ha
  · obtain ⟨entries, rfl, hes⟩ := (fits_mixed hx).mp h
    have ha := (hes e he).2
    cases hv : e.value <;> simp [hv, Value.node?] at hc
    subst hc
    rw [hv] at ha
    exact ha

theorem Fits.contains_of_claims (hg : f.feature n p = .ok g) (h : f.Fits n p g v) :
    ∀ x ∈ f.claims n p v, f.contains x.1 = true :=
  fun _ hx => (h.accepts_of_claims hg hx).contains rfl

theorem SlotFits.contains_of_claims (hr : f.schema.Regular) (hg : f.feature n p = .ok g)
    (h : f.SlotFits n p g s) (hc : (c, q) ∈ f.claims n p s.value) : f.contains c = true :=
  ((h.fits (h.isSet_of_claims hr hg hc)).accepts_of_claims hg hc).contains rfl

theorem Shaped.owner_of_mixed (hf : f.Shaped) (hg : f.feature n p = .ok g)
    (hx : g.isMixed = true) : g.owner = none := by
  obtain ⟨t, -, hgt⟩ := feature_eq_ok.mp hg
  exact (hf.coherent.mixed t p g hgt hx).2.1

theorem Shaped.many_of_mixed (hf : f.Shaped) (hg : f.feature n p = .ok g)
    (hx : g.isMixed = true) : g.many = true := by
  obtain ⟨t, -, hgt⟩ := feature_eq_ok.mp hg
  exact (hf.coherent.mixed t p g hgt hx).1

/-- What a member belongs to is mixed content. -/
theorem Shaped.exists_mixed {k : Feature} {r : PropertyId} (hf : f.Shaped)
    (hk : f.feature n q = .ok k) (ho : k.owner = some r) :
    ∃ g, f.feature n r = .ok g ∧ g.isMixed = true := by
  obtain ⟨t, ht, hkt⟩ := feature_eq_ok.mp hk
  obtain ⟨g, hg, hx⟩ := hf.coherent.mixedOf t r (hf.coherent.owner t q k r hkt ho)
  exact ⟨g, feature_eq_ok.mpr ⟨t, ht, hg⟩, hx⟩

/-- A node has one mixed content, so all members are of that one. -/
theorem Shaped.eq_of_mixed {k : Feature} {r : PropertyId} (hf : f.Shaped)
    (hg : f.feature n p = .ok g) (hx : g.isMixed = true) (hk : f.feature n q = .ok k)
    (ho : k.owner = some r) : r = p := by
  obtain ⟨t, ht, hgt⟩ := feature_eq_ok.mp hg
  obtain ⟨t', ht', hkt⟩ := feature_eq_ok.mp hk
  obtain rfl := ok_unique ht ht'
  have hmixed := (hf.coherent.mixed t p g hgt hx).2.2
  exact Option.some.inj ((hf.coherent.owner t q k r hkt ho).symm.trans hmixed)

/-- What a slot claims under a property tells which slot it is. -/
theorem Shaped.host (hf : f.Shaped) (hs : f.slot n p = .ok s)
    (hclaim : (c, q) ∈ f.claims n p s.value) :
    ∃ h, f.feature n q = .ok h ∧ h.owns = true ∧ p = h.owner.getD q := by
  obtain ⟨g, hg, hcase⟩ := mem_claims.mp hclaim
  rcases hcase with ⟨ho, rfl, hc⟩ | ⟨hx, hown, e, he, rfl, -⟩
  · refine ⟨g, hg, ho, ?_⟩
    cases hm : g.owner with
    | none => rfl
    | some m =>
      rw [hf.member n q g s hg (by simp [hm]) hs] at hc
      simp [Value.nodes] at hc
  · obtain ⟨entries, hv, hes⟩ := (hf.held n p g s hg (hf.owner_of_mixed hg hx) hs).entries hx
    rw [hv] at he
    obtain ⟨⟨h, hh, ho⟩, -⟩ := hes e he
    obtain ⟨h', hh', hown⟩ := ownsAt_iff.mp hown
    obtain rfl := ok_unique hh hh'
    exact ⟨h, hh, hown, by rw [ho]; rfl⟩

theorem Shaped.slot_unique {p' : PropertyId} {s' : Slot} {c' : NodeId} (hf : f.Shaped)
    (hs : f.slot n p = .ok s) (hc : (c, q) ∈ f.claims n p s.value)
    (hs' : f.slot n p' = .ok s') (hc' : (c', q) ∈ f.claims n p' s'.value) : p = p' := by
  obtain ⟨h, hh, -, rfl⟩ := hf.host hs hc
  obtain ⟨h', hh', -, rfl⟩ := hf.host hs' hc'
  rw [hh, Except.ok.injEq] at hh'
  rw [hh']

/-- **A child is claimed by one slot** if places and slots agree. -/
theorem Linked.slot_unique {s' : Slot} (hl : f.Linked) (hf : f.Shaped)
    (hs : f.slot n p = .ok s) (hc : c ∈ (f.claims n p s.value).map Prod.fst)
    (hs' : f.slot m q = .ok s') (hc' : c ∈ (f.claims m q s'.value).map Prod.fst) :
    m = n ∧ q = p := by
  obtain ⟨⟨_, r⟩, hr, rfl⟩ := List.mem_map.mp hc
  obtain ⟨⟨c, r'⟩, hr', rfl⟩ := List.mem_map.mp hc'
  have hplace := hl.placed n p s c r hs hr
  rw [hl.placed m q s' c r' hs' hr', Option.some.injEq, Place.mk.injEq] at hplace
  obtain ⟨rfl, rfl⟩ := hplace
  exact ⟨rfl, hf.slot_unique hs' hr' hs hr⟩

theorem eq_of_claims_nodup {xs : List (NodeId × PropertyId)} (hd : (xs.map Prod.fst).Nodup)
    (h : (c, q) ∈ xs) (h' : (c, r) ∈ xs) : q = r := by
  have := List.inj_on_of_nodup_map hd h h' rfl
  exact congrArg Prod.snd this

/-! ## Writing -/

/-- What has to be known of a write: the slot, what it holds before and after, and which
children it frees and takes. What concerns the agreement of places and slots is asked
for only if `strict`. -/
structure Rewrite (strict : Prop) (f : Forest) (n : NodeId) (p : PropertyId) (g : Feature)
    (old new : Slot) (freed : List NodeId) (taken : List (NodeId × PropertyId)) : Prop where
  feature : f.feature n p = .ok g
  direct : g.owner = none
  slot : f.slot n p = .ok old
  fits : f.SlotFits n p g new
  distinct : (taken.map Prod.fst).Nodup
  claimed : ∀ x ∈ taken, x ∈ f.claims n p new.value
  upward : ∀ x ∈ taken, ¬ f.Within n x.1
  once : strict → ((f.claims n p new.value).map Prod.fst).Nodup
  free : strict → ∀ x ∈ taken,
    f.place? x.1 = none ∨ x.1 ∈ (f.claims n p old.value).map Prod.fst
  kept : strict → ∀ x ∈ f.claims n p new.value, x ∈ taken ∨ x ∈ f.claims n p old.value
  lost : strict → ∀ c, c ∈ freed ↔
    c ∈ (f.claims n p old.value).map Prod.fst ∧ c ∉ (f.claims n p new.value).map Prod.fst
  dropped : ∀ c ∈ (f.claims n p old.value).map Prod.fst,
    c ∉ (f.claims n p new.value).map Prod.fst → c ∈ freed

section write

variable {strict : Prop} {old new : Slot} {freed : List NodeId}
  {taken : List (NodeId × PropertyId)}

/-- A child that a value claims under a single-valued property of its own is all that the
value holds. -/
theorem Fits.eq_of_claims {k : Feature} (hg : f.feature n p = .ok g) (h : f.Fits n p g v)
    (hc : (c, q) ∈ f.claims n p v) (hk : f.feature n q = .ok k) (ho : k.owner = none)
    (hm : k.many = false) : q = p ∧ v = .node c := by
  obtain ⟨g', hg', hcase⟩ := mem_claims.mp hc
  obtain rfl := ok_unique hg hg'
  rcases hcase with ⟨hown, rfl, hnode⟩ | ⟨hx, -, e, he, rfl, -⟩
  · obtain rfl := ok_unique hg hk
    have hx := Property.not_mixed_of_owns hown
    refine ⟨rfl, ?_⟩
    rcases (fits_single hx hm).mp h with rfl | ⟨_, -, hitem, -⟩
    · exact absurd hnode (by simp [Value.nodes])
    · rw [(nodes_of_itemFits hitem).1, Option.mem_toList] at hnode
      cases v <;> simp [Value.node?] at hnode
      rw [hnode]
  · -- The members of mixed content have no slots of their own.
    obtain ⟨entries, rfl, hes⟩ := (fits_mixed hx).mp h
    obtain ⟨⟨k', hk', ho'⟩, -⟩ := hes e he
    rw [hk, Except.ok.injEq] at hk'
    rw [← hk', ho] at ho'
    exact absurd ho' (by simp)

/-- A write keeps the children of single-valued slots in them. -/
theorem Typed.held_write (ht : f.Typed) (h : f.Rewrite strict n p g old new freed taken)
    {k : Feature} (hp : (f.write n p new freed taken).place? c = some ⟨m, q⟩)
    (hk : f.feature m q = .ok k) (ho : k.owner = none) (hm : k.many = false) :
    ∃ s, (f.write n p new freed taken).slot m q = .ok s ∧ s.value = .node c := by
  have hclaimed : (c, q) ∈ f.claims n p new.value → m = n →
      ∃ s, (f.write n p new freed taken).slot m q = .ok s ∧ s.value = .node c := by
    rintro hc rfl
    have hset := h.fits.isSet_of_claims ht.regular h.feature hc
    obtain ⟨rfl, hv⟩ := (h.fits.fits hset).eq_of_claims h.feature hc hk ho hm
    exact ⟨new, slot_write_self h.slot, hv⟩
  rcases place?_of_write h.distinct hp with ⟨r, hr, hplace⟩ | ⟨-, hfreed, hp⟩
  · obtain ⟨rfl, rfl⟩ := Place.mk.injEq .. ▸ hplace
    exact hclaimed (h.claimed _ hr) rfl
  · obtain ⟨s, hs, hv⟩ := ht.held c m q k hp hk ho hm
    by_cases hmq : (n, p) = (m, q)
    swap
    · exact ⟨s, (slot_write_of_ne hmq).trans hs, hv⟩
    obtain ⟨rfl, rfl⟩ := Prod.mk.injEq .. ▸ hmq
    obtain rfl := ok_unique h.slot hs
    obtain ⟨k', hk', hown⟩ := ownsAt_iff.mp (ht.placed c n p hp)
    obtain rfl := ok_unique hk hk'
    have hclaims : ∀ v : Value, f.claims n p v = v.nodes.map (·, p) :=
      fun v => claims_of_containment hk hown
    -- What the slot held is freed, unless the slot holds it still.
    have hnew : c ∈ (f.claims n p new.value).map Prod.fst := by
      by_contra hnot
      refine hfreed (h.dropped c ?_ hnot)
      rw [hclaims, hv]
      exact List.mem_singleton_self _
    obtain ⟨⟨_, r⟩, hr, rfl⟩ := List.mem_map.mp hnew
    rw [hclaims] at hr
    obtain ⟨_, hx, heq⟩ := List.mem_map.mp hr
    obtain ⟨rfl, -⟩ := Prod.mk.injEq .. ▸ heq
    refine hclaimed ?_ rfl
    rw [hclaims]
    exact List.mem_map_of_mem hx

theorem Slotted.setPlace (hf : f.Slotted) (place : Option Place) :
    (f.setPlace c place).Slotted := by
  refine ⟨fun m q k hk => ?_, fun m q s hs => ?_, fun m q k s hk ho hs => ?_⟩
  · rw [feature_setPlace] at hk
    rw [slot_setPlace]
    exact hf.slot_of_feature m q k hk
  · rw [slot_setPlace] at hs
    rw [feature_setPlace]
    exact hf.feature_of_slot m q s hs
  · rw [feature_setPlace] at hk
    rw [slot_setPlace] at hs
    exact hf.member m q k s hk ho hs

theorem Slotted.write (hf : f.Slotted) (hold : f.slot n p = .ok old)
    (hg : f.feature n p = .ok g) (ho : g.owner = none) :
    (f.write n p new freed taken).Slotted := by
  refine ⟨fun m q k hk => ?_, fun m q s hs => ?_, fun m q k s hk hko hs => ?_⟩
  · rw [feature_write] at hk
    obtain ⟨s, hs⟩ := hf.slot_of_feature m q k hk
    exact exists_slot_write hs
  · rw [feature_write]
    rcases slot_of_write hold hs with ⟨rfl, rfl, -⟩ | ⟨-, hs⟩
    · exact ⟨g, hg⟩
    · exact hf.feature_of_slot m q s hs
  · rw [feature_write] at hk
    rcases slot_of_write hold hs with ⟨rfl, rfl, -⟩ | ⟨-, hs⟩
    · obtain rfl := ok_unique hg hk
      exact absurd ho hko
    · exact hf.member m q k s hk hko hs

/-- Setting a slot is a write that moves no child. -/
theorem Slotted.setSlot (hf : f.Slotted) (hold : f.slot n p = .ok old)
    (hg : f.feature n p = .ok g) (ho : g.owner = none) : (f.setSlot n p new).Slotted := by
  show (f.write n p new [] []).Slotted
  exact hf.write hold hg ho

/-- Children are taken in only by nodes that are not below them. -/
theorem Acyclic.write (ha : f.Acyclic) (h : f.Rewrite strict n p g old new freed taken) :
    (f.write n p new freed taken).Acyclic := by
  refine ha.of_new_places (n := n) (T := taken.map Prod.fst) ?_ ?_
  · intro c hc
    obtain ⟨x, hx, rfl⟩ := List.mem_map.mp hc
    exact h.upward x hx
  · rintro c m ⟨q, hp⟩
    rcases place?_of_write h.distinct hp with ⟨r, hr, hplace⟩ | ⟨-, -, hp⟩
    · exact .inr ⟨List.mem_map_of_mem hr, congrArg Place.container hplace⟩
    · exact .inl ⟨q, hp⟩

theorem Typed.write (ht : f.Typed) (h : f.Rewrite strict n p g old new freed taken) :
    (f.write n p new freed taken).Typed := by
  have hslotted : (f.write n p new freed taken).Slotted :=
    ht.shaped.slotted.write h.slot h.feature h.direct
  refine ⟨by rw [schema_write]; exact ht.regular, hslotted.slot_of_feature,
    hslotted.feature_of_slot, fun m q k s hk ho hs => ?_, hslotted.member, fun c m q hp => ?_,
    ht.acyclic.write h, fun c m q k hp hk => ht.held_write h hp (by rwa [feature_write] at hk)⟩
  · rw [feature_write] at hk
    refine SlotFits.of_types schema_write (fun _ _ hu => typeOf_write.trans hu) ?_
    rcases slot_of_write h.slot hs with ⟨rfl, rfl, rfl⟩ | ⟨-, hs⟩
    · obtain rfl := ok_unique h.feature hk
      exact h.fits
    · exact ht.fits m q k s hk ho hs
  · have hown : (f.write n p new freed taken).ownsAt m q = f.ownsAt m q := by
      unfold ownsAt
      rw [feature_write]
    rw [hown]
    rcases place?_of_write h.distinct hp with ⟨r, hr, hplace⟩ | ⟨-, -, hp⟩
    · obtain ⟨rfl, rfl⟩ := Place.mk.injEq .. ▸ hplace
      exact ownsAt_of_mem_claims (h.claimed _ hr)
    · exact ht.placed c m q hp

section linked

variable (hl : f.Linked) (h : f.Rewrite True n p g old new freed taken)

include hl h

/-- What another slot claims is neither freed nor taken. -/
theorem Linked.apart (hf : f.Shaped) (hs : f.slot m q = .ok s)
    (hc : (c, r) ∈ f.claims m q s.value) (hne : (n, p) ≠ (m, q)) :
    c ∉ freed ∧ c ∉ taken.map Prod.fst := by
  -- Were the child claimed by the slot that is written too, the two slots would be one.
  have hother : c ∉ (f.claims n p old.value).map Prod.fst := by
    intro hin
    obtain ⟨rfl, rfl⟩ := hl.slot_unique hf h.slot hin hs (List.mem_map_of_mem hc)
    exact hne rfl
  refine ⟨fun hin => hother ((h.lost trivial c).mp hin).1, fun hin => ?_⟩
  obtain ⟨x, hx, rfl⟩ := List.mem_map.mp hin
  rcases h.free trivial x hx with hnone | hold
  · rw [hl.placed m q s x.1 r hs hc] at hnone
    exact absurd hnone (by simp)
  · exact hother hold

/-- What the new value claims sits in the slot. -/
theorem Linked.place?_write (hcontains : ∀ x ∈ taken, f.contains x.1 = true)
    (hc : (c, r) ∈ f.claims n p new.value) :
    (f.write n p new freed taken).place? c = some ⟨n, r⟩ := by
  by_cases htaken : c ∈ taken.map Prod.fst
  · obtain ⟨⟨_, r'⟩, hx, rfl⟩ := List.mem_map.mp htaken
    obtain rfl := eq_of_claims_nodup (h.once trivial) hc (h.claimed _ hx)
    exact place?_write_of_taken h.distinct (hcontains _ hx) hx
  · rcases h.kept trivial _ hc with hx | hx
    · exact absurd (List.mem_map_of_mem hx) htaken
    · have hnew : c ∈ (f.claims n p new.value).map Prod.fst := List.mem_map_of_mem hc
      have hfreed : c ∉ freed := fun hf => ((h.lost trivial c).mp hf).2 hnew
      rw [place?_write_of_not_taken htaken, if_neg hfreed]
      exact hl.placed n p old c r h.slot hx

/-- What the old value claims and is not freed, the new value claims. -/
theorem Linked.mem_claims_new (hc : (c, r) ∈ f.claims n p old.value) (hfreed : c ∉ freed)
    (htaken : c ∉ taken.map Prod.fst) : (c, r) ∈ f.claims n p new.value := by
  have hnew : c ∈ (f.claims n p new.value).map Prod.fst := by
    by_contra hnot
    exact hfreed ((h.lost trivial c).mpr ⟨List.mem_map_of_mem hc, hnot⟩)
  obtain ⟨⟨_, r'⟩, hx, rfl⟩ := List.mem_map.mp hnew
  rcases h.kept trivial _ hx with hin | hold
  · exact absurd (List.mem_map_of_mem hin) htaken
  · obtain rfl := eq_of_claims_nodup (hl.once n p old h.slot) hc hold
    exact hx

theorem Linked.write (hf : f.Shaped) (hcontains : ∀ x ∈ taken, f.contains x.1 = true) :
    (f.write n p new freed taken).Linked := by
  refine ⟨fun m q s hs => ?_, fun m q s c r hs hc => ?_, fun c m r hp => ?_⟩
  · rw [claims_write]
    rcases slot_of_write h.slot hs with ⟨rfl, rfl, rfl⟩ | ⟨-, hs⟩
    · exact h.once trivial
    · exact hl.once m q s hs
  · rw [claims_write] at hc
    rcases slot_of_write h.slot hs with ⟨rfl, rfl, rfl⟩ | ⟨hmq, hs⟩
    · exact hl.place?_write h hcontains hc
    · obtain ⟨hfreed, htaken⟩ := hl.apart h hf hs hc hmq
      rw [place?_write_of_not_taken htaken, if_neg hfreed]
      exact hl.placed m q s c r hs hc
  · simp only [claims_write]
    rcases place?_of_write h.distinct hp with ⟨r', hx, hplace⟩ | ⟨htaken, hfreed, hp⟩
    · obtain ⟨rfl, rfl⟩ := Place.mk.injEq .. ▸ hplace
      exact ⟨p, new, slot_write_self h.slot, h.claimed _ hx⟩
    · obtain ⟨q, s, hs, hc⟩ := hl.listed c m r hp
      by_cases hmq : (n, p) = (m, q)
      · obtain ⟨rfl, rfl⟩ := Prod.mk.injEq .. ▸ hmq
        obtain rfl := ok_unique h.slot hs
        exact ⟨p, new, slot_write_self h.slot, hl.mem_claims_new h hc hfreed htaken⟩
      · exact ⟨q, s, (slot_write_of_ne hmq).trans hs, hc⟩

end linked

/-- A write that meets a strict demand meets it under any proof of the demand. -/
theorem Rewrite.toTrue (hs : strict) (h : f.Rewrite strict n p g old new freed taken) :
    f.Rewrite True n p g old new freed taken :=
  ⟨h.feature, h.direct, h.slot, h.fits, h.distinct, h.claimed, h.upward, fun _ => h.once hs,
    fun _ => h.free hs, fun _ => h.kept hs, fun _ => h.lost hs, h.dropped⟩

/-- **A rewrite keeps a forest sound.** -/
theorem Sound.write (hf : f.Sound strict) (h : f.Rewrite strict n p g old new freed taken) :
    (f.write n p new freed taken).Sound strict :=
  ⟨hf.toTyped.write h, fun hs => (hf.linked hs).write (h.toTrue hs) hf.toTyped.shaped fun x hx =>
    h.fits.contains_of_claims hf.regular h.feature (h.claimed x hx)⟩

end write

/-! ## Creating nodes -/

section create

variable {strict : Prop} {f' : Forest}

theorem typeOf_create_self (h : f.create t = .ok (n, f')) : f'.typeOf n = .ok t := by
  obtain ⟨type, -, rfl, rfl⟩ := create_eq_ok.mp h
  exact typeOf_eq_ok.mpr ⟨_, List.getElem?_concat_length, rfl⟩

theorem feature_create (h : f.create t = .ok (n, f')) (hm : f.contains m = true)
    (q : PropertyId) : f'.feature m q = f.feature m q := by
  obtain ⟨u, hu⟩ := contains_iff.mp hm
  exact feature_congr (schema_create h) ((typeOf_create_of_ok h hu).trans hu.symm) q

theorem feature_create_self (h : f.create t = .ok (n, f')) (q : PropertyId) :
    f'.feature n q = f.schema.feature t q := by
  unfold feature
  rw [typeOf_create_self h, schema_create h]
  rfl

theorem contains_create (h : f.create t = .ok (n, f')) (hm : f'.contains m = true) :
    f.contains m = true ∨ m = n := by
  obtain ⟨u, hu⟩ := contains_iff.mp hm
  obtain ⟨x, hx, -⟩ := typeOf_eq_ok.mp hu
  rcases nodes_create h hx with hx | ⟨rfl, -⟩
  · exact .inl (contains_iff.mpr ⟨x.type, typeOf_eq_ok.mpr ⟨x, hx, rfl⟩⟩)
  · exact .inr rfl

/-- The slots after a creation: those before, and fresh ones of the new node. -/
theorem slot_create (h : f.create t = .ok (n, f')) (hs : f'.slot m q = .ok s) :
    f.slot m q = .ok s ∨ m = n ∧ ∃ g, f.schema.feature t q = .ok g ∧ s = freshSlot g := by
  obtain ⟨x, hx, hxs⟩ := slot_eq_ok.mp hs
  rcases nodes_create h hx with hx | ⟨rfl, type, ht, rfl⟩
  · exact .inl (slot_eq_ok.mpr ⟨x, hx, hxs⟩)
  · rw [List.getElem?_map, Option.map_eq_some_iff] at hxs
    obtain ⟨g, hg, rfl⟩ := hxs
    exact .inr ⟨rfl, g, Schema.feature_eq_ok.mpr ⟨type, ht, hg⟩, rfl⟩

theorem slot_create_self (h : f.create t = .ok (n, f')) (hg : f.schema.feature t q = .ok g) :
    f'.slot n q = .ok (freshSlot g) := by
  obtain ⟨type, ht, rfl, rfl⟩ := create_eq_ok.mp h
  obtain ⟨type', ht', hgs⟩ := Schema.feature_eq_ok.mp hg
  rw [ht, Option.some.injEq] at ht'
  subst ht'
  refine slot_eq_ok.mpr ⟨_, List.getElem?_concat_length, ?_⟩
  rw [List.getElem?_map, hgs]
  rfl

theorem claims_null : f.claims n p .null = [] := by
  refine List.eq_nil_iff_forall_not_mem.mpr fun x hx => ?_
  exact absurd (mem_nodes_of_mem_claims hx) (by simp [Value.nodes])

theorem claims_freshSlot (hr : f.schema.Regular) (hg : f.feature n p = .ok g) :
    f.claims n p (freshSlot g).value = [] := by
  unfold freshSlot
  split_ifs
  · exact claims_null
  · exact claims_restValue hr hg

theorem Slotted.create (hf : f.Slotted) (h : f.create t = .ok (n, f')) : f'.Slotted := by
  refine ⟨fun m q g hg => ?_, fun m q s hs => ?_, fun m q g s hg ho hs => ?_⟩
  · rcases contains_create h (contains_of_feature hg) with hm | rfl
    · rw [feature_create h hm] at hg
      obtain ⟨s, hs⟩ := hf.slot_of_feature m q g hg
      exact ⟨s, slot_create_of_ok h hs⟩
    · rw [feature_create_self h] at hg
      exact ⟨freshSlot g, slot_create_self h hg⟩
  · rcases slot_create h hs with hs | ⟨rfl, g, hg, -⟩
    · obtain ⟨g, hg⟩ := hf.feature_of_slot m q s hs
      exact ⟨g, (feature_create h (contains_of_slot hs) q).trans hg⟩
    · exact ⟨g, (feature_create_self h q).trans hg⟩
  · rcases slot_create h hs with hs | ⟨rfl, k, hk, rfl⟩
    · rw [feature_create h (contains_of_slot hs)] at hg
      exact hf.member m q g s hg ho hs
    · obtain rfl := ok_unique hk ((feature_create_self h q).symm.trans hg)
      simp [freshSlot, Option.isSome_iff_ne_none.mpr ho]

/-- A fresh slot of its own is unset and at rest. -/
theorem slotFits_freshSlot (ho : g.owner = none) : f.SlotFits n p g (freshSlot g) := by
  have hunset : (freshSlot g).isSet ≠ true := by simp [freshSlot]
  exact ⟨fun _ => by simp [freshSlot, ho], fun h => absurd h hunset, fun h => absurd h hunset⟩

theorem Typed.create (ht : f.Typed) (h : f.create t = .ok (n, f')) : f'.Typed := by
  have htypes : ∀ m u, f.typeOf m = .ok u → f'.typeOf m = .ok u :=
    fun m u => typeOf_create_of_ok h
  have hschema := schema_create h
  have hslotted := ht.shaped.slotted.create h
  refine ⟨by rw [hschema]; exact ht.regular, hslotted.slot_of_feature, hslotted.feature_of_slot,
    fun m q g s hg ho hs => ?_, hslotted.member, fun c m q hp => ?_, ht.acyclic.of_under ?_,
    fun c m q g hp hg ho hm => ?_⟩
  · -- The slots of the new node are fresh, and the others are as they were.
    rcases slot_create h hs with hs | ⟨rfl, k, hk, rfl⟩
    · rw [feature_create h (contains_of_slot hs)] at hg
      exact (ht.fits m q g s hg ho hs).of_types hschema htypes
    · obtain rfl := ok_unique hk ((feature_create_self h q).symm.trans hg)
      exact slotFits_freshSlot ho
  · rw [place?_create h] at hp
    have hown := ht.placed c m q hp
    obtain ⟨g, hg, ho⟩ := ownsAt_iff.mp hown
    exact ownsAt_iff.mpr ⟨g, feature_of_types hschema htypes hg, ho⟩
  · rintro c m ⟨q, hp⟩
    rw [place?_create h] at hp
    exact ⟨q, hp⟩
  · rw [place?_create h] at hp
    obtain ⟨k, hk, -⟩ := ownsAt_iff.mp (ht.placed c m q hp)
    rw [feature_create h (contains_of_feature hk)] at hg
    obtain ⟨s, hs, hv⟩ := ht.held c m q g hp hg ho hm
    exact ⟨s, slot_create_of_ok h hs, hv⟩

theorem Linked.create (ht : f.Typed) (hl : f.Linked) (h : f.create t = .ok (n, f')) :
    f'.Linked := by
  have hclaims : ∀ {m q v}, f.contains m = true → f'.claims m q v = f.claims m q v :=
    fun hm => claims_congr fun q => feature_create h hm q
  have hfresh : ∀ {q g}, f.schema.feature t q = .ok g → f'.claims n q (freshSlot g).value = [] := by
    intro q g hg
    refine claims_freshSlot ?_ ((feature_create_self h q).trans hg)
    rw [schema_create h]
    exact ht.regular
  refine ⟨fun m q s hs => ?_, fun m q s c r hs hc => ?_, fun c m r hp => ?_⟩
  · -- A fresh slot claims nobody.
    rcases slot_create h hs with hs | ⟨rfl, g, hg, rfl⟩
    · rw [hclaims (contains_of_slot hs)]
      exact hl.once m q s hs
    · rw [hfresh hg]
      exact List.nodup_nil
  · rw [place?_create h]
    rcases slot_create h hs with hs | ⟨rfl, g, hg, rfl⟩
    · rw [hclaims (contains_of_slot hs)] at hc
      exact hl.placed m q s c r hs hc
    · rw [hfresh hg] at hc
      exact absurd hc (by simp)
  · rw [place?_create h] at hp
    obtain ⟨q, s, hs, hc⟩ := hl.listed c m r hp
    refine ⟨q, s, slot_create_of_ok h hs, ?_⟩
    rw [hclaims (contains_of_slot hs)]
    exact hc

/-- **A creation keeps a forest sound.** -/
theorem Sound.create (hf : f.Sound strict) (h : f.create t = .ok (n, f')) : f'.Sound strict :=
  ⟨hf.toTyped.create h, fun hs => (hf.linked hs).create hf.toTyped h⟩

/-- The forest without nodes is sound. -/
theorem sound_empty {s : Schema} (hr : s.Regular) : (empty s).Sound strict := by
  have hslot : ∀ {n p a}, (empty s).slot n p ≠ .ok a := by
    intro n p a h
    obtain ⟨x, hx, -⟩ := slot_eq_ok.mp h
    simp [empty] at hx
  have hfeature : ∀ {n p a}, (empty s).feature n p ≠ .ok a := by
    intro n p a h
    obtain ⟨u, hu, -⟩ := feature_eq_ok.mp h
    obtain ⟨x, hx, -⟩ := typeOf_eq_ok.mp hu
    simp [empty] at hx
  have hplace : ∀ {c a}, (empty s).place? c ≠ some a := by
    intro c a h
    obtain ⟨x, hx, -⟩ := place?_eq_some.mp h
    simp [empty] at hx
  have hunder : ∀ c m, ¬ (empty s).Under c m := fun c m ⟨q, h⟩ => hplace h
  refine ⟨⟨hr, fun _ _ _ h => absurd h hfeature, fun _ _ _ h => absurd h hslot,
    fun _ _ _ _ h => absurd h hfeature, fun _ _ _ _ h => absurd h hfeature,
    fun _ _ _ h => absurd h hplace, fun c hc => ?_, fun _ _ _ _ h => absurd h hplace⟩,
    fun _ => ⟨fun _ _ _ h => absurd h hslot, fun _ _ _ _ _ h => absurd h hslot,
      fun _ _ _ h => absurd h hplace⟩⟩
  cases hc with
  | single h => exact hunder _ _ h
  | tail _ h => exact hunder _ _ h

end create

end TrackedGraph.Forest
