/-
A slot given new contents, with the children that come in released elsewhere.

Where children sit after such an assignment depends on the places before it and on what
the new contents claim, and on nothing else (`Assigned.place?_of_claimed`,
`Assigned.place?_of_not`). What the other slots hold does not follow from the places: one
that held a child which has moved away has lost it. So of them it is said that they are as
they were or that a child of theirs has gone `Astray`, which is the same once it is known
where the children are (`Assigned.holds`).
-/
import TrackedGraph.Proofs.Forest.Whereabouts

set_option autoImplicit false

namespace TrackedGraph.Forest

variable {f f' : Forest} {n m c : NodeId} {p q r : PropertyId} {g : Feature} {s new old : Slot}

/-- What a slot holds is hosted by the slot: children that it claims sit in it. -/
def Hosted (f : Forest) (n : NodeId) (p : PropertyId) (s : Slot) : Prop :=
  ∀ x ∈ f.claims n p s.value, ∃ k, f.feature n x.2 = .ok k ∧ p = k.owner.getD x.2

theorem Typed.hosted (ht : f.Typed) (hs : f.slot n p = .ok s) : f.Hosted n p s := by
  rintro ⟨c, q⟩ hx
  obtain ⟨k, hk, -, hp⟩ := ht.shaped.host hs hx
  exact ⟨k, hk, hp⟩

theorem SlotFits.hosted (hr : f.schema.Regular) (hg : f.feature n p = .ok g)
    (ho : g.owner = none) (hs : f.SlotFits n p g s) : f.Hosted n p s := by
  rintro ⟨c, q⟩ hx
  have hset := hs.isSet_of_claims hr hg hx
  obtain ⟨g', hg', ⟨-, rfl, -⟩ | ⟨hm, -, e, he, rfl, -⟩⟩ := mem_claims.mp hx
  · exact ⟨g, hg, by rw [ho]; rfl⟩
  · obtain rfl := ok_unique hg hg'
    obtain ⟨entries, hv, hall⟩ := (fits_mixed hm).mp (hs.fits hset)
    rw [hv] at he
    obtain ⟨⟨k, hk, hown⟩, -⟩ := hall e he
    exact ⟨k, hk, by rw [hown]; rfl⟩

theorem Hosted.congr (hs : f.Hosted n p s) (hfeature : ∀ q, f'.feature n q = f.feature n q) :
    f'.Hosted n p s := by
  intro x hx
  rw [claims_congr hfeature] at hx
  rw [hfeature]
  exact hs x hx

/-- A property is hosted by one slot. -/
theorem Hosted.unique {x y : NodeId × PropertyId} {s' : Slot} (hs : f.Hosted n p s)
    (hs' : f.Hosted n q s') (hx : x ∈ f.claims n p s.value) (hy : y ∈ f.claims n q s'.value)
    (heq : x.2 = y.2) : p = q := by
  obtain ⟨k, hk, rfl⟩ := hs x hx
  obtain ⟨k', hk', rfl⟩ := hs' y hy
  rw [heq, hk', Except.ok.injEq] at hk
  rw [heq, hk]

/-- A child that the contents claim sits elsewhere, or nowhere. -/
def Astray (f : Forest) (n : NodeId) (p : PropertyId) (s : Slot) : Prop :=
  ∃ x ∈ f.claims n p s.value, f.place? x.1 ≠ some ⟨n, x.2⟩

/-- The slot is as given, or else a child of its is astray. -/
def Holds (f : Forest) (n : NodeId) (p : PropertyId) (s : Slot) : Prop :=
  f.slot n p = .ok s ∨ f.Astray n p s

/-! ## Assigning -/

/-- **The forest `f'` is `f` with new contents in a slot.** Children that these claim were
released from where they sat before. -/
def Assigned (f : Forest) (n : NodeId) (p : PropertyId) (new : Slot) (f' : Forest) : Prop :=
  ∃ g old ws f₁, f.slot n p = .ok old ∧ Lifts True f ws f₁ ∧
    (∀ w ∈ ws, w.child ∈ (f.claims n p new.value).map Prod.fst) ∧
    f₁.Rewrite True n p g old new (f₁.lostChildren n p old.value new.value)
      (f₁.claims n p new.value) ∧
    f' = f₁.write n p new (f₁.lostChildren n p old.value new.value) (f₁.claims n p new.value)

section assigned

variable (h : f.Assigned n p new f')

include h

theorem Assigned.schema : f'.schema = f.schema := by
  obtain ⟨g, old, ws, f₁, -, hl, -, -, rfl⟩ := h
  exact schema_write.trans hl.schema

theorem Assigned.typeOf : f'.typeOf m = f.typeOf m := by
  obtain ⟨g, old, ws, f₁, -, hl, -, -, rfl⟩ := h
  exact typeOf_write.trans hl.typeOf

theorem Assigned.feature : f'.feature m q = f.feature m q :=
  feature_congr h.schema h.typeOf q

theorem Assigned.claims {v : Value} : f'.claims m q v = f.claims m q v :=
  claims_congr fun _ => h.feature

theorem Assigned.sound (hf : f.Sound True) : f'.Sound True := by
  obtain ⟨g, old, ws, f₁, -, hl, -, hw, rfl⟩ := h
  exact (hl.sound hf).write hw

theorem Assigned.slot_self : f'.slot n p = .ok new := by
  obtain ⟨g, old, ws, f₁, -, hl, -, hw, rfl⟩ := h
  exact slot_write_self hw.slot

theorem Assigned.exists_slot : ∃ old, f.slot n p = .ok old := by
  obtain ⟨_, old, _, _, hold, -⟩ := h
  exact ⟨old, hold⟩

/-- Contents without children take nothing from any other slot. -/
theorem Assigned.slot_of_empty (hnew : f.claims n p new.value = []) (hne : (n, p) ≠ (m, q)) :
    f'.slot m q = f.slot m q := by
  obtain ⟨g, old, ws, f₁, -, hl, hws, -, rfl⟩ := h
  obtain rfl : ws = [] := by
    refine List.eq_nil_iff_forall_not_mem.mpr fun w hw => ?_
    have := hws w hw
    rw [hnew] at this
    exact absurd this (by simp)
  obtain rfl := hl.of_nil
  exact slot_write_of_ne hne

theorem Assigned.place?_of_claimed (hf : f.Sound True) (hc : (c, q) ∈ f.claims n p new.value) :
    f'.place? c = some ⟨n, q⟩ := by
  have hf' := h.sound hf
  refine (hf'.linked trivial).placed n p new c q h.slot_self ?_
  rw [h.claims]
  exact hc

/-- What the contents do not claim stays, unless they claimed it before. -/
theorem Assigned.place?_of_not (hs : f.slot n p = .ok old)
    (hc : c ∉ (f.claims n p new.value).map Prod.fst) :
    f'.place? c = if c ∈ (f.claims n p old.value).map Prod.fst then none else f.place? c := by
  obtain ⟨g, old', ws, f₁, hs', hl, hws, hw, rfl⟩ := h
  obtain rfl := ok_unique hs hs'
  have hclaims : ∀ v, f₁.claims n p v = f.claims n p v := fun v => claims_congr fun _ => hl.feature
  have hstays : f₁.place? c = f.place? c := by
    rw [hl.place?, if_neg fun hin => ?_]
    obtain ⟨w, hw, rfl⟩ := List.mem_map.mp hin
    exact hc (hws w hw)
  rw [place?_write_of_not_taken (by rw [hclaims]; exact hc), hstays]
  refine if_congr ?_ rfl rfl
  rw [mem_lostChildren, hclaims, hclaims]
  exact and_iff_left hc

/-- **Other slots** are as they were, or a child of theirs is astray. -/
theorem Assigned.holds (hf : f.Sound True) (hne : (n, p) ≠ (m, q)) (hs : f.Hosted m q s)
    (hkept : f.Holds m q s) : f'.Holds m q s := by
  have hf' := h.sound hf
  have hnew : f.Hosted n p new :=
    (hf'.toTyped.hosted h.slot_self).congr fun _ => h.feature.symm
  -- The new contents and the other slot host different properties.
  have hother : ∀ x ∈ f.claims m q s.value, ∀ r, (x.1, r) ∈ f.claims n p new.value →
      f'.place? x.1 ≠ some ⟨m, x.2⟩ := by
    intro x hx r hr heq
    rw [h.place?_of_claimed hf hr, Option.some.injEq, Place.mk.injEq] at heq
    obtain ⟨rfl, rfl⟩ := heq
    exact hne (by rw [hnew.unique hs hr hx rfl])
  by_cases hin : ∃ x ∈ f.claims m q s.value, x.1 ∈ (f.claims n p new.value).map Prod.fst
  · obtain ⟨x, hx, hxn⟩ := hin
    obtain ⟨⟨_, r⟩, hr, rfl⟩ := List.mem_map.mp hxn
    exact .inr ⟨x, by rw [h.claims]; exact hx, hother x hx r hr⟩
  · simp only [not_exists, not_and] at hin
    rcases hkept with hslot | ⟨x, hx, hplace⟩
    · obtain ⟨g, old, ws, f₁, -, hl, hws, hw, rfl⟩ := h
      refine .inl ((slot_write_of_ne hne).trans (hl.slot_of_ne hf trivial hslot ?_))
      exact fun w hw r hr => hin _ hr (hws w hw)
    · obtain ⟨old, hold⟩ := h.exists_slot
      refine .inr ⟨x, by rw [h.claims]; exact hx, ?_⟩
      rw [h.place?_of_not hold (hin x hx)]
      split_ifs
      · simp
      · exact hplace

end assigned

end TrackedGraph.Forest
