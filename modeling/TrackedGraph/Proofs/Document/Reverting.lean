/-
States brought back.

Emptying a property and bringing a recorded state back are assignments of a slot, which
go through unless somebody refuses or a child would come below itself (`clear_ends`,
`restore_ends`). Emptied one after the other and then filled, the properties end up as
recorded, but for children that a later state has taken away; where the children are then
is what `Forest.resettle` says, and it fails exactly if a state cannot be brought back
(`writeBack_ends`). A property that was emptied mentions no node at all, so whatever is set
there next overlooks no child (`Forest.Awaits`).
-/
import TrackedGraph.Proofs.Document.Restoring
import TrackedGraph.Proofs.Document.Unrefused
import TrackedGraph.Proofs.Forest.Resettling
import TrackedGraph.Proofs.Recording.Remembering
import TrackedGraph.Revert

set_option autoImplicit false

namespace TrackedGraph

open Forest (Assigned Astray Hosted SamePlaces)

variable {τ : Type} {d d' : Document τ} {f f' h : Forest} {n m c : NodeId} {p q : PropertyId}
  {v : Value} {g : Feature} {s old : Slot} {x : PriorState} {xs : List PriorState}

/-! ## One assignment -/

/-- What a structural property holds at rest may be set. -/
theorem Forest.fits_restValue (hr : f.schema.Regular) (hg : f.feature n p = .ok g)
    (hs : (g.owns || g.isMixed) = true) : f.Fits n p g g.restValue := by
  obtain ⟨t, -, hgt⟩ := Forest.feature_eq_ok.mp hg
  unfold Property.restValue
  cases hx : g.isMixed with
  | true => exact (Forest.fits_mixed hx).mpr ⟨[], by simp, by simp⟩
  | false =>
    rw [hx, Bool.or_false] at hs
    cases hm : g.many with
    | true => exact (Forest.fits_list hx hm).mpr ⟨[], by simp, by simp⟩
    | false =>
      refine (Forest.fits_single hx hm).mpr (.inl ?_)
      simpa using hr.nullContainment t p g hgt hs

/-- What a structural property holds at rest mentions no node. -/
theorem Forest.nodes_restValue (hr : f.schema.Regular) (hg : f.feature n p = .ok g)
    (hs : (g.owns || g.isMixed) = true) : g.restValue.nodes = [] := by
  obtain ⟨t, -, hgt⟩ := Forest.feature_eq_ok.mp hg
  unfold Property.restValue
  cases hx : g.isMixed with
  | true => rfl
  | false =>
    rw [hx, Bool.or_false] at hs
    cases g.many with
    | true => rfl
    | false =>
      rw [hr.nullContainment t p g hgt hs]
      rfl

/-- What mentions no node claims none. -/
theorem Forest.claims_of_nodes (h : v.nodes = []) : f.claims n p v = [] := by
  refine List.eq_nil_iff_forall_not_mem.mpr fun y hy => ?_
  have hmem := Forest.mem_nodes_of_mem_claims (c := y.1) (q := y.2) hy
  rw [h] at hmem
  exact absurd hmem List.not_mem_nil

theorem Forest.canUnset_congr (h : ∀ q, f'.feature n q = f.feature n q) :
    f'.CanUnset n p ↔ f.CanUnset n p := by
  unfold Forest.CanUnset
  simp only [h]

namespace Edit

/-- A value that is not admitted is not set, and nobody is asked. -/
theorem set_of_error {e : Fault} (h : d.forest.admitValue n p v = .error e) :
    set n p v d = (.error e, d) := by
  unfold set setBy replace
  exact bind_of_error (congrArg (·, d) h)

/-- **Setting an admitted value that nobody refuses** assigns the slot. -/
theorem set_assigns {cs : List NodeId} (hf : d.forest.Sound True)
    (hover : ¬ d.forest.Overlooks n p v) (hcs : d.forest.admitValue n p v = .ok cs)
    (hg : d.forest.feature n p = .ok g) :
    (set n p v).Ends d fun r d' => Chain True d d' ∧ (d'.refusals = d.refusals →
      r = .ok () ∧ d.forest.Assigned n p ⟨v, !g.many || !v.isEmpty⟩ d'.forest) := by
  have hput : ∀ (ws : List Whereabouts) (d₁ : Document τ), d₁.forest.Sound True →
      Chain True d₁ (putBack restoreDepth ws d₁).2 := fun ws d₁ hf₁ => putBack_chain _ ws d₁ hf₁
  refine (setBy_ends hf hput).mono fun r d' hends => ?_
  obtain ⟨hchain, hmoving⟩ := hends fun _ _ => hover
  refine ⟨hchain, fun hquiet => ?_⟩
  obtain ⟨⟨⟩, ws, f₁, rfl, hl, hps, g', old, hg', hold, hw, hf'⟩ :=
    hmoving.exists_done hf ⟨trivial, cs, hcs⟩ hquiet hput
  rw [hl.feature, hg, Except.ok.injEq] at hg'
  subst hg'
  obtain ⟨s, hs⟩ := hf.slot_of_feature n p g hg
  have hsame : f₁.slot n p = .ok s := hl.slot_of_ne hf trivial hs fun w hwm q hq =>
    (hps w hwm).2 s hs (Forest.mem_nodes_of_mem_claims hq)
  obtain rfl := ok_unique hsame hold
  exact ⟨rfl, g, s, ws, f₁, hs, hl, fun w hwm => (hps w hwm).1, hw, hf'⟩

/-- **Unsetting a property**, if nobody refuses, assigns what it holds at rest, and it fails
exactly if the property may not be unset. -/
theorem unset_assigns (hf : d.forest.Sound True) (hg : d.forest.feature n p = .ok g) :
    (unset n p).Ends d fun r d' => Chain True d d' ∧ (d'.refusals = d.refusals →
      d.forest.CanUnset n p ∧ r = .ok () ∧ d.forest.Assigned n p ⟨g.restValue, false⟩ d'.forest ∨
        ¬ d.forest.CanUnset n p ∧ ∃ e, r = .error e) := by
  refine (unset_ends hf).mono fun r d' hends => ?_
  obtain ⟨hchain, -, ⟨⟨⟩, rfl, hu, g', old, hg', ho, hs, hf'⟩ | ⟨he, -, hm⟩⟩ := hends
  · refine ⟨hchain, fun _ => .inl ⟨hu, rfl, ?_⟩⟩
    obtain rfl := ok_unique hg hg'
    have hclaims := Forest.claims_restValue hf.regular hg
    have hlost := Forest.lostChildren_restValue (v := old.value) hf.regular hg
    refine ⟨g, old, [], d.forest, hs, .start, by simp, ?_, ?_⟩
    · refine Forest.rewrite_all hg ho hs
        ⟨fun _ => rfl, fun h => absurd h (by simp), fun h => absurd h (by simp)⟩ ?_ ?_ ?_ <;>
        simp [hclaims]
    · rw [hf', hlost, hclaims]
  · exact ⟨hchain, fun hquiet => .inr ⟨fun hu => absurd (hm hu) (by omega), he⟩⟩

end Edit

/-! ## One state -/

/-- Whether the property of a state owns children. -/
def Forest.structural (f : Forest) (x : PriorState) : Bool :=
  match f.feature x.node x.property with
  | .ok g => g.owns || g.isMixed
  | .error _ => false

/-- A state at rest needs a property that may be unset. -/
def Forest.CanRestore (f : Forest) (x : PriorState) : Prop :=
  x.isSet = false → f.CanUnset x.node x.property

instance (f : Forest) (x : PriorState) : Decidable (f.CanRestore x) :=
  inferInstanceAs (Decidable (x.isSet = false → f.CanUnset x.node x.property))

/-- **The property is ready for the state**: it claims no child, and it mentions none that the
state lists. -/
def Forest.Awaits (f : Forest) (x : PriorState) : Prop :=
  ∃ s, f.slot x.node x.property = .ok s ∧ f.claims x.node x.property s.value = [] ∧
    ∀ c ∈ (f.listed x).map Prod.fst, c ∉ s.value.nodes

theorem Forest.Awaits.of_nodes (hs : f.slot x.node x.property = .ok s) (h : s.value.nodes = []) :
    f.Awaits x := by
  refine ⟨s, hs, Forest.claims_of_nodes h, fun c _ => ?_⟩
  rw [h]
  exact List.not_mem_nil

theorem Forest.Awaits.not_overlooks (h : f.Awaits x) :
    ¬ f.Overlooks x.node x.property x.value := by
  obtain ⟨s, hs, -, hfree⟩ := h
  rintro ⟨s', c, -, hs', hc, hmem, -⟩
  obtain rfl := ok_unique hs hs'
  exact hfree c hc hmem

/-- A property is still ready once another one is assigned. -/
theorem Forest.Awaits.assigned (h : f.Awaits x) (hf : f.Sound True) (ha : f.Assigned n p old f')
    (hne : (n, p) ≠ (x.node, x.property)) : f'.Awaits x := by
  obtain ⟨s, hs, hnone, hfree⟩ := h
  have hnone' : f'.claims x.node x.property s.value = [] := ha.claims.trans hnone
  -- A slot that claims no child has none that could go astray.
  rcases ha.holds hf hne (hf.toTyped.hosted hs) (.inl hs) with hs' | ⟨c, hc, -⟩
  · refine ⟨s, hs', hnone', ?_⟩
    unfold Forest.listed
    rw [ha.claims]
    exact hfree
  · rw [hnone'] at hc
    exact absurd hc List.not_mem_nil

/-- The state can be brought back as the children sit at present. -/
def Forest.MayRestore (f : Forest) (x : PriorState) : Prop :=
  f.CanRestore x ∧ ((f.listed x).any fun c => f.isWithin x.node c.1) = false

/-- The states can be brought back, and then the places are no longer those of `h` but those
of `h'`. -/
def Forest.Refills (f h : Forest) (xs : List PriorState) (h' : Forest) : Prop :=
  (∀ x ∈ xs, f.CanRestore x) ∧ h.refill xs = some h'

/-- **The states can be brought back**, and then the places are those of `h'`. -/
def Forest.Resettles (f : Forest) (xs : List PriorState) (h' : Forest) : Prop :=
  (∀ x ∈ xs, f.CanRestore x) ∧ f.resettle xs = some h'

theorem Forest.canRestore_congr (h : ∀ m q, f'.feature m q = f.feature m q) :
    f'.CanRestore x ↔ f.CanRestore x := by
  unfold Forest.CanRestore
  rw [Forest.canUnset_congr (h _)]

theorem Forest.refills_congr {h' : Forest} (hfeature : ∀ m q, f'.feature m q = f.feature m q) :
    f'.Refills h xs h' ↔ f.Refills h xs h' := by
  unfold Forest.Refills
  simp only [Forest.canRestore_congr hfeature]

theorem Forest.refills_cons {h' : Forest} : f.Refills h (x :: xs) h' ↔
    (f.CanRestore x ∧ ((h.listed x).any fun c => h.isWithin x.node c.1) = false) ∧
      f.Refills (h.take x.node (h.listed x)) xs h' := by
  unfold Forest.Refills
  rw [List.forall_mem_cons, Forest.refill]
  split_ifs with hup
  · simp [hup]
  · rw [Bool.not_eq_true] at hup
    rw [hup]
    tauto

namespace Revert

/-- **Emptying the property of a state.** -/
theorem clear_ends (hf : d.forest.Sound True) (hx : d.forest.Recordable x)
    (hs : d.forest.structural x = true) :
    (clear x).Ends d fun r d' => Chain True d d' ∧ (d'.refusals = d.refusals →
      r = .ok () ∧ ∃ s, s.value.nodes = [] ∧
        d.forest.Assigned x.node x.property s d'.forest) := by
  obtain ⟨g, hg, hown, -, -⟩ := hx
  have hsg : (g.owns || g.isMixed) = true := by
    unfold Forest.structural at hs
    rw [hg] at hs
    exact hs
  have hclaims := Forest.claims_restValue hf.regular hg
  have hadmit : d.forest.admitValue x.node x.property g.restValue = .ok [] :=
    Forest.admitValue_eq_ok.mpr ⟨g, hg, hown, Forest.fits_restValue hf.regular hg hsg,
      by rw [hclaims]; rfl, List.nodup_nil, by simp⟩
  have hover : ¬ d.forest.Overlooks x.node x.property g.restValue := by
    rintro ⟨-, c, -, -, hc, -⟩
    rw [hclaims] at hc
    exact absurd hc List.not_mem_nil
  unfold clear
  rw [Edit.ends_query_of_ok hg]
  exact (Edit.set_assigns hf hover hadmit hg).mono fun r d' h => ⟨h.1, fun hquiet =>
    ⟨(h.2 hquiet).1, _, Forest.nodes_restValue hf.regular hg hsg, (h.2 hquiet).2⟩⟩

/-- **Bringing a state back** where it overlooks no child. -/
theorem restore_ends (hf : d.forest.Sound True) (hx : d.forest.Recordable x)
    (hover : ¬ d.forest.Overlooks x.node x.property x.value) :
    (restore x).Ends d fun r d' => Chain True d d' ∧ (d'.refusals = d.refusals →
      d.forest.MayRestore x ∧ r = .ok () ∧
          d.forest.Assigned x.node x.property x.slot d'.forest ∨
        ¬ d.forest.MayRestore x ∧ ∃ e, r = .error e) := by
  obtain ⟨g, hg, hown, hfits, hd⟩ := hx
  unfold restore Forest.MayRestore Forest.CanRestore
  cases hset : x.isSet with
  | false =>
    -- A property at rest lists no child, so bringing it back is to unset it.
    have hrest : x.value = g.restValue := hfits.rest hset
    have hlisted : d.forest.listed x = [] := by
      unfold Forest.listed
      rw [hrest, Forest.claims_restValue hf.regular hg]
    have hslot : x.slot = ⟨g.restValue, false⟩ := by rw [← hrest, ← hset]; rfl
    rw [hlisted, hslot]
    refine (Edit.unset_assigns hf hg).mono fun r d' h => ⟨h.1, fun hquiet => ?_⟩
    rcases h.2 hquiet with ⟨hu, hr, ha⟩ | ⟨hu, he⟩
    · exact .inl ⟨⟨fun _ => hu, rfl⟩, hr, ha⟩
    · exact .inr ⟨fun hand => hu (hand.1 rfl), he⟩
  | true =>
    rw [if_pos rfl]
    by_cases hup : (d.forest.listed x).any (fun c => d.forest.isWithin x.node c.1) = true
    · -- A child encloses the node, and the value is not admitted.
      have hno : ∀ cs, d.forest.admitValue x.node x.property x.value ≠ .ok cs := by
        intro cs hcs
        obtain ⟨-, -, -, -, rfl, -, hacyclic⟩ := Forest.admitValue_eq_ok.mp hcs
        obtain ⟨c, hc, hin⟩ := List.any_eq_true.mp hup
        rw [hacyclic c.1 (List.mem_map_of_mem hc)] at hin
        exact absurd hin (by simp)
      cases hadmit : d.forest.admitValue x.node x.property x.value with
      | ok cs => exact absurd hadmit (hno cs)
      | error e =>
        refine .of_eq (Edit.set_of_error hadmit) ⟨.refl, fun _ => .inr ⟨fun hand => ?_, e, rfl⟩⟩
        exact absurd (hup.symm.trans hand.2) (by simp)
    · -- The value is admitted, and setting it yields the slot of the state.
      have hadmit : d.forest.admitValue x.node x.property x.value =
          .ok ((d.forest.listed x).map Prod.fst) := by
        refine Forest.admitValue_eq_ok.mpr ⟨g, hg, hown, hfits.fits hset, rfl, hd, fun c hc => ?_⟩
        obtain ⟨y, hy, rfl⟩ := List.mem_map.mp hc
        rw [Bool.eq_false_iff]
        exact fun hin => hup (List.any_eq_true.mpr ⟨y, hy, hin⟩)
      have hslot : x.slot = ⟨x.value, !g.many || !x.value.isEmpty⟩ := by
        unfold PriorState.slot
        rw [hset]
        congr
        cases hm : g.many with
        | false => rfl
        | true =>
          have hfull : x.value.isEmpty = false := hfits.full hset hm
          rw [hfull]
          rfl
      refine (Edit.set_assigns hf hover hadmit hg).mono fun r d' h => ⟨h.1, fun hquiet => ?_⟩
      rw [hslot]
      exact .inl ⟨⟨fun h => absurd h (by simp), Bool.eq_false_iff.mpr hup⟩, h.2 hquiet⟩

/-! ## Emptying -/

/-- What emptying the properties of states leaves: children that sit nowhere, properties ready
for the states, and other slots as they were. -/
structure Cleared (f : Forest) (xs : List PriorState) (f' : Forest) : Prop where
  places : f'.SamePlaces (f.emptied xs)
  feature : ∀ m q, f'.feature m q = f.feature m q
  ready : ∀ x ∈ xs, f'.Awaits x
  kept : ∀ m q s, (∀ x ∈ xs, ¬ (x.node = m ∧ x.property = q)) → f.slot m q = .ok s →
    f'.slot m q = .ok s

theorem Cleared.nil : Cleared f [] f :=
  ⟨⟨rfl, fun _ => rfl, fun _ => rfl⟩, fun _ _ => rfl, by simp, fun _ _ _ _ h => h⟩

theorem Cleared.cons {f₁ : Forest}
    (ha : f.Assigned x.node x.property s f₁) (hnodes : s.value.nodes = [])
    (hd : ∀ y ∈ xs, ¬ x.SameSlot y) (h : Cleared f₁ xs f') : Cleared f (x :: xs) f' := by
  have hs : f.claims x.node x.property s.value = [] := Forest.claims_of_nodes hnodes
  obtain ⟨old, hold⟩ := ha.exists_slot
  -- Clearing a slot frees what it holds, and the other slots hold what they held.
  have hheld : ∀ y ∈ xs, f₁.held y = f.held y := by
    intro y hy
    unfold Forest.held
    rw [ha.slot_of_empty hs fun heq => hd y hy (Prod.mk.inj heq)]
    cases f.slot y.node y.property with
    | ok s => exact ha.claims
    | error e => rfl
  refine ⟨⟨?_, fun m => ?_, fun m => ?_⟩, fun m q => (h.feature m q).trans ha.feature,
    fun y hy => ?_, fun m q u hne hu => ?_⟩
  · rw [← h.places.schema]
    unfold Forest.emptied
    rw [Forest.schema_free, Forest.schema_free, ha.schema]
  · rw [← h.places.typeOf]
    unfold Forest.emptied
    rw [Forest.typeOf_free, Forest.typeOf_free, ha.typeOf]
  · rw [← h.places.place?]
    unfold Forest.emptied
    rw [Forest.place?_free, Forest.place?_free, List.flatMap_cons,
      ha.place?_of_not hold (by simp [hs]), ← Forest.held_of_slot hold]
    have hflat : (xs.flatMap fun y => (f₁.held y).map Prod.fst) =
        xs.flatMap fun y => (f.held y).map Prod.fst :=
      List.flatMap_congr fun y hy => by rw [hheld y hy]
    rw [hflat]
    by_cases hm : m ∈ (f.held x).map Prod.fst
    · rw [if_pos (List.mem_append_left _ hm), if_pos hm, ite_self]
    · rw [if_neg hm]
      refine if_congr ?_ rfl rfl
      rw [List.mem_append]
      exact or_iff_right hm
  · rcases List.mem_cons.mp hy with rfl | hy
    · exact .of_nodes (h.kept _ _ s (fun z hz hsame => hd z hz ⟨hsame.1.symm, hsame.2.symm⟩)
        ha.slot_self) hnodes
    · exact h.ready y hy
  · obtain ⟨hx, hxs⟩ := List.forall_mem_cons.mp hne
    refine h.kept m q u hxs ?_
    rw [ha.slot_of_empty hs fun heq => hx (Prod.mk.inj heq)]
    exact hu

/-- **Emptying the properties of several states.** -/
theorem forM_clear_ends (hf : d.forest.Sound True)
    (hxs : ∀ x ∈ xs, d.forest.Recordable x ∧ d.forest.structural x = true)
    (hd : xs.Pairwise fun x y => ¬ x.SameSlot y) :
    (xs.forM clear).Ends d fun r d' => Chain True d d' ∧ (d'.refusals = d.refusals →
      r = .ok () ∧ Cleared d.forest xs d'.forest) := by
  induction xs generalizing d with
  | nil => exact ⟨.refl, fun _ => ⟨rfl, .nil⟩⟩
  | cons x xs ih =>
    obtain ⟨⟨hx, hs⟩, hxs⟩ := List.forall_mem_cons.mp hxs
    obtain ⟨hdx, hd⟩ := List.pairwise_cons.mp hd
    refine Edit.Ends.bind (clear_ends hf hx hs) ?_ ?_
    · rintro ⟨⟩ d₁ ⟨hc₁, h₁⟩
      -- Clearing one property leaves the features, and with them what is structural.
      have hf₁ := hc₁.sound hf
      have hfeature : ∀ m q g, d.forest.feature m q = .ok g → d₁.forest.feature m q = .ok g :=
        fun m q g => Forest.feature_of_types hc₁.schema fun _ _ => hc₁.typeOf
      refine (ih hf₁ (fun y hy => ⟨(hxs y hy).1.of_types hc₁.schema fun _ _ => hc₁.typeOf, ?_⟩)
        hd).mono fun r d' ⟨hc₂, h₂⟩ => ⟨hc₁.trans hc₂, fun hquiet => ?_⟩
      · obtain ⟨⟨g, hg, -⟩, hstructural⟩ := hxs y hy
        unfold Forest.structural at hstructural ⊢
        rw [hg] at hstructural
        rw [hfeature _ _ _ hg]
        exact hstructural
      · have hle₁ := hc₁.refusals_le
        have hle₂ := hc₂.refusals_le
        obtain ⟨-, s, hs, ha⟩ := h₁ (by omega)
        obtain ⟨hr, hcleared⟩ := h₂ (by omega)
        exact ⟨hr, hcleared.cons ha hs hdx⟩
    · rintro e d₁ ⟨hc₁, h₁⟩
      exact ⟨hc₁, fun hquiet => absurd (h₁ hquiet).1 (by simp)⟩

/-! ## Filling -/

/-- What bringing states back leaves of the slots: the properties of the states are as the
states say and the others as they were, but for children that are astray. -/
def Refilled (f : Forest) (xs : List PriorState) (f' : Forest) : Prop :=
  ∀ m q s, f.Hosted m q s →
    (∃ x ∈ xs, x.node = m ∧ x.property = q ∧ x.slot = s) ∨
      (∀ x ∈ xs, ¬ (x.node = m ∧ x.property = q)) ∧ f.Holds m q s → f'.Holds m q s

theorem Refilled.cons {f₁ : Forest} (hf : f.Sound True)
    (ha : f.Assigned x.node x.property x.slot f₁) (hd : ∀ y ∈ xs, ¬ x.SameSlot y)
    (h : Refilled f₁ xs f') : Refilled f (x :: xs) f' := by
  intro m q s hs hcase
  refine h m q s (hs.congr fun _ => ha.feature) ?_
  rcases hcase with ⟨y, hy, rfl, rfl, rfl⟩ | ⟨hnone, hkept⟩
  · rcases List.mem_cons.mp hy with rfl | hy
    · exact .inr ⟨fun z hz hsame => hd z hz ⟨hsame.1.symm, hsame.2.symm⟩, .inl ha.slot_self⟩
    · exact .inl ⟨y, hy, rfl, rfl, rfl⟩
  · obtain ⟨hx, hxs⟩ := List.forall_mem_cons.mp hnone
    exact .inr ⟨hxs, ha.holds hf (fun heq => hx (Prod.mk.inj heq)) hs hkept⟩

/-- **Bringing several states back** into properties that are ready for them. -/
theorem forM_restore_ends (hf : d.forest.Sound True)
    (hxs : ∀ x ∈ xs, d.forest.Recordable x ∧ d.forest.Awaits x)
    (hd : xs.Pairwise fun x y => ¬ x.SameSlot y) :
    (xs.forM restore).Ends d fun r d' => Chain True d d' ∧ (d'.refusals = d.refusals →
      ∀ h, d.forest.SamePlaces h →
      (∃ h', d.forest.Refills h xs h' ∧ r = .ok () ∧ d'.forest.SamePlaces h' ∧
        Refilled d.forest xs d'.forest) ∨
      (∀ h', ¬ d.forest.Refills h xs h') ∧ ∃ e, r = .error e) := by
  induction xs generalizing d with
  | nil =>
    refine ⟨.refl, fun _ h hh => .inl ⟨h, ⟨by simp, rfl⟩, rfl, hh, fun m q s _ hcase => ?_⟩⟩
    rcases hcase with ⟨x, hx, -⟩ | ⟨-, hkept⟩
    · exact absurd hx (by simp)
    · exact hkept
  | cons x xs ih =>
    obtain ⟨⟨hx, hready⟩, hxs⟩ := List.forall_mem_cons.mp hxs
    obtain ⟨hdx, hd⟩ := List.pairwise_cons.mp hd
    -- Whether a child encloses its node depends on the places alone.
    have hup : ∀ h, d.forest.SamePlaces h → ((h.listed x).any fun c => h.isWithin x.node c.1) =
        (d.forest.listed x).any fun c => d.forest.isWithin x.node c.1 := by
      intro h hh
      rw [hh.listed]
      exact congrArg _ (funext fun c => hh.isWithin hf.acyclic)
    refine Edit.Ends.bind (unrefused_restore.ends (restore_ends hf hx hready.not_overlooks)) ?_ ?_
    · -- It is back, and its children sit where `h` has them after the first step.
      rintro ⟨⟩ d₁ ⟨hquiet₁, hc₁, h₁⟩
      obtain ⟨hmay, -, ha⟩ | ⟨-, e, he⟩ := h₁ (hquiet₁ () rfl)
      swap
      · exact absurd he (by simp)
      have hxs₁ : ∀ y ∈ xs, d₁.forest.Recordable y ∧ d₁.forest.Awaits y := fun y hy =>
        ⟨(hxs y hy).1.of_types hc₁.schema fun _ _ => hc₁.typeOf,
          (hxs y hy).2.assigned hf ha fun heq => hdx y hy (Prod.mk.inj heq)⟩
      refine (ih (hc₁.sound hf) hxs₁ hd).mono
        fun r d' ⟨hc₂, h₂⟩ => ⟨hc₁.trans hc₂, fun hquiet h hh => ?_⟩
      obtain ⟨s, hs, hnone, -⟩ := hready
      have hplaces : d₁.forest.SamePlaces (h.take x.node (h.listed x)) := by
        rw [hh.listed]
        exact hh.assigned hf ha hs hnone
      have hrefills : ∀ h', d.forest.Refills h (x :: xs) h' ↔
          d₁.forest.Refills (h.take x.node (h.listed x)) xs h' := by
        intro h'
        rw [Forest.refills_cons, hup h hh, and_iff_right (by exact hmay),
          Forest.refills_congr fun _ _ => ha.feature]
      simp only [hrefills]
      rcases h₂ (hquiet.trans (hquiet₁ () rfl).symm) _ hplaces with
        ⟨h', hh', hr, hsame, hrefilled⟩ | hfails
      · exact .inl ⟨h', hh', hr, hsame, hrefilled.cons hf ha hdx⟩
      · exact .inr hfails
    · -- It does not come back, and no refilling gets past it.
      rintro e d₁ ⟨-, hc₁, h₁⟩
      refine ⟨hc₁, fun hquiet h hh => .inr ⟨fun h' hrefills => ?_, e, rfl⟩⟩
      rw [Forest.refills_cons, hup h hh] at hrefills
      rcases h₁ hquiet with ⟨-, hr, -⟩ | ⟨hnot, -⟩
      · exact absurd hr (by simp)
      · exact hnot hrefills.1

/-! ## The whole -/

/-- What bringing states back comes to for the slots. -/
def Reverted (f : Forest) (xs : List PriorState) (f' : Forest) : Prop :=
  ∀ m q s, (∃ x ∈ xs, x.node = m ∧ x.property = q ∧ x.slot = s) ∨
    (∀ x ∈ xs, ¬ (x.node = m ∧ x.property = q)) ∧ f.slot m q = .ok s → f'.Holds m q s

/-- A property without children claims none. -/
theorem claims_of_not_structural (hx : f.Recordable x) (hs : f.structural x = false) :
    f.claims x.node x.property v = [] := by
  obtain ⟨g, hg, -⟩ := hx
  unfold Forest.structural at hs
  rw [hg] at hs
  obtain ⟨hown, hm⟩ : g.owns = false ∧ g.isMixed = false := by simpa using hs
  exact Forest.claims_of_plain hg hown hm

/-- Plain states have no part in resettling. -/
theorem resettle_structural (hxs : ∀ x ∈ xs, f.Recordable x) :
    f.resettle (xs.filter f.structural) = f.resettle xs := by
  have hplain : ∀ x ∈ xs, f.structural x = false → ∀ v, f.claims x.node x.property v = [] :=
    fun x hx hs v => claims_of_not_structural (hxs x hx) hs
  have hheld : ∀ x ∈ xs, f.structural x = false → f.held x = [] := by
    intro x hx hs
    unfold Forest.held
    cases f.slot x.node x.property with
    | ok s => exact hplain x hx hs _
    | error e => rfl
  have hlisted : ∀ x ∈ xs, f.structural x = false → (f.emptied xs).listed x = [] := by
    intro x hx hs
    refine (Forest.claims_congr fun q => ?_).trans (hplain x hx hs x.value)
    exact Forest.feature_congr (Forest.schema_free _) (Forest.typeOf_free _) q
  unfold Forest.resettle
  rw [Forest.emptied_filter hheld, Forest.refill_filter hlisted]

/-- The three passes together. -/
theorem Reverted.of_passes {f₁ f₂ : Forest} (hf : f.Sound True)
    (hxs : ∀ x ∈ xs, f.Recordable x) (h₁ : Cleared f (xs.filter f.structural) f₁)
    (h₂ : Refilled f₁ (xs.filter f.structural) f₂)
    (h₃ : Refilled f₂ (xs.filter (!f.structural ·)) f')
    (hfeature : ∀ m q, f₂.feature m q = f.feature m q) : Reverted f xs f' := by
  intro m q s hcase
  have hhosted : f.Hosted m q s := by
    rcases hcase with ⟨x, hx, rfl, rfl, rfl⟩ | ⟨-, hs⟩
    · obtain ⟨g, hg, ho, hfits, -⟩ := hxs x hx
      exact hfits.hosted hf.regular hg ho
    · exact hf.toTyped.hosted hs
  have hhosted₁ : f₁.Hosted m q s := hhosted.congr fun q => h₁.feature m q
  have hhosted₂ : f₂.Hosted m q s := hhosted.congr fun q => hfeature m q
  -- A property is structural or not, whatever its state.
  have hsame : ∀ x y : PriorState, x.node = y.node → x.property = y.property →
      f.structural x = f.structural y := by
    intro x y hn hp
    unfold Forest.structural
    rw [hn, hp]
  rcases hcase with ⟨x, hx, hxn, hxp, hxs'⟩ | ⟨hnone, hs⟩
  · cases hstructural : f.structural x with
    | true =>
      refine h₃ m q s hhosted₂ (.inr ⟨fun y hy hyx => ?_, h₂ m q s hhosted₁ (.inl
        ⟨x, List.mem_filter.mpr ⟨hx, hstructural⟩, hxn, hxp, hxs'⟩)⟩)
      have hy := (List.mem_filter.mp hy).2
      rw [hsame y x (hyx.1.trans hxn.symm) (hyx.2.trans hxp.symm), hstructural] at hy
      exact absurd hy (by simp)
    | false =>
      exact h₃ m q s hhosted₂ (.inl
        ⟨x, List.mem_filter.mpr ⟨hx, by simp [hstructural]⟩, hxn, hxp, hxs'⟩)
  · have hnone' : ∀ b : PriorState → Bool, ∀ x ∈ xs.filter b,
        ¬ (x.node = m ∧ x.property = q) := fun b x hx => hnone x (List.mem_filter.mp hx).1
    refine h₃ m q s hhosted₂ (.inr ⟨hnone' _, h₂ m q s hhosted₁ (.inr ⟨hnone' _, .inl ?_⟩)⟩)
    exact h₁.kept m q s (hnone' _) hs

/-- A property without children is ready for its state. -/
theorem awaits_of_not_structural (hf : f.Sound True) (hx : f.Recordable x)
    (hs : f.structural x = false) : f.Awaits x := by
  obtain ⟨s, hslot⟩ := hx.exists_slot hf.toTyped
  have hlisted : f.listed x = [] := claims_of_not_structural hx hs
  refine ⟨s, hslot, claims_of_not_structural hx hs, fun c hc => ?_⟩
  rw [hlisted] at hc
  exact absurd hc List.not_mem_nil

/-- **Bringing back states of properties without children** moves no child. -/
theorem forM_restore_plain_ends (hf : d.forest.Sound True)
    (hxs : ∀ x ∈ xs, d.forest.Recordable x ∧ d.forest.structural x = false)
    (hd : xs.Pairwise fun x y => ¬ x.SameSlot y) :
    (xs.forM restore).Ends d fun r d' => Chain True d d' ∧ (d'.refusals = d.refusals →
      ∀ h, d.forest.SamePlaces h →
      ((∀ x ∈ xs, d.forest.CanRestore x) ∧ r = .ok () ∧ d'.forest.SamePlaces h ∧
        Refilled d.forest xs d'.forest) ∨
      ¬ (∀ x ∈ xs, d.forest.CanRestore x) ∧ ∃ e, r = .error e) := by
  refine (forM_restore_ends hf (fun x hx => ⟨(hxs x hx).1,
    awaits_of_not_structural hf (hxs x hx).1 (hxs x hx).2⟩) hd).mono
    fun r d' ⟨hc, hends⟩ => ⟨hc, fun hquiet h hh => ?_⟩
  have hself : h.refill xs = some h := Forest.refill_eq_self fun x hx =>
    hh.listed.trans (claims_of_not_structural (hxs x hx).1 (hxs x hx).2)
  rcases hends hquiet h hh with ⟨h', ⟨hmay, hh'⟩, hr, hsame, hrefilled⟩ | ⟨hnone, he⟩
  · obtain rfl : h = h' := Option.some.inj (hself.symm.trans hh')
    exact .inl ⟨hmay, hr, hsame, hrefilled⟩
  · exact .inr ⟨fun hmay => hnone h ⟨hmay, hself⟩, he⟩

/-- **Bringing states back.** Unless somebody refuses, it fails exactly if the places cannot
be resettled, and else the children are where they are resettled to. -/
theorem writeBack_ends (hf : d.forest.Sound True) (hxs : ∀ x ∈ xs, d.forest.Recordable x)
    (hd : xs.Pairwise fun x y => ¬ x.SameSlot y) :
    (writeBack (xs.filter d.forest.structural) (xs.filter (!d.forest.structural ·))).Ends d
      fun r d' => Chain True d d' ∧ (d'.refusals = d.refusals →
        (∃ h', d.forest.Resettles xs h' ∧ r = .ok () ∧ d'.forest.SamePlaces h' ∧
          Reverted d.forest xs d'.forest) ∨
        (∀ h', ¬ d.forest.Resettles xs h') ∧ ∃ e, r = .error e) := by
  have hmem : ∀ b : PriorState → Bool, ∀ x ∈ xs.filter b, x ∈ xs :=
    fun b x hx => (List.mem_filter.mp hx).1
  have hresettle := resettle_structural hxs
  unfold writeBack
  refine Edit.Ends.bind ((Edit.Unrefused.forM (fun _ => unrefused_clear) _).ends
    (forM_clear_ends hf (fun x hx => ?_) (hd.filter _))) ?_ ?_
  · obtain ⟨hx, hs⟩ := List.mem_filter.mp hx
    exact ⟨hxs x hx, hs⟩
  · -- The structural ones are cleared, so that each is ready for its state.
    rintro ⟨⟩ d₁ ⟨hquiet₁, hc₁, h₁⟩
    have hcleared := (h₁ (hquiet₁ () rfl)).2
    have hxs₁ : ∀ x ∈ xs, d₁.forest.Recordable x :=
      fun x hx => (hxs x hx).of_types hc₁.schema fun _ _ => hc₁.typeOf
    refine Edit.Ends.bind ((Edit.Unrefused.forM (fun _ => unrefused_restore) _).ends
      (forM_restore_ends (hc₁.sound hf) (fun x hx => ⟨hxs₁ x (hmem _ x hx), hcleared.ready x hx⟩)
        (hd.filter _))) ?_ ?_
    · -- They are back, which settles the places. The plain ones move nobody.
      rintro ⟨⟩ d₂ ⟨hquiet₂, hc₂, h₂⟩
      rcases h₂ (hquiet₂ () rfl) _ hcleared.places with
        ⟨h', ⟨hmay, hh'⟩, -, hsame, hrefilled⟩ | ⟨-, e, he⟩
      swap
      · exact absurd he (by simp)
      have hf₂ := hc₂.sound (hc₁.sound hf)
      have hfeature : ∀ m q, d₂.forest.feature m q = d.forest.feature m q :=
        fun m q => hsame.feature.symm.trans (Forest.resettle_feature hh')
      have hplain : ∀ x ∈ xs.filter (!d.forest.structural ·),
          d₂.forest.Recordable x ∧ d₂.forest.structural x = false := by
        intro x hx
        obtain ⟨hx, hs⟩ := List.mem_filter.mp hx
        refine ⟨(hxs₁ x hx).of_types hc₂.schema fun _ _ => hc₂.typeOf, ?_⟩
        unfold Forest.structural at hs ⊢
        rw [hfeature]
        simpa using hs
      refine (forM_restore_plain_ends hf₂ hplain (hd.filter _)).mono
        fun r d' ⟨hc₃, h₃⟩ => ⟨hc₁.trans (hc₂.trans hc₃), fun hquiet => ?_⟩
      have hh : d.forest.resettle xs = some h' := hresettle.symm.trans hh'
      have hquiet₃ : d'.refusals = d₂.refusals :=
        hquiet.trans ((hquiet₂ () rfl).trans (hquiet₁ () rfl)).symm
      rcases h₃ hquiet₃ h' hsame with ⟨hmay', hr, hsame', hrefilled'⟩ | ⟨hnot, he⟩
      · refine .inl ⟨h', ⟨fun x hx => ?_, hh⟩, hr, hsame', ?_⟩
        · cases hs : d.forest.structural x with
          | true =>
            exact (Forest.canRestore_congr hcleared.feature).mp
              (hmay x (List.mem_filter.mpr ⟨hx, hs⟩))
          | false =>
            exact (Forest.canRestore_congr hfeature).mp
              (hmay' x (List.mem_filter.mpr ⟨hx, by simp [hs]⟩))
        · exact Reverted.of_passes hf hxs hcleared hrefilled hrefilled' hfeature
      · refine .inr ⟨fun h'' hh'' => hnot fun x hx => ?_, he⟩
        exact (Forest.canRestore_congr hfeature).mpr (hh''.1 x (hmem _ x hx))
    · -- One of them does not come back, and then the places cannot be resettled.
      rintro e d₂ ⟨-, hc₂, h₂⟩
      refine ⟨hc₁.trans hc₂, fun hquiet => ?_⟩
      rcases h₂ (hquiet.trans (hquiet₁ () rfl).symm) _ hcleared.places with
        ⟨_, -, hr, -⟩ | ⟨hnone, he⟩
      · exact absurd hr (by simp)
      · refine .inr ⟨fun h' hh' => hnone h' ⟨fun x hx => ?_, hresettle.trans hh'.2⟩, he⟩
        exact (Forest.canRestore_congr hcleared.feature).mpr (hh'.1 x (hmem _ x hx))
  · -- Clearing fails only if somebody refuses.
    rintro e d₁ ⟨-, hc₁, h₁⟩
    exact ⟨hc₁, fun hquiet => absurd (h₁ hquiet).1 (by simp)⟩

end Revert

end TrackedGraph
