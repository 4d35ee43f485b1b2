/-
Edits that take no child in.

Each is announced once and written once, so each does all of what it says or leaves the
forest as it is (`AllOrNothing`). Once the audience has accepted, nothing can fail any
more, because a sound forest has every slot that is written and every node whose place
is; the one exception is an `unset` whose default is mixed content of properties that do
not exist (`CanUnset`).
-/
import TrackedGraph.Proofs.Document.Step
import TrackedGraph.Proofs.Forest.Rewrites

set_option autoImplicit false

namespace TrackedGraph

variable {τ α : Type} {strict : Prop} {d : Document τ}

/-- How an edit ends that does all or nothing: with what is `done`, or with the forest as
it was. Nothing is done without a refusal only if the edit `may` not be made. -/
def AllOrNothing (strict : Prop) (d : Document τ) (may : Prop) (done : α → Forest → Prop)
    (r : Except Fault α) (d' : Document τ) : Prop :=
  Chain strict d d' ∧ d'.repairRefusals = d.repairRefusals ∧
    ((∃ a, r = .ok a ∧ done a d'.forest) ∨
      (∃ e, r = .error e) ∧ d'.forest = d.forest ∧ (may → d.refusals < d'.refusals))

theorem AllOrNothing.nothing {may : Prop} {done : α → Forest → Prop} {e : Fault} (h : ¬ may) :
    AllOrNothing strict d may done (.error e) d :=
  ⟨.refl, rfl, .inr ⟨⟨e, rfl⟩, rfl, fun hm => absurd hm h⟩⟩

theorem AllOrNothing.of_ok {may : Prop} {done : α → Forest → Prop} {a : α} {d' : Document τ}
    (h : AllOrNothing strict d may done (.ok a) d') :
    Chain strict d d' ∧ d'.repairRefusals = d.repairRefusals ∧ done a d'.forest := by
  obtain ⟨hc, hr, ⟨b, hb, hd⟩ | ⟨⟨e, he⟩, -⟩⟩ := h
  · rw [Except.ok.injEq] at hb
    exact ⟨hc, hr, by rw [hb]; exact hd⟩
  · exact absurd he (by simp)

/-- A failure of a part is a failure of the whole. -/
theorem AllOrNothing.of_error {β : Type} {may may' : Prop} {done : α → Forest → Prop}
    {done' : β → Forest → Prop} {e : Fault} {d' : Document τ}
    (h : AllOrNothing strict d may done (.error e) d') (hmay : may' → may) :
    AllOrNothing strict d may' done' (.error e) d' := by
  obtain ⟨hc, hr, ⟨b, hb, -⟩ | ⟨-, hf, hm⟩⟩ := h
  · exact absurd hb (by simp)
  · exact ⟨hc, hr, .inr ⟨⟨e, rfl⟩, hf, fun h => hm (hmay h)⟩⟩

theorem AllOrNothing.mono {may may' : Prop} {done done' : α → Forest → Prop} {r : Except Fault α}
    {d' : Document τ} (h : AllOrNothing strict d may done r d') (hmay : may' → may)
    (hdone : ∀ a f, done a f → done' a f) : AllOrNothing strict d may' done' r d' := by
  obtain ⟨hc, hr, ⟨a, ha, hd⟩ | ⟨he, hf, hm⟩⟩ := h
  · exact ⟨hc, hr, .inl ⟨a, ha, hdone a _ hd⟩⟩
  · exact ⟨hc, hr, .inr ⟨he, hf, fun h => hm (hmay h)⟩⟩

theorem Announced.allOrNothing {may : Prop} {done : α → Forest → Prop} {f : Forest} {a : α}
    {r : Except Fault α} {d' : Document τ} (hdone : done a f) (h : Announced strict d f a r d') :
    AllOrNothing strict d may done r d' := by
  obtain ⟨hc, hrep, ⟨hr, hf⟩ | ⟨he, hf, hlt⟩⟩ := h
  · exact ⟨hc, hrep, .inl ⟨a, hr, by rw [hf]; exact hdone⟩⟩
  · exact ⟨hc, hrep, .inr ⟨he, hf, fun _ => hlt⟩⟩

namespace Forest

variable {f : Forest} {n c : NodeId} {p q : PropertyId} {g : Feature} {s : Slot} {v : Value}

/-! ## Children of what slots hold -/

theorem owned_restValue (hg : f.feature n p = .ok g) :
    f.owned n p g.restValue = .ok ((f.claims n p g.restValue).map Prod.fst) := by
  obtain ⟨t, ht, hgt⟩ := feature_eq_ok.mp hg
  have hok : ∃ cs, f.owned n p g.restValue = .ok cs := by
    simp only [owned, ht, hgt, bind_ok]
    cases hr : g.role with
    | mixed =>
      rw [Property.restValue, if_pos (by simp [Property.isMixed, hr])]
      exact ⟨[], rfl⟩
    | _ => exact ⟨_, rfl⟩
  obtain ⟨cs, hcs⟩ := hok
  rw [hcs, owned_eq_claims hcs]

/-- The children of what a slot holds can be computed, set or not. -/
theorem Shaped.owned_slot (hf : f.Shaped) (hg : f.feature n p = .ok g) (ho : g.owner = none)
    (hs : f.slot n p = .ok s) : f.owned n p s.value = .ok ((f.claims n p s.value).map Prod.fst) := by
  rcases hf.held n p g s hg ho hs with hrest | hfits
  · rw [hrest]
    exact owned_restValue hg
  · exact owned_of_fits hg hfits

theorem lostChildren_restValue (hr : f.schema.Regular) (hg : f.feature n p = .ok g) :
    f.lostChildren n p v g.restValue = (f.claims n p v).map Prod.fst :=
  lostChildren_of_nil (claims_restValue hr hg)

theorem Typed.contains_of_claims (ht : f.Typed) (hg : f.feature n p = .ok g)
    (ho : g.owner = none) (hs : f.slot n p = .ok s) :
    ∀ x ∈ f.claims n p s.value, f.contains x.1 = true :=
  fun _ hx => (ht.fits n p g s hg ho hs).contains_of_claims ht.regular hg hx

/-- The children of an item that its property takes. -/
theorem owned_item {item : Value} (hg : f.feature n p = .ok g) (hx : g.isMixed = false)
    (ha : f.Accepts n p item) :
    f.owned n p item = .ok (if g.owns then item.node?.toList else []) := by
  obtain ⟨t, ht, hgt⟩ := feature_eq_ok.mp hg
  obtain ⟨g', hg', hitem, -⟩ := ha
  obtain rfl := ok_unique hg hg'
  simp only [owned, ht, hgt, bind_ok, pure_eq_ok]
  cases hr : g.role with
  | containment => simp [Property.owns, hr, (nodes_of_itemFits hitem).1]
  | mixed => simp [Property.isMixed, hr] at hx
  | _ => simp [Property.owns, hr]

/-- The child of an entry of mixed content. -/
theorem owned_entry {e : Entry Value} {h : Feature} (hg : f.feature n p = .ok g)
    (hx : g.isMixed = true) (hh : f.feature n e.property = .ok h) :
    f.owned n p (.mixed [e]) = .ok (if h.owns then e.value.node?.toList else []) := by
  obtain ⟨t, ht, hgt⟩ := feature_eq_ok.mp hg
  obtain ⟨u, hu, hht⟩ := feature_eq_ok.mp hh
  obtain rfl := ok_unique ht hu
  have hr : g.role = .mixed := by simpa [Property.isMixed] using hx
  simp only [owned, ht, hgt, hr, bind_ok, pure_eq_ok, Value.entries, Value.mixed?,
    Option.getD_some, List.mapM_cons, List.mapM_nil, hht]
  cases h.owns with
  | false => rfl
  | true => cases e.value.node? <;> rfl

end Forest

namespace Edit

variable {n : NodeId} {p : PropertyId} {g : Feature} {old : Slot} {v : Value}

/-! ## Writing a whole slot -/

/-- The places of the children of mixed content whose members all exist. -/
theorem link_mixed_apply {entries : MixedContent} {cs : List NodeId}
    (hes : ∀ e ∈ entries, ∃ h, d.forest.feature n e.property = .ok h)
    (hc : ∀ x ∈ entries.filterMap (d.forest.entryClaim n), d.forest.contains x.1 = true) :
    link n p (.mixed entries) cs d = (.ok (), { d with
      forest := d.forest.take n (entries.filterMap (d.forest.entryClaim n)) }) := by
  induction entries generalizing d with
  | nil => rfl
  | cons e es ih =>
    obtain ⟨h, hh⟩ := hes e List.mem_cons_self
    have hq : query (fun f => do f.schema.feature (← f.typeOf n) e.property) d = (.ok h, d) :=
      congrArg (·, d) hh
    have htail : ∀ x ∈ es.filterMap (d.forest.entryClaim n), d.forest.contains x.1 = true := by
      intro x hx
      refine hc x ?_
      rw [List.filterMap_cons]
      cases d.forest.entryClaim n e with
      | none => exact hx
      | some y => exact List.mem_cons_of_mem y hx
    -- The places written for `e` change no feature, so the claims of the rest stay.
    have hrest : ∀ d₁ : Document τ, d₁.forest.schema = d.forest.schema →
        (∀ m, d₁.forest.typeOf m = d.forest.typeOf m) →
        link n p (.mixed es) cs d₁ = (.ok (), { d₁ with
          forest := d₁.forest.take n (es.filterMap (d.forest.entryClaim n)) }) := by
      intro d₁ hs₁ ht₁
      have hf : ∀ q, d₁.forest.feature n q = d.forest.feature n q :=
        Forest.feature_congr hs₁ (ht₁ n)
      have hec : d₁.forest.entryClaim n = d.forest.entryClaim n := by
        funext e
        unfold Forest.entryClaim Forest.ownsAt
        rw [hf]
      rw [← hec]
      refine ih (fun e he => ?_) fun x hx => ?_
      · rw [hf]
        exact hes e (List.mem_cons_of_mem _ he)
      · rw [hec] at hx
        rw [Forest.contains_congr (ht₁ x.1)]
        exact htail x hx
    refine (bind_of_ok (s := { d with
      forest := d.forest.take n (d.forest.entryClaim n e).toList }) (a := ()) ?_).trans ?_
    · refine (bind_of_ok hq).trans ?_
      rw [Forest.entryClaim_of_feature hh]
      cases how : h.owns with
      | false => rfl
      | true =>
        cases hv : e.value.node? with
        | none => rfl
        | some c =>
          refine setPlace_apply (hc (c, e.property) ?_)
          rw [List.filterMap_cons, Forest.entryClaim_of_feature hh, how, hv]
          exact List.mem_cons_self
    · refine (hrest _ (Forest.schema_take _) fun m => Forest.typeOf_take _).trans ?_
      rw [List.filterMap_cons]
      cases d.forest.entryClaim n e <;> rfl

/-- The places of the children of a value that fits. -/
theorem link_apply (hg : d.forest.feature n p = .ok g) (h : d.forest.Fits n p g v) :
    link n p v ((d.forest.claims n p v).map Prod.fst) d =
      (.ok (), { d with forest := d.forest.take n (d.forest.claims n p v) }) := by
  have hc := h.contains_of_claims hg
  cases hx : g.isMixed with
  | true =>
    obtain ⟨entries, rfl, hes⟩ := (Forest.fits_mixed hx).mp h
    rw [Forest.claims_of_mixed hg hx] at hc ⊢
    refine link_mixed_apply (fun e he => ?_) hc
    obtain ⟨k, hk, -⟩ := (hes e he).1
    exact ⟨k, hk⟩
  | false =>
    -- A value without entries places its children under the property itself.
    have hlink : ∀ cs, link n p v cs d = cs.forM (setPlace · (some ⟨n, p⟩)) d := by
      intro cs
      have hv : ∀ entries, v ≠ .mixed entries := by
        rintro entries rfl
        unfold Forest.Fits at h
        rw [if_neg (by simp [hx])] at h
        split_ifs at h
        · obtain ⟨items, hi, -⟩ := h
          exact absurd hi (by simp)
        · rcases h with h | ⟨_, -, hf, -⟩
          · exact absurd h (by simp)
          · rw [Forest.not_mixed_of_itemFits rfl] at hf
            exact absurd hf (by simp)
      cases v with
      | mixed entries => exact absurd rfl (hv entries)
      | _ => rfl
    rw [hlink]
    cases how : g.owns with
    | true =>
      have := forM_setPlace_apply (n := n) hc
      rw [Forest.claims_of_containment hg how] at this ⊢
      rw [← this]
      simp only [List.forM_eq_forM, List.forM_map]
    | false =>
      rw [Forest.claims_of_plain hg how hx]
      rfl

/-- Linking what a property at rest holds does nothing, and succeeds if the property may
be unset. -/
theorem link_plain_apply {entries : MixedContent} {cs : List NodeId}
    (hplain : ∀ e ∈ entries, d.forest.entryClaim n e = none) :
    (link n p (.mixed entries) cs d).2 = d ∧ ((link n p (.mixed entries) cs d).1 = .ok () ↔
      ∀ e ∈ entries, ∃ h, d.forest.feature n e.property = .ok h) := by
  induction entries with
  | nil => exact ⟨rfl, fun _ _ he => absurd he (by simp), fun _ => rfl⟩
  | cons e es ih =>
    rw [List.forall_mem_cons] at hplain
    obtain ⟨ih₁, ih₂⟩ := ih hplain.2
    cases hh : d.forest.feature n e.property with
    | error err =>
      have hq : query (fun f => do f.schema.feature (← f.typeOf n) e.property) d =
          (.error err, d) := congrArg (·, d) hh
      have hl : link n p (.mixed (e :: es)) cs d = (.error err, d) :=
        bind_of_error (bind_of_error hq)
      rw [hl]
      refine ⟨rfl, fun h => absurd h (by simp), fun h => ?_⟩
      obtain ⟨k, hk⟩ := h e List.mem_cons_self
      rw [hh] at hk
      exact absurd hk (by simp)
    | ok h =>
      have hq : query (fun f => do f.schema.feature (← f.typeOf n) e.property) d = (.ok h, d) :=
        congrArg (·, d) hh
      have hnone := hplain.1
      rw [Forest.entryClaim_of_feature hh] at hnone
      have hl : link n p (.mixed (e :: es)) cs d = link n p (.mixed es) cs d := by
        refine bind_of_ok (a := ()) ((bind_of_ok hq).trans ?_)
        cases how : h.owns with
        | false => rfl
        | true =>
          rw [how, if_pos rfl, Option.map_eq_none_iff] at hnone
          rw [hnone]
          rfl
      rw [hl, List.forall_mem_cons]
      exact ⟨ih₁, fun h' => ⟨⟨h, hh⟩, ih₂.mp h'⟩, fun h' => ih₂.mpr h'.2⟩

theorem link_rest_apply (hr : d.forest.schema.Regular) (hg : d.forest.feature n p = .ok g)
    (ho : g.owner = none) :
    (link n p g.restValue [] d).2 = d ∧ ((link n p g.restValue [] d).1 = .ok () ↔
      ∀ e ∈ g.restValue.entries, ∃ h, d.forest.feature n e.property = .ok h) := by
  obtain ⟨t, ht, hgt⟩ := Forest.feature_eq_ok.mp hg
  have hplain := hr.plainDefaults t p g hgt ho
  cases hv : g.restValue with
  | mixed entries =>
    rw [hv] at hplain
    refine link_plain_apply fun e he => ?_
    cases hh : d.forest.feature n e.property with
    | error err =>
      unfold Forest.entryClaim Forest.ownsAt
      rw [hh]
      rfl
    | ok h =>
      rw [Forest.entryClaim_of_feature hh]
      cases how : h.owns with
      | false => rfl
      | true =>
        obtain ⟨u, hu, hhu⟩ := Forest.feature_eq_ok.mp hh
        obtain rfl := ok_unique ht hu
        rw [hplain e he h hhu how]
        rfl
  | _ => exact ⟨rfl, fun _ _ he => absurd he (by simp [Value.entries, Value.mixed?]), fun _ => rfl⟩

/-- Writing a whole slot, given that the places of the new children can be written. -/
theorem overwrite_eq {isSet : Bool} (hs : d.forest.slot n p = .ok old)
    (hold : d.forest.owned n p old.value = .ok ((d.forest.claims n p old.value).map Prod.fst))
    (hnew : d.forest.owned n p v = .ok ((d.forest.claims n p v).map Prod.fst))
    (hc : ∀ x ∈ d.forest.claims n p old.value, d.forest.contains x.1 = true) :
    overwrite n p v isSet d =
      (do link n p v ((d.forest.claims n p v).map Prod.fst)
          modifySlot n p fun _ => ⟨v, isSet⟩
          advance : Edit τ Unit)
        { d with forest := d.forest.free (d.forest.lostChildren n p old.value v) } := by
  have hq₁ : query (·.slot n p) d = (.ok old, d) := congrArg (·, d) hs
  have hq₂ : query (·.owned n p old.value) d = (.ok _, d) := congrArg (·, d) hold
  have hq₃ : query (·.owned n p v) d = (.ok _, d) := congrArg (·, d) hnew
  refine (bind_of_ok hq₁).trans ((bind_of_ok hq₂).trans ((bind_of_ok hq₃).trans ?_))
  refine bind_of_ok (unlink_apply fun c hcm => ?_)
  obtain ⟨x, hx, rfl⟩ := List.mem_map.mp (List.mem_filter.mp hcm).1
  exact hc x hx

/-- **Writing a value that fits** into a slot whose children exist. -/
theorem overwrite_apply {isSet : Bool} (hf : d.forest.Shaped) (hg : d.forest.feature n p = .ok g)
    (ho : g.owner = none) (hs : d.forest.slot n p = .ok old)
    (hc : ∀ x ∈ d.forest.claims n p old.value, d.forest.contains x.1 = true)
    (h : d.forest.Fits n p g v) :
    overwrite n p v isSet d = (.ok (), { d with
      forest := d.forest.write n p ⟨v, isSet⟩ (d.forest.lostChildren n p old.value v)
        (d.forest.claims n p v)
      generation := d.generation + 1 }) := by
  rw [overwrite_eq hs (hf.owned_slot hg ho hs) (Forest.owned_of_fits hg h) hc]
  generalize d.forest.lostChildren n p old.value v = freed
  have hfeature : ∀ q, (d.forest.free freed).feature n q = d.forest.feature n q :=
    Forest.feature_congr (Forest.schema_free freed) (Forest.typeOf_free freed)
  have hclaims : (d.forest.free freed).claims n p v = d.forest.claims n p v :=
    Forest.claims_congr hfeature
  have hlink := link_apply (d := { d with forest := d.forest.free freed })
    ((hfeature p).trans hg)
    (h.of_types (Forest.schema_free freed) fun m u hu => (Forest.typeOf_free freed).trans hu)
  rw [hclaims] at hlink
  exact (bind_of_ok hlink).trans (write_apply freed _ hs)

/-- Writing what a property holds at rest into its slot, which frees all children of the
slot. -/
theorem overwrite_rest_apply (ht : d.forest.Typed) (hg : d.forest.feature n p = .ok g)
    (ho : g.owner = none) (hs : d.forest.slot n p = .ok old) (hu : d.forest.CanUnset n p) :
    overwrite n p g.restValue false d = (.ok (), { d with
      forest := d.forest.write n p ⟨g.restValue, false⟩
        ((d.forest.claims n p old.value).map Prod.fst) []
      generation := d.generation + 1 }) := by
  have hall : ∀ e ∈ g.restValue.entries, ∃ h, d.forest.feature n e.property = .ok h := by
    obtain ⟨g', hg', -, hall⟩ := hu
    rw [hg, Except.ok.injEq] at hg'
    rw [hg']
    exact hall
  rw [overwrite_eq hs (ht.shaped.owned_slot hg ho hs) (Forest.owned_restValue hg)
    (ht.contains_of_claims hg ho hs), Forest.lostChildren_restValue ht.regular hg,
    Forest.claims_restValue ht.regular hg]
  generalize (d.forest.claims n p old.value).map Prod.fst = freed
  have hfeature : ∀ q, (d.forest.free freed).feature n q = d.forest.feature n q :=
    Forest.feature_congr (Forest.schema_free freed) (Forest.typeOf_free freed)
  obtain ⟨h₂, h₁⟩ := link_rest_apply (d := { d with forest := d.forest.free freed })
    (by rw [Forest.schema_free]; exact ht.regular) ((hfeature p).trans hg) ho
  have hlink : link n p g.restValue [] { d with forest := d.forest.free freed } =
      (.ok (), { d with forest := d.forest.free freed }) :=
    Prod.ext (h₁.mpr fun e he => by rw [hfeature]; exact hall e he) h₂
  exact (bind_of_ok hlink).trans (write_apply freed [] hs)

/-- A default that names a property that does not exist cannot be written. It belongs to
a property without children. -/
theorem overwrite_rest_error (ht : d.forest.Typed) (hg : d.forest.feature n p = .ok g)
    (ho : g.owner = none) (hs : d.forest.slot n p = .ok old) (hu : ¬ d.forest.CanUnset n p) :
    d.forest.claims n p old.value = [] ∧
      ∃ e, overwrite n p g.restValue false d = (.error e, d) := by
  have hall : ¬ ∀ e ∈ g.restValue.entries, ∃ h, d.forest.feature n e.property = .ok h :=
    fun hall => hu ⟨g, hg, ho, hall⟩
  have hnone : d.forest.claims n p old.value = [] := by
    refine Forest.claims_of_plain hg ?_ ?_
    · by_contra how
      obtain ⟨t, -, hgt⟩ := Forest.feature_eq_ok.mp hg
      refine hall fun e he => absurd he ?_
      have hd := ht.regular.nullContainment t p g hgt (by simpa using how)
      unfold Property.restValue
      rw [hd]
      split_ifs <;> simp [Value.entries, Value.mixed?]
    · by_contra hx
      refine hall fun e he => absurd he ?_
      rw [Property.restValue, if_pos (by simpa using hx)]
      simp [Value.entries, Value.mixed?]
  refine ⟨hnone, ?_⟩
  rw [overwrite_eq hs (ht.shaped.owned_slot hg ho hs) (Forest.owned_restValue hg)
    (ht.contains_of_claims hg ho hs), Forest.lostChildren_restValue ht.regular hg,
    Forest.claims_restValue ht.regular hg, hnone]
  obtain ⟨h₂, h₁⟩ := link_rest_apply ht.regular hg ho
  rcases hl : link n p g.restValue [] d with ⟨e | _, d'⟩
  · rw [hl] at h₂
    exact ⟨e, bind_of_error (hl.trans (Prod.ext rfl h₂))⟩
  · rw [hl] at h₁
    exact absurd (h₁.mp rfl) hall

/-! ## The edits -/

/-- **Unsetting.** -/
theorem unset_ends (hf : d.forest.Sound strict) :
    (unset n p : Edit τ Unit).Ends d (AllOrNothing strict d (d.forest.CanUnset n p) fun _ f =>
      d.forest.CanUnset n p ∧ ∃ g old, d.forest.feature n p = .ok g ∧ g.owner = none ∧
        d.forest.slot n p = .ok old ∧ f = d.forest.write n p ⟨g.restValue, false⟩
          ((d.forest.claims n p old.value).map Prod.fst) []) := by
  unfold unset
  refine Ends.query (fun g hg => ?_) fun e he => .nothing ?_
  swap
  · rintro ⟨g, hg, -⟩
    rw [he] at hg
    exact absurd hg (by simp)
  cases ho : g.owner with
  | some m =>
    -- A member of mixed content is not unset by itself.
    simp only [Option.isSome_some, if_true]
    have hno : ¬ d.forest.CanUnset n p := by
      rintro ⟨g', hg', ho', -⟩
      rw [hg, Except.ok.injEq] at hg'
      rw [← hg', ho] at ho'
      exact absurd ho' (by simp)
    exact Ends.query (fun l hl => .nothing hno) fun e he => .nothing hno
  | none =>
    simp only [Option.isSome_none, Bool.false_eq_true, if_false]
    obtain ⟨old, hs⟩ := hf.slot_of_feature n p g hg
    rw [ends_query_of_ok hs]
    have hclaims := Forest.claims_restValue hf.regular hg
    -- At rest a property lists no child, so all of them leave and none comes in.
    have hmove : Tracking.movement d.forest
        ⟨n, p, .unset, old.value, g.restValue, none, old.isSet⟩ =
          .ok ((d.forest.claims n p old.value).map Prod.fst, []) := by
      simp only [Tracking.movement, hf.toTyped.shaped.owned_slot hg ho hs,
        Forest.owned_restValue hg, hclaims, bind_ok, pure_eq_ok, List.map_nil, List.filter_nil]
      exact congrArg (fun l => Except.ok (l, [])) (List.filter_eq_self.mpr fun _ _ => rfl)
    by_cases hu : d.forest.CanUnset n p
    · have hw : d.forest.Rewrite strict n p g old ⟨g.restValue, false⟩
          ((d.forest.claims n p old.value).map Prod.fst) [] := by
        have hfits : d.forest.SlotFits n p g ⟨g.restValue, false⟩ :=
          ⟨fun _ => rfl, fun h => absurd h (by simp), fun h => absurd h (by simp)⟩
        have h : d.forest.Rewrite strict n p g old _ _ _ :=
          Forest.rewrite_all hg ho hs hfits (by simp [hclaims]) (by simp [hclaims])
            (by simp [hclaims])
        simp only [hclaims, Forest.lostChildren_restValue hf.regular hg] at h
        exact h
      refine (announce_ends (a := ()) (fun _ => hu) hw
        (fun _ => ⟨_, _, hmove, fun _ => Iff.rfl, fun _ => by simp⟩) Notice.describes_unset
        fun d₁ hd₁ => ?_).mono
        fun r d' h => h.allOrNothing ⟨hu, g, old, hg, ho, hs, rfl⟩
      rw [← hd₁] at hf hg hs hu ⊢
      exact overwrite_rest_apply hf.toTyped hg ho hs hu
    · -- The property does not take what it holds at rest, which shows only after the announcement.
      obtain ⟨hnone, -⟩ := overwrite_rest_error hf.toTyped hg ho hs hu
      rw [hnone] at hmove
      refine (announce_fails (fun h => hu (h rfl)) hg ho hmove ⟨old, hs, rfl, rfl⟩
        fun d₁ hd₁ => ?_).mono
        fun r d' h => ⟨h.1, h.2.1, .inr ⟨h.2.2.1, h.2.2.2, fun hu' => absurd hu' hu⟩⟩
      rw [← hd₁] at hf hg hs hu
      exact (overwrite_rest_error hf.toTyped hg ho hs hu).2

/-- The end of a removal: a child that is taken out loses its place, and the slot is written. -/
theorem takeOut_apply {q : PropertyId} {g : Feature} {v : Value} {s : Slot} {w : Slot → Slot}
    {α : Type} {a : α} (hg : d.forest.feature n q = .ok g) (hs : d.forest.slot n p = .ok s)
    (hc : ∀ c, v.node? = some c → d.forest.contains c = true) :
    (do
      if (← query (·.feature n q)).owns then unlink v.node?.toList
      modifySlot n p w
      advance
      return a : Edit τ α) d = (.ok a, { d with
        forest := d.forest.write n p (w s) (if g.owns then v.node?.toList else []) []
        generation := d.generation + 1 }) := by
  refine (bind_of_ok (congrArg (·, d) hg)).trans ?_
  cases how : g.owns with
  | false => exact write_return_apply [] [] hs
  | true =>
    refine (bind_of_ok (unlink_apply fun c hin => ?_)).trans (write_return_apply _ [] hs)
    exact hc c (Option.mem_toList.mp hin)

/-- **Taking an item out of a list.** -/
theorem remove_ends (hf : d.forest.Sound strict) {i : Nat} :
    (remove n p i : Edit τ Value).Ends d (AllOrNothing strict d
      (∃ items, d.forest.itemsOf n p = .ok items ∧ i < items.length) fun item f =>
        ∃ g old items, d.forest.feature n p = .ok g ∧ d.forest.slot n p = .ok old ∧
          old.value = .list items ∧ items[i]? = some item ∧
          d.forest.Rewrite strict n p g old (old.removeItem i)
            (if g.owns then item.node?.toList else []) [] ∧
          f = d.forest.write n p (old.removeItem i) (if g.owns then item.node?.toList else []) []) := by
  unfold remove
  refine Ends.query (fun items hitems => ?_) fun e he => .nothing ?_
  swap
  · rintro ⟨items, hitems, -⟩
    rw [he] at hitems
    exact absurd hitems (by simp)
  obtain ⟨g, old, hg, ho, hm, hx, hs, hv⟩ := Forest.itemsOf_eq_ok.mp hitems
  cases hi : items[i]? with
  | none =>
    refine .nothing ?_
    rintro ⟨items', hitems', hlt⟩
    obtain rfl := ok_unique hitems hitems'
    exact absurd hlt (by simpa using hi)
  | some item =>
    have hw := hf.toTyped.shaped.rewrite_removeItem hf.linked hg ho hm hx hs hv hi
    have hfits := hf.fits n p g old hg ho hs
    have hin : item ∈ items := List.mem_of_getElem? hi
    have ha := (hfits.items_accepted hx hm hv).2 item hin
    have hset := hfits.isSet_of_item hx hm hv hin
    have hmove : Tracking.movement d.forest ⟨n, p, .remove, item, .null, some i, true⟩ =
        .ok (if g.owns then item.node?.toList else [], []) := by
      simp only [Tracking.movement, Forest.owned_item hg hx ha, bind_ok, pure_eq_ok]
    refine (announce_ends (a := item) (fun h => absurd h (by simp)) hw
      (fun _ => ⟨_, _, hmove, fun _ => Iff.rfl, fun _ => by simp⟩)
      (Notice.describes_removeItem hv hset hi) fun d₁ hd₁ => ?_).mono
      fun r d' h => h.allOrNothing ⟨g, old, items, hg, hs, hv, hi, hw, rfl⟩
    rw [← hd₁] at hg hs ha ⊢
    exact takeOut_apply hg hs fun _ => ha.contains

/-- **Taking an entry out of mixed content.** -/
theorem removeMixed_ends (hf : d.forest.Sound strict) {i : Nat} :
    (removeMixed n i : Edit τ (Entry Value)).Ends d (AllOrNothing strict d
      (∃ t mixed entries, d.forest.typeOf n = .ok t ∧ d.forest.schema.mixedOf? t = some mixed ∧
        d.forest.sequence n mixed = .ok entries ∧ i < entries.length) fun e f =>
          ∃ t mixed g h old entries, d.forest.typeOf n = .ok t ∧
            d.forest.schema.mixedOf? t = some mixed ∧ d.forest.feature n mixed = .ok g ∧
            d.forest.feature n e.property = .ok h ∧ d.forest.slot n mixed = .ok old ∧
            old.value = .mixed entries ∧ entries[i]? = some e ∧
            d.forest.Rewrite strict n mixed g old (old.removeEntry i)
              (if h.owns then e.value.node?.toList else []) [] ∧
            f = d.forest.write n mixed (old.removeEntry i)
              (if h.owns then e.value.node?.toList else []) []) := by
  unfold removeMixed
  refine Ends.query (fun t ht => ?_) fun e he => .nothing ?_
  swap
  · rintro ⟨t, -, -, ht, -⟩
    rw [he] at ht
    exact absurd ht (by simp)
  refine Ends.query (fun found hq => ?_) fun e hq => .nothing ?_
  swap
  · rintro ⟨t', mixed, -, ht', hmixed, -⟩
    rw [ht, Except.ok.injEq] at ht'
    rw [ht', hmixed] at hq
    exact absurd hq (by simp)
  cases hmixed : d.forest.schema.mixedOf? t with
  | none =>
    rw [hmixed] at hq
    exact absurd hq (by simp)
  | some mixed =>
    rw [hmixed, Except.ok.injEq] at hq
    subst hq
    refine Ends.query (fun entries hes => ?_) fun e he => .nothing ?_
    swap
    · rintro ⟨t', mixed', entries, ht', hmixed', hes, -⟩
      rw [ht, Except.ok.injEq] at ht'
      rw [← ht', hmixed, Option.some.injEq] at hmixed'
      rw [← hmixed', he] at hes
      exact absurd hes (by simp)
    obtain ⟨old, hs, hv⟩ := Forest.sequence_eq_ok.mp hes
    obtain ⟨g, hgt, hx⟩ := hf.regular.coherent.mixedOf t mixed hmixed
    obtain ⟨hm, ho, -⟩ := hf.regular.coherent.mixed t mixed g hgt hx
    have hg : d.forest.feature n mixed = .ok g := Forest.feature_eq_ok.mpr ⟨t, ht, hgt⟩
    cases hi : entries[i]? with
    | none =>
      refine .nothing ?_
      rintro ⟨t', mixed', entries', ht', hmixed', hes', hlt⟩
      rw [ht, Except.ok.injEq] at ht'
      rw [← ht', hmixed, Option.some.injEq] at hmixed'
      rw [← hmixed', hes, Except.ok.injEq] at hes'
      subst hes'
      exact absurd hlt (by simpa using hi)
    | some e =>
      have hfits := hf.fits n mixed g old hg ho hs
      have hin : e ∈ entries := List.mem_of_getElem? hi
      obtain ⟨⟨h, hh, -⟩, ha⟩ := (hfits.entries_accepted hx hm hv).2 e hin
      have hset := hfits.isSet_of_entry hx hm hv hin
      have hw := hf.toTyped.shaped.rewrite_removeEntry hf.linked hg ho hx hs hv hh hi
      -- The child leaves if the property of the entry owns it.
      have hmove : Tracking.movement d.forest
          ⟨n, mixed, .remove, .mixed [e], .null, some i, true⟩ =
            .ok (if h.owns then e.value.node?.toList else [], []) := by
        simp only [Tracking.movement, Forest.owned_entry hg hx hh, bind_ok, pure_eq_ok]
      refine (announce_ends (a := e) (fun h => absurd h (by simp)) hw
        (fun _ => ⟨_, _, hmove, fun _ => Iff.rfl, fun _ => by simp⟩)
        (Notice.describes_removeEntry hv hset hi) fun d₁ hd₁ => ?_).mono
        fun r d' hr => hr.allOrNothing
          ⟨t, mixed, g, h, old, entries, ht, hmixed, hg, hh, hs, hv, hi, hw, rfl⟩
      rw [← hd₁] at hh hs ha ⊢
      exact takeOut_apply hh hs fun _ => ha.contains

/-- **Moving an item within a list.** -/
theorem move_ends (hf : d.forest.Sound strict) {i j : Nat} :
    (move n p i j : Edit τ Unit).Ends d (AllOrNothing strict d
      (∃ items, d.forest.itemsOf n p = .ok items ∧ i < items.length ∧ j < items.length) fun _ f =>
        ∃ g old, d.forest.feature n p = .ok g ∧ d.forest.slot n p = .ok old ∧
          f = d.forest.write n p (old.moveItem i j) [] []) := by
  unfold move
  refine Ends.query (fun items hitems => ?_) fun e he => .nothing ?_
  swap
  · rintro ⟨items, hitems, -⟩
    rw [he] at hitems
    exact absurd hitems (by simp)
  have hno : ¬ (i < items.length ∧ j < items.length) → ¬ ∃ items, d.forest.itemsOf n p = .ok items ∧
      i < items.length ∧ j < items.length := by
    rintro h ⟨items', hitems', hlt⟩
    rw [hitems, Except.ok.injEq] at hitems'
    rw [← hitems'] at hlt
    exact h hlt
  obtain ⟨g, old, hg, ho, hm, hx, hs, hv⟩ := Forest.itemsOf_eq_ok.mp hitems
  cases hi : items[i]? with
  | none => exact .nothing (hno fun h => absurd h.1 (by simpa using hi))
  | some item =>
    simp only
    by_cases hj : items.length ≤ j
    · rw [if_pos hj]
      exact .nothing (hno fun h => absurd h.2 (by omega))
    · rw [if_neg hj]
      have hw := hf.rewrite_moveItem hg ho hm hx hs hv hi (j := j) (by omega)
      have hset := (hf.fits n p g old hg ho hs).isSet_of_item hx hm hv (List.mem_of_getElem? hi)
      refine (announce_ends (a := ()) (fun h => absurd h (by simp)) hw
        (fun _ => ⟨[], [], rfl, fun _ => Iff.rfl, fun _ => by simp⟩)
        (Notice.describes_moveItem hv hset hi) fun d₁ hd₁ => ?_).mono
        fun r d' h => h.allOrNothing ⟨g, old, hg, hs, rfl⟩
      rw [← hd₁] at hs ⊢
      exact write_apply [] [] hs

end Edit

end TrackedGraph
