/-
Slots that hold what the schema lets them hold.

Edits check what they write, each in its own way: a whole slot, one item, one entry, or nothing
at all, as a removal and an `unset` do. That the slots of a reachable document conform to the
schema all the same (`Document.Reachable.slots_conform`) rests on the defaults, at which building
a schema does not look: they have to conform themselves, and a property of references has to be
empty at rest, since a node that a default names may not exist.

What has been kept by every edit is `Forest.SlotFits`. Here it is said in the words of the checks.
-/
import TrackedGraph.Proofs.Document.Shaping

set_option autoImplicit false

namespace TrackedGraph

variable {τ : Type} {f : Forest} {n m : NodeId} {p q : PropertyId} {t : TypeId} {v : Value}
  {g : Feature} {s : Slot} {schema : Schema}

/-! ## Defaults that conform -/

/-- A single-valued property with a slot of its own has a default that it takes. -/
def Schema.ConformingDefaults (s : Schema) : Prop :=
  ∀ t p g, s.feature t p = .ok g → g.owner = none → g.many = false →
    s.conformSlot t p g.default = .ok ()

/-- A property of references has no default. -/
def Schema.NullReferences (s : Schema) : Prop :=
  ∀ t p g, s.feature t p = .ok g → g.role.refers = true → g.default = .null

theorem Property.isEmpty_restValue {p : Property} (hm : p.many = true) :
    p.restValue.isEmpty = true := by
  unfold restValue
  rw [if_pos hm]
  split_ifs <;> rfl

/-- What a single-valued property takes. -/
theorem Schema.conformSlot_single (hg : schema.feature t p = .ok g) (ho : g.owner = none)
    (hx : g.isMixed = false) (hm : g.many = false) :
    schema.conformSlot t p v = .ok () ↔ v = .null ∨ itemFits g v = true := by
  simp only [conformSlot, hg, ho, hx, hm, bind_ok, Option.isSome_none, Bool.false_eq_true, if_false]
  have hitem : schema.conformItem t p v = .ok () ↔ itemFits g v = true := by
    simp [Forest.conformItem_eq_ok, hg]
  cases v with
  | null => simp [Value.isNull]
  | _ => simpa [Value.isNull] using hitem

/-- Of a default it is enough to know its kind. -/
theorem Schema.conformingDefaults_iff (hc : schema.Coherent) : schema.ConformingDefaults ↔
    ∀ type ∈ schema.types, ∀ g ∈ type.features, g.owner = none → g.many = false →
      g.default = .null ∨ itemFits g g.default = true := by
  rw [← forall_feature_iff]
  refine forall₄_congr fun t p g hg => forall₂_congr fun ho hm => ?_
  have hx : g.isMixed = false := by
    refine Bool.eq_false_iff.mpr fun hx => ?_
    rw [(hc.mixed t p g hg hx).1] at hm
    exact absurd hm (by simp)
  exact conformSlot_single hg ho hx hm

instance (s : Schema) : Decidable s.NullReferences := decidable_of_iff _ Schema.forall_feature_iff.symm

section defaults

variable (hc : schema.Coherent) (hd : schema.ConformingDefaults) (hr : schema.NullReferences)

include hc hd hr

/-- **A default that conforms** refers to no node. -/
theorem Schema.default_eq_null_or_itemFits (hg : schema.feature t p = .ok g) (ho : g.owner = none)
    (hm : g.many = false) :
    g.default = .null ∨ itemFits g g.default = true ∧ g.role.refers = false := by
  rcases forall_feature_iff.mpr ((conformingDefaults_iff hc).mp hd) t p g hg ho hm with hnull | hfits
  · exact .inl hnull
  · cases hrefers : g.role.refers with
    | true => exact .inl (hr t p g hg hrefers)
    | false => exact .inr ⟨hfits, rfl⟩

theorem Schema.regular_of_defaults : schema.Regular := by
  refine ⟨hc, fun t p g hg howns => hr t p g hg ?_, fun t p g hg ho e he => ?_⟩
  · have hrole : g.role = .containment := by simpa [Property.owns] using howns
    rw [hrole]
    rfl
  · -- Nothing that a property holds at rest has entries.
    have hnone : g.restValue.entries = [] := by
      unfold Property.restValue
      cases hx : g.isMixed with
      | true => rfl
      | false =>
        cases hm : g.many with
        | true => rfl
        | false =>
          rcases default_eq_null_or_itemFits hc hd hr hg ho hm with hnull | ⟨hfits, -⟩
          · simp [hnull, Value.entries, Value.mixed?]
          · cases hv : g.default with
            | mixed es =>
              rw [Forest.not_mixed_of_itemFits hv] at hfits
              exact absurd hfits (by simp)
            | _ => simp [Value.entries, Value.mixed?]
    rw [hnone] at he
    exact absurd he List.not_mem_nil

/-- **A property at rest holds what it takes.** -/
theorem Forest.fits_restValue_of_defaults (hs : f.schema = schema) (ht : f.typeOf n = .ok t)
    (hg : schema.feature t p = .ok g) (ho : g.owner = none) : f.Fits n p g g.restValue := by
  unfold Property.restValue
  cases hx : g.isMixed with
  | true => exact (fits_mixed hx).mpr ⟨[], by simp, by simp⟩
  | false =>
    cases hm : g.many with
    | true => exact (fits_list hx hm).mpr ⟨[], by simp, by simp⟩
    | false =>
      rw [fits_single hx hm]
      refine (Schema.default_eq_null_or_itemFits hc hd hr hg ho hm).imp (by simp) ?_
      rintro ⟨hfits, hrefers⟩
      refine ⟨g, feature_eq_ok.mpr ⟨t, ht, by rw [hs]; exact hg⟩, by simpa using hfits,
        fun m hnode => ?_⟩
      have hrefers' := (nodes_of_itemFits hfits).2 (by simp at hnode; simp [hnode])
      rw [hrefers] at hrefers'
      exact absurd hrefers' (by simp)

end defaults

/-! ## The nodes in a value -/

/-- The nodes that a value of the property refers to, each with the property that answers for
it: in mixed content that of its entry. -/
def Value.mentions (p : PropertyId) : Value → List (NodeId × PropertyId)
  | .mixed entries => entries.filterMap fun e => e.value.node?.map (·, e.property)
  | v => v.nodes.map (·, p)

theorem Forest.Accepts.target (h : f.Accepts n p v) (ht : f.typeOf n = .ok t)
    (hm : v.node? = some m) :
    ∃ u, f.typeOf m = .ok u ∧ f.schema.mayPointTo t p u = .ok true := by
  obtain ⟨g, hg, -, htarget⟩ := h
  obtain ⟨t', ht', hg⟩ := feature_eq_ok.mp hg
  obtain rfl := ok_unique ht ht'
  obtain ⟨u, hu, hall⟩ := htarget m hm
  refine ⟨u, hu, ?_⟩
  simp [Schema.mayPointTo, hg, hall]

/-- **Every node in a value that fits** exists and is of a type that its property may point to. -/
theorem Forest.Fits.targets (h : f.Fits n p g v) (ht : f.typeOf n = .ok t)
    (hm : (m, q) ∈ v.mentions p) :
    ∃ u, f.typeOf m = .ok u ∧ f.schema.mayPointTo t q u = .ok true := by
  unfold Fits at h
  split_ifs at h with hx hmany
  · obtain ⟨entries, rfl, he⟩ := h
    obtain ⟨e, hmem, hnode⟩ := List.mem_filterMap.mp hm
    obtain ⟨c, hc, heq⟩ := Option.map_eq_some_iff.mp hnode
    obtain ⟨rfl, rfl⟩ := Prod.mk.inj heq
    exact (he e hmem).2.target ht hc
  · obtain ⟨items, rfl, hi⟩ := h
    obtain ⟨c, hc, heq⟩ := List.mem_map.mp hm
    obtain ⟨rfl, rfl⟩ := Prod.mk.inj heq
    obtain ⟨item, hmem, hnode⟩ := List.mem_filterMap.mp hc
    exact (hi item hmem).target ht hnode
  · rcases h with rfl | h
    · -- Null mentions nobody.
      exact absurd hm (by simp [Value.mentions, Value.nodes])
    · obtain ⟨k, -, hfits, -⟩ := id h
      cases v with
      | mixed entries => exact absurd hfits (by simp [not_mixed_of_itemFits rfl])
      | list items => exact absurd hfits (by simp [not_list_of_itemFits rfl])
      | node c =>
        obtain ⟨rfl, rfl⟩ : c = m ∧ q = p := by
          simpa [Value.mentions, Value.nodes, eq_comm] using hm
        exact h.target ht rfl
      | _ => exact absurd hm (by simp [Value.mentions, Value.nodes])

/-! ## Reachable documents -/

/-- **The slots of a reachable document conform to the schema**: whatever was edited and
reverted, and however the edits ended, every property of every node has a slot. It holds a value
that the property takes, with nodes that exist and are of a type they may be of; that of a member
of mixed content is empty and unset; a list or mixed content is set exactly if it is not empty;
and a single value that is unset is the default. -/
theorem Document.Reachable.slots_conform {declarations : List TypeDeclaration} {d : Document τ}
    (hb : Schema.build declarations = .ok schema) (hd : schema.ConformingDefaults)
    (hr : schema.NullReferences) (h : d.Reachable schema fun _ _ => True)
    (ht : d.forest.typeOf n = .ok t) (hg : schema.feature t p = .ok g) :
    ∃ s, d.forest.slot n p = .ok s ∧
      (g.owner = none → schema.conformSlot t p s.value = .ok () ∧
        ∀ m q, (m, q) ∈ s.value.mentions p →
          ∃ u, d.forest.typeOf m = .ok u ∧ schema.mayPointTo t q u = .ok true) ∧
      (g.owner ≠ none → s = ⟨.null, false⟩) ∧
      (g.many = true ∨ g.isMixed = true → (s.isSet = true ↔ s.value.isEmpty = false)) ∧
      (g.owner = none → g.many = false → s.isSet = false → s.value = g.default) := by
  have hc := Schema.coherent_of_build hb
  have hregular := Schema.regular_of_defaults hc hd hr
  have hsound : d.forest.Sound False := h.sound hregular fun hs => absurd hs id
  have htyped : d.forest.Typed := hsound.toTyped
  have hschema : d.forest.schema = schema := h.schema_eq hregular.coherent
  have hfeature : d.forest.feature n p = .ok g :=
    Forest.feature_eq_ok.mpr ⟨t, ht, by rw [hschema]; exact hg⟩
  obtain ⟨s, hs⟩ := htyped.slot_of_feature n p g hfeature
  have hslot : g.owner = none → d.forest.SlotFits n p g s := fun ho =>
    htyped.fits n p g s hfeature ho hs
  have hmember : g.owner ≠ none → s = ⟨.null, false⟩ := fun ho =>
    htyped.member n p g s hfeature ho hs
  refine ⟨s, hs, fun ho => ?_, hmember, fun hmany => ?_, fun ho hm hset => ?_⟩
  · -- A slot that is unset is at rest, and the property takes what it holds at rest.
    have hfits : d.forest.Fits n p g s.value := by
      cases hset : s.isSet with
      | true => exact (hslot ho).fits hset
      | false =>
        rw [(hslot ho).rest hset]
        exact Forest.fits_restValue_of_defaults hc hd hr hschema ht hg ho
    have hconforms := (Forest.conforms_iff_fits ht (hschema ▸ hg)).mpr ⟨ho, hfits⟩
    rw [← hschema]
    exact ⟨hconforms.1, fun m q hm => hfits.targets ht hm⟩
  · have hlist : g.many = true := hmany.elim id fun hx => (hc.mixed t p g hg hx).1
    by_cases ho : g.owner = none
    · refine ⟨fun hset => (hslot ho).full hset hlist, fun hfull => ?_⟩
      cases hset : s.isSet with
      | true => rfl
      | false =>
        rw [(hslot ho).rest hset, Property.isEmpty_restValue hlist] at hfull
        exact absurd hfull (by simp)
    · rw [hmember ho]
      simp [Value.isEmpty, Value.size]
  · rw [(hslot ho).rest hset, Property.restValue, hm]
    cases hx : g.isMixed with
    | true =>
      rw [(hc.mixed t p g hg hx).1] at hm
      exact absurd hm (by simp)
    | false => simp

/-! ## An example -/

/-- A list of one task. -/
def Checklist.blank : Document Unit where
  forest := ⟨Checklist.schema, [⟨⟨0⟩, [⟨.list [], false⟩, ⟨.null, false⟩, ⟨.bool false, false⟩], none⟩]⟩
  root := ⟨0⟩
  audience := { memory := () }

/-- A step is to be done after the task it belongs to; it was done and is not any more. -/
theorem Document.Reachable.slots_conform_checklist :
    let d := Checklist.blank.after [.create "Task", .add ⟨0⟩ Checklist.steps (.node ⟨1⟩),
      .set ⟨1⟩ Checklist.after (.node ⟨0⟩), .set ⟨1⟩ Checklist.done (.bool true),
      .unset ⟨1⟩ Checklist.done]
    (∃ u, d.forest.typeOf ⟨0⟩ = .ok u ∧
        Checklist.schema.mayPointTo ⟨0⟩ Checklist.after u = .ok true) ∧
      d.forest.slot ⟨1⟩ Checklist.done = .ok ⟨.bool false, false⟩ := by
  intro d
  have hb : Schema.build Checklist.types = .ok Checklist.schema := rfl
  have hd : Checklist.schema.ConformingDefaults :=
    (Schema.conformingDefaults_iff (Schema.coherent_of_build hb)).mpr (by decide)
  have hreach : d.Reachable Checklist.schema fun _ _ => True :=
    .edit _ _ (.edit _ _ (.edit _ _ (.edit _ _ (.edit _ _ (.new "Task" () Checklist.blank rfl)
      trivial) trivial) trivial) trivial) trivial
  have htype : d.forest.typeOf ⟨1⟩ = .ok ⟨0⟩ := by decide +kernel
  obtain ⟨s, hs, hown, -⟩ := slots_conform (p := Checklist.after) hb hd (by decide) hreach htype rfl
  obtain ⟨s', hs', -, -, -, hrest⟩ :=
    slots_conform (p := Checklist.done) hb hd (by decide) hreach htype rfl
  constructor
  · have hafter : d.forest.slot ⟨1⟩ Checklist.after = .ok ⟨.node ⟨0⟩, true⟩ := by decide +kernel
    obtain rfl := ok_unique hs hafter
    exact (hown rfl).2 ⟨0⟩ Checklist.after List.mem_cons_self
  · have hset : (d.forest.slot ⟨1⟩ Checklist.done).map (·.isSet) = .ok false := by decide +kernel
    rw [hs'] at hset ⊢
    have hunset : s'.isSet = false := Except.ok.inj hset
    have hvalue : s'.value = .bool false := hrest rfl rfl hunset
    rw [← hvalue, ← hunset]

end TrackedGraph
