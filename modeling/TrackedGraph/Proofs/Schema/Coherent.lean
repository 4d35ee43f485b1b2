/-
What building a schema guarantees.

A built schema is coherent: mixed content is many-valued, it is no member itself, it is
the only one of its type, and whoever names an owner names it. Two further properties
are about defaults, which building does not look at. `NullContainment` says that no
containment property has a default. `PlainDefaults` says that no default of another
property lists a child either, which mixed content in the default of an attribute
would do: the entries of mixed content are linked by whoever writes them, whatever the
role of the property.
-/
import TrackedGraph.Proofs.Forest.Lookup
import TrackedGraph.Schema.Resolve

set_option autoImplicit false

namespace TrackedGraph

/-- The resolved names of a schema fit together. -/
structure Schema.Coherent (s : Schema) : Prop where
  mixed : ∀ t p g, s.feature t p = .ok g → g.isMixed = true →
    g.many = true ∧ g.owner = none ∧ s.mixedOf? t = some p
  mixedOf : ∀ t p, s.mixedOf? t = some p → ∃ g, s.feature t p = .ok g ∧ g.isMixed = true
  owner : ∀ t p g m, s.feature t p = .ok g → g.owner = some m → s.mixedOf? t = some m

/-- No containment property has a default. -/
def Schema.NullContainment (s : Schema) : Prop :=
  ∀ t p g, s.feature t p = .ok g → g.owns = true → g.default = .null

/-- What a property holds at rest lists no child, not even as mixed content. -/
def Schema.PlainDefaults (s : Schema) : Prop :=
  ∀ t p g, s.feature t p = .ok g → g.owner = none → ∀ e ∈ g.restValue.entries,
    ∀ h, s.feature t e.property = .ok h → h.owns = true → e.value.node? = none

/-- No member of mixed content is a reference that owns nothing. -/
def Schema.OwningMembers (s : Schema) : Prop :=
  ∀ t p g, s.feature t p = .ok g → g.owner ≠ none → g.role ≠ .reference

/-- A schema whose forests stay sound: its names fit together and no default lists a
child. -/
structure Schema.Regular (s : Schema) : Prop where
  coherent : s.Coherent
  nullContainment : s.NullContainment
  plainDefaults : s.PlainDefaults

namespace Schema

/-! ## Validation -/

theorem not_mixed_of_earlier {types : List String} {d : TypeDeclaration}
    {earlier rest : List Property} (h : validateProperties types d earlier rest = .ok ())
    (he : earlier.any (·.isMixed) = true) {p : Property} (hp : p ∈ rest) : p.isMixed = false := by
  induction rest generalizing earlier with
  | nil => simp at hp
  | cons r rest ih =>
    rw [validateProperties, bind_eq_ok] at h
    obtain ⟨_, hr, hrest⟩ := h
    rcases List.mem_cons.mp hp with rfl | hp
    · cases hm : p.isMixed with
      | false => rfl
      | true =>
        rw [validateProperty] at hr
        by_cases hn : earlier.any (·.name == p.name) = true
        · rw [if_pos hn] at hr
          exact absurd hr (by simp)
        · rw [if_neg hn, if_pos (by rw [hm, he]; rfl)] at hr
          exact absurd hr (by simp)
    · exact ih hrest (by rw [List.any_cons, he, Bool.or_true]) hp

/-- A valid type declares mixed content at most once. -/
theorem mixed_position_unique {types : List String} {d : TypeDeclaration}
    {earlier rest : List Property} (h : validateProperties types d earlier rest = .ok ())
    {i j : Nat} {a b : Property} (ha : rest[i]? = some a) (hb : rest[j]? = some b)
    (hma : a.isMixed = true) (hmb : b.isMixed = true) : i = j := by
  induction rest generalizing earlier i j with
  | nil => simp at ha
  | cons r rest ih =>
    rw [validateProperties, bind_eq_ok] at h
    obtain ⟨_, -, hrest⟩ := h
    -- The first of the two is among the earlier ones when the second is looked at.
    cases i with
    | zero =>
      cases j with
      | zero => rfl
      | succ j =>
        rw [List.getElem?_cons_zero, Option.some.injEq] at ha
        rw [List.getElem?_cons_succ] at hb
        have := not_mixed_of_earlier hrest (by rw [List.any_cons, ha, hma, Bool.true_or])
          (List.mem_of_getElem? hb)
        rw [hmb] at this
        exact absurd this (by simp)
    | succ i =>
      cases j with
      | zero =>
        rw [List.getElem?_cons_zero, Option.some.injEq] at hb
        rw [List.getElem?_cons_succ] at ha
        have := not_mixed_of_earlier hrest (by rw [List.any_cons, hb, hmb, Bool.true_or])
          (List.mem_of_getElem? ha)
        rw [hma] at this
        exact absurd this (by simp)
      | succ j =>
        rw [List.getElem?_cons_succ] at ha hb
        exact congrArg (· + 1) (ih hrest ha hb)

theorem memberOf_eq_none_of_mixed {d : TypeDeclaration} {p : Property}
    (h : validateMember d p = .ok ()) (hm : p.isMixed = true) : p.memberOf = none := by
  rw [validateMember] at h
  cases ho : p.memberOf with
  | none => rfl
  | some owner =>
    simp only [ho, hm, Bool.not_true, Bool.and_false, Bool.false_eq_true, if_false] at h
    exact absurd h (by simp)

/-! ## Resolution -/

theorem types_resolve {ds : List TypeDeclaration} {i : Nat} {type : NodeType}
    (h : (resolve ds).types[i]? = some type) : ∃ d, ds[i]? = some d ∧ type = resolveType ds d := by
  rw [resolve, List.getElem?_map, Option.map_eq_some_iff] at h
  obtain ⟨d, hd, rfl⟩ := h
  exact ⟨d, hd, rfl⟩

theorem feature_resolve {ds : List TypeDeclaration} {t : TypeId} {p : PropertyId} {g : Feature}
    (h : (resolve ds).feature t p = .ok g) : ∃ d r, ds[t.index]? = some d ∧
      d.properties[p.index]? = some r ∧ g = resolveProperty ds d r := by
  obtain ⟨type, ht, hg⟩ := feature_eq_ok.mp h
  obtain ⟨d, hd, rfl⟩ := types_resolve ht
  rw [resolveType, List.getElem?_map, Option.map_eq_some_iff] at hg
  obtain ⟨r, hr, rfl⟩ := hg
  exact ⟨d, r, hd, hr, rfl⟩

theorem mixedOf?_resolve {ds : List TypeDeclaration} {t : TypeId} {d : TypeDeclaration}
    (hd : ds[t.index]? = some d) : (resolve ds).mixedOf? t = d.mixed? := by
  simp only [mixedOf?, resolve, List.getElem?_map, hd, Option.map_some, Option.bind_eq_bind,
    Option.bind_some]
  rfl

theorem mixed?_eq_some {d : TypeDeclaration} {p : PropertyId} (h : d.mixed? = some p) :
    ∃ r, d.properties[p.index]? = some r ∧ r.isMixed = true := by
  rw [TypeDeclaration.mixed?, Option.map_eq_some_iff] at h
  obtain ⟨i, hi, rfl⟩ := h
  obtain ⟨hlt, hm, -⟩ := List.findIdx?_eq_some_iff_getElem.mp hi
  exact ⟨_, List.getElem?_eq_getElem hlt, hm⟩

theorem validate_eq_ok {ds : List TypeDeclaration} (h : validate ds = .ok ()) {d : TypeDeclaration}
    (hd : d ∈ ds) :
    validateProperties (ds.map (·.name)) d [] d.properties = .ok () ∧
      ∀ r ∈ d.properties, validateMember d r = .ok () := by
  rw [validate, bind_eq_ok] at h
  obtain ⟨_, -, h⟩ := h
  have := forM_eq_ok.mp h d hd
  rw [validateType, bind_eq_ok] at this
  obtain ⟨_, hp, hm⟩ := this
  exact ⟨hp, forM_eq_ok.mp hm⟩

/-- **A built schema is coherent.** -/
theorem coherent_of_build {ds : List TypeDeclaration} {s : Schema} (h : build ds = .ok s) :
    s.Coherent := by
  rw [build] at h
  cases hv : validate ds with
  | error flaw => simp [hv] at h
  | ok _ =>
    rw [hv] at h
    obtain rfl : resolve ds = s := Except.ok.inj h
    refine ⟨fun t p g hg hm => ?_, fun t p hp => ?_, fun t p g m hg ho => ?_⟩
    · -- Mixed content is many, is no member, and is the only one of its type.
      obtain ⟨d, r, hd, hr, rfl⟩ := feature_resolve hg
      have hm : r.isMixed = true := hm
      obtain ⟨hprops, hmembers⟩ := validate_eq_ok hv (List.mem_of_getElem? hd)
      refine ⟨?_, ?_, ?_⟩
      · show (r.many || r.isMixed) = true
        rw [hm, Bool.or_true]
      · have hnone := memberOf_eq_none_of_mixed (hmembers r (List.mem_of_getElem? hr)) hm
        simp only [resolveProperty, hnone]
        rfl
      · rw [mixedOf?_resolve hd]
        cases hx : d.mixed? with
        | none =>
          rw [TypeDeclaration.mixed?, Option.map_eq_none_iff, List.findIdx?_eq_none_iff] at hx
          have := hx r (List.mem_of_getElem? hr)
          rw [hm] at this
          exact absurd this (by simp)
        | some q =>
          obtain ⟨r', hr', hm'⟩ := mixed?_eq_some hx
          have := mixed_position_unique hprops hr' hr hm' hm
          exact congrArg some (PropertyId.ext this)
    · cases ht : ds[t.index]? with
      | none =>
        simp [mixedOf?, resolve, List.getElem?_map, ht] at hp
      | some d =>
        rw [mixedOf?_resolve ht] at hp
        obtain ⟨r, hr, hm⟩ := mixed?_eq_some hp
        refine ⟨resolveProperty ds d r, feature_eq_ok.mpr ⟨resolveType ds d, ?_, ?_⟩, hm⟩
        · rw [resolve, List.getElem?_map, ht]
          rfl
        · rw [resolveType, List.getElem?_map, hr]
          rfl
    · -- A member belongs to the mixed content of its type.
      obtain ⟨d, r, hd, hr, rfl⟩ := feature_resolve hg
      rw [mixedOf?_resolve hd]
      cases hmem : r.memberOf with
      | none => simp [resolveProperty, hmem] at ho
      | some owner => simpa [resolveProperty, hmem] using ho

/-! ## Defaults -/

/-- What holds of every property of every type holds of the whole table. -/
theorem forall_feature_iff {s : Schema} {P : Feature → Prop} :
    (∀ t p g, s.feature t p = .ok g → P g) ↔ ∀ type ∈ s.types, ∀ g ∈ type.features, P g := by
  constructor
  · intro h type ht g hg
    obtain ⟨i, hi⟩ := List.getElem?_of_mem ht
    obtain ⟨j, hj⟩ := List.getElem?_of_mem hg
    exact h ⟨i⟩ ⟨j⟩ g (feature_eq_ok.mpr ⟨type, hi, hj⟩)
  · intro h t p g hg
    obtain ⟨type, ht, hgt⟩ := feature_eq_ok.mp hg
    exact h type (List.mem_of_getElem? ht) g (List.mem_of_getElem? hgt)

theorem plainDefaults_iff {s : Schema} : s.PlainDefaults ↔
    ∀ type ∈ s.types, ∀ g ∈ type.features, g.owner = none → ∀ e ∈ g.restValue.entries,
      ∀ h ∈ type.features[e.property.index]?, h.owns = true → e.value.node? = none := by
  constructor
  · intro hs type ht g hg ho e he h hh
    obtain ⟨i, hi⟩ := List.getElem?_of_mem ht
    obtain ⟨j, hj⟩ := List.getElem?_of_mem hg
    exact hs ⟨i⟩ ⟨j⟩ g (feature_eq_ok.mpr ⟨type, hi, hj⟩) ho e he h
      (feature_eq_ok.mpr ⟨type, hi, hh⟩)
  · intro hs t p g hg ho e he h hh
    obtain ⟨type, ht, hgt⟩ := feature_eq_ok.mp hg
    obtain ⟨type', ht', hht⟩ := feature_eq_ok.mp hh
    rw [ht, Option.some.injEq] at ht'
    subst ht'
    exact hs type (List.mem_of_getElem? ht) g (List.mem_of_getElem? hgt) ho e he h hht

instance (s : Schema) : Decidable s.NullContainment := decidable_of_iff _ forall_feature_iff.symm

instance (s : Schema) : Decidable s.OwningMembers := decidable_of_iff _ forall_feature_iff.symm

instance (s : Schema) : Decidable s.PlainDefaults := decidable_of_iff _ plainDefaults_iff.symm

end Schema

/-! ## Schemas to try things on -/

namespace Notebook

/-- Pages hold parts and mentions of other pages, interleaved in their body, and pages of
their own. -/
def types : List TypeDeclaration :=
  [{ name := "Page"
     properties := [
       { name := "body", role := .mixed },
       { name := "parts", role := .containment, many := true, memberOf := some "body" },
       { name := "mentions", role := .reference, many := true, memberOf := some "body" },
       { name := "pages", role := .containment, many := true },
       { name := "title", role := .attribute }] }]

def schema : Schema := Schema.resolve types

def body : PropertyId := ⟨0⟩

def parts : PropertyId := ⟨1⟩

def mentions : PropertyId := ⟨2⟩

def pages : PropertyId := ⟨3⟩

def title : PropertyId := ⟨4⟩

theorem build_types : Schema.build types = .ok schema := rfl

theorem schema_regular : schema.Regular := ⟨Schema.coherent_of_build build_types, by decide, by decide⟩

end Notebook

namespace Outline

/-- Entries below entries, with titles. -/
def types : List TypeDeclaration :=
  [{ name := "Entry"
     properties := [
       { name := "entries", role := .containment, many := true },
       { name := "title", role := .attribute }] }]

def schema : Schema := Schema.resolve types

def entries : PropertyId := ⟨0⟩

def title : PropertyId := ⟨1⟩

theorem build_types : Schema.build types = .ok schema := rfl

end Outline

namespace Checklist

/-- Tasks with steps, which are tasks to be done after one another. -/
def types : List TypeDeclaration :=
  [{ name := "Task"
     properties := [
       { name := "steps", role := .containment, many := true },
       { name := "after", role := .reference, targetName := some "Task" },
       { name := "done", role := .attribute, scalar := .bool, default := .bool false }] }]

def schema : Schema := Schema.resolve types

def steps : PropertyId := ⟨0⟩

def after : PropertyId := ⟨1⟩

def done : PropertyId := ⟨2⟩

end Checklist

namespace Necklace

/-- Beads, each of which holds the next one. If nothing else was said it is the first one of
all. -/
def types : List TypeDeclaration :=
  [{ name := "Bead"
     properties := [{ name := "next", role := .containment, default := .node ⟨0⟩ }] }]

def schema : Schema := Schema.resolve types

def next : PropertyId := ⟨0⟩

end Necklace

end TrackedGraph
