/-
Declarations that make a schema, and the schema that they make.

Building looks for flaws one after the other and stops at the first, and it looks at each
property beside those declared before it. What it comes to does not depend on any order:
declarations are accepted exactly if they are consistent (`Schema.validate_eq_ok_iff`), which
is said of the types by name and of each type by its properties as a whole
(`Schema.Consistent`). The induction goes over the properties that are still to come, and what
it has to know of those before is their names and whether one of them is mixed content.

A schema that was built says of its declarations what they say themselves, with positions in
place of names (`Schema.Renders`).
-/
import TrackedGraph.Proofs.Schema.Coherent

set_option autoImplicit false

namespace TrackedGraph

/-- The properties of a type fit together, where types of the given names are declared. -/
@[mk_iff]
structure TypeDeclaration.Consistent (types : List String) (d : TypeDeclaration) : Prop where
  names : (d.properties.map (·.name)).Nodup
  mixed : d.properties.countP (·.isMixed) ≤ 1
  /-- A reference that names its target names a type. -/
  targets : ∀ p ∈ d.properties, p.role.refers = true → ∀ name ∈ p.targetName, name ∈ types
  /-- A member names mixed content of its type and is no mixed content itself. -/
  members : ∀ p ∈ d.properties, ∀ owner ∈ p.memberOf, p.isMixed = false ∧
    ∃ q ∈ d.properties, q.isMixed = true ∧ q.name = owner

/-- **Declarations fit together.** -/
@[mk_iff]
structure Schema.Consistent (ds : List TypeDeclaration) : Prop where
  names : (ds.map (·.name)).Nodup
  types : ∀ d ∈ ds, d.Consistent (ds.map (·.name))

instance (types : List String) (d : TypeDeclaration) : Decidable (d.Consistent types) :=
  decidable_of_iff _ (d.consistent_iff types).symm

instance (ds : List TypeDeclaration) : Decidable (Schema.Consistent ds) :=
  decidable_of_iff _ (Schema.consistent_iff ds).symm

theorem check_bind_eq_ok {ε β : Type} {x : Except ε Unit} {k : Unit → Except ε β} {b : β} :
    x >>= k = .ok b ↔ x = .ok () ∧ k () = .ok b := by
  rw [bind_eq_ok]
  exact Unique.exists_iff

/-- Of two elements of one kind that is there once at most. -/
theorem eq_of_countP_le_one {α : Type} {q : α → Bool} {l : List α} {a b : α}
    (h : l.countP q ≤ 1) (ha : a ∈ l) (hb : b ∈ l) (hqa : q a = true) (hqb : q b = true) :
    a = b := by
  have ha' : a ∈ l.filter q := List.mem_filter.mpr ⟨ha, hqa⟩
  have hb' : b ∈ l.filter q := List.mem_filter.mpr ⟨hb, hqb⟩
  rw [List.countP_eq_length_filter] at h
  cases hl : l.filter q with
  | nil =>
    rw [hl] at ha'
    exact absurd ha' List.not_mem_nil
  | cons x xs =>
    obtain rfl : xs = [] := by
      apply List.eq_nil_of_length_eq_zero
      rw [hl, List.length_cons] at h
      omega
    rw [hl, List.mem_singleton] at ha' hb'
    rw [ha', hb']

/-- Where names are distinct, the first position of a name is the only one. -/
theorem findIdx?_eq_some_iff_of_nodup {α : Type} {f : α → String} {l : List α} {name : String}
    {i : Nat} (h : (l.map f).Nodup) :
    l.findIdx? (f · == name) = some i ↔ ∃ a, l[i]? = some a ∧ f a = name := by
  rw [List.findIdx?_eq_some_iff_getElem]
  constructor
  · rintro ⟨hi, hname, -⟩
    exact ⟨l[i], List.getElem?_eq_getElem hi, by simpa using hname⟩
  · rintro ⟨a, ha, hname⟩
    obtain ⟨hi, rfl⟩ := List.getElem?_eq_some_iff.mp ha
    refine ⟨hi, by simpa using hname, ?_⟩
    intro k hk
    have hkl : k < (l.map f).length := by rw [List.length_map]; omega
    have hil : i < (l.map f).length := by rwa [List.length_map]
    have hne : f l[k] ≠ f l[i] := by
      intro heq
      rw [← List.getElem_map f (h := hkl), ← List.getElem_map f (h := hil)] at heq
      have hki : k = i := h.getElem_inj_iff.mp heq
      omega
    rw [hname] at hne
    simpa using hne

namespace Schema

variable {types : List String} {d : TypeDeclaration} {ds : List TypeDeclaration}
  {earlier rest : List Property} {p : Property} {s : Schema}

/-! ## What is accepted -/

theorem validateNames_eq_ok_iff {seen : List String} : validateNames seen ds = .ok () ↔
    (ds.map (·.name)).Nodup ∧ ∀ d ∈ ds, d.name ∉ seen := by
  induction ds generalizing seen with
  | nil => simp [validateNames]
  | cons d rest ih =>
    rw [validateNames, List.map_cons, List.nodup_cons, List.forall_mem_cons]
    by_cases h : d.name ∈ seen
    · rw [if_pos h]
      simp [h]
    · rw [if_neg h, ih]
      simp only [List.mem_cons, not_or, List.mem_map, not_exists, not_and]
      constructor
      · rintro ⟨hnodup, hrest⟩
        exact ⟨⟨fun e he => (hrest e he).1, hnodup⟩, h, fun e he => (hrest e he).2⟩
      · rintro ⟨⟨hnew, hnodup⟩, -, hrest⟩
        exact ⟨hnodup, fun e he => ⟨hnew e he, hrest e he⟩⟩

theorem validateProperty_eq_ok_iff : validateProperty types d earlier p = .ok () ↔
    (∀ q ∈ earlier, q.name ≠ p.name) ∧ (p.isMixed = true → ∀ q ∈ earlier, q.isMixed = false) ∧
      (p.role.refers = true → ∀ name ∈ p.targetName, name ∈ types) := by
  rw [validateProperty]
  by_cases hname : earlier.any (·.name == p.name) = true
  · rw [if_pos hname]
    obtain ⟨q, hq, heq⟩ := List.any_eq_true.mp hname
    refine iff_of_false (by simp) ?_
    rintro ⟨hnew, -⟩
    exact hnew q hq (by simpa using heq)
  rw [if_neg hname]
  have hnew : ∀ q ∈ earlier, q.name ≠ p.name := by
    intro q hq heq
    exact hname (List.any_eq_true.mpr ⟨q, hq, by simpa using heq⟩)
  by_cases hmixed : (p.isMixed && earlier.any (·.isMixed)) = true
  · rw [if_pos hmixed]
    obtain ⟨hp, hany⟩ := Bool.and_eq_true_iff.mp hmixed
    obtain ⟨q, hq, hx⟩ := List.any_eq_true.mp hany
    refine iff_of_false (by simp) ?_
    rintro ⟨-, hone, -⟩
    have := hone hp q hq
    rw [hx] at this
    exact absurd this (by simp)
  rw [if_neg hmixed]
  have hone : p.isMixed = true → ∀ q ∈ earlier, q.isMixed = false := by
    intro hp q hq
    by_contra hx
    refine hmixed (Bool.and_eq_true_iff.mpr ⟨hp, List.any_eq_true.mpr ⟨q, hq, ?_⟩⟩)
    simpa using hx
  rw [and_iff_right hnew, and_iff_right hone]
  cases ht : p.targetName with
  | none => simp
  | some target => cases hr : p.role.refers <;> simp

/-- Properties are accepted beside earlier ones if their names are new, if mixed content is declared
once at most, and if the targets are there. -/
theorem validateProperties_eq_ok_iff : validateProperties types d earlier rest = .ok () ↔
    ((rest.map (·.name)).Nodup ∧ ∀ p ∈ rest, ∀ q ∈ earlier, q.name ≠ p.name) ∧
    (rest.countP (·.isMixed) ≤ 1 ∧
      ∀ p ∈ rest, p.isMixed = true → ∀ q ∈ earlier, q.isMixed = false) ∧
    ∀ p ∈ rest, p.role.refers = true → ∀ name ∈ p.targetName, name ∈ types := by
  induction rest generalizing earlier with
  | nil => simp [validateProperties]
  | cons p rest ih =>
    rw [validateProperties, check_bind_eq_ok]
    simp only [ih, validateProperty_eq_ok_iff, List.map_cons, List.nodup_cons,
      List.forall_mem_cons]
    -- Of two properties the later one is looked at beside the earlier one.
    have hnames : (∀ r ∈ rest, p.name ≠ r.name) ↔ p.name ∉ rest.map (·.name) := by
      simp [List.mem_map, eq_comm]
    have hcount : (p :: rest).countP (·.isMixed) ≤ 1 ↔ rest.countP (·.isMixed) ≤ 1 ∧
        ∀ r ∈ rest, r.isMixed = true → p.isMixed = false := by
      rw [List.countP_cons]
      cases hp : p.isMixed with
      | false => simp
      | true =>
        simp only [if_true, Bool.true_eq_false, imp_false]
        have hnone : (∀ r ∈ rest, ¬ r.isMixed = true) ↔ rest.countP (·.isMixed) = 0 :=
          List.countP_eq_zero.symm
        rw [hnone]
        omega
    rw [hcount, ← hnames]
    simp only [forall_and]
    tauto

/-- Where mixed content is declared once, its name is that of any property which declares it. -/
theorem mixedName?_eq_some_iff {owner : String} (h : d.properties.countP (·.isMixed) ≤ 1) :
    d.mixedName? = some owner ↔ ∃ q ∈ d.properties, q.isMixed = true ∧ q.name = owner := by
  rw [TypeDeclaration.mixedName?, Option.map_eq_some_iff]
  constructor
  · rintro ⟨q, hq, hname⟩
    exact ⟨q, List.mem_of_find?_eq_some hq, List.find?_some hq, hname⟩
  · rintro ⟨q, hq, hx, hname⟩
    obtain ⟨r, hr⟩ := Option.isSome_iff_exists.mp (List.find?_isSome.mpr ⟨q, hq, hx⟩)
    refine ⟨r, hr, ?_⟩
    rw [eq_of_countP_le_one h (List.mem_of_find?_eq_some hr) hq (List.find?_some hr) hx]
    exact hname

theorem validateMember_eq_ok_iff (h : d.properties.countP (·.isMixed) ≤ 1) :
    validateMember d p = .ok () ↔ ∀ owner ∈ p.memberOf, p.isMixed = false ∧
      ∃ q ∈ d.properties, q.isMixed = true ∧ q.name = owner := by
  rw [validateMember]
  cases ho : p.memberOf with
  | none => simp
  | some owner =>
    simp only [Option.mem_some_iff, forall_eq', ← mixedName?_eq_some_iff h]
    cases p.isMixed <;> simp

/-- **Declarations are accepted exactly if they are consistent.** -/
theorem validate_eq_ok_iff : validate ds = .ok () ↔ Consistent ds := by
  rw [validate, check_bind_eq_ok, validateNames_eq_ok_iff, forM_eq_ok]
  have htype : ∀ d, validateType (ds.map (·.name)) d = .ok () ↔ d.Consistent (ds.map (·.name)) := by
    intro d
    rw [validateType, check_bind_eq_ok, validateProperties_eq_ok_iff, forM_eq_ok]
    constructor
    · rintro ⟨⟨⟨hnames, -⟩, ⟨hmixed, -⟩, htargets⟩, hmembers⟩
      refine ⟨hnames, hmixed, htargets, ?_⟩
      intro p hp
      exact (validateMember_eq_ok_iff hmixed).mp (hmembers p hp)
    · intro h
      refine ⟨⟨⟨h.names, ?_⟩, ⟨h.mixed, ?_⟩, h.targets⟩, ?_⟩
      · exact fun _ _ q hq => absurd hq List.not_mem_nil
      · exact fun _ _ _ q hq => absurd hq List.not_mem_nil
      · exact fun p hp => (validateMember_eq_ok_iff h.mixed).mpr (h.members p hp)
  simp only [htype]
  constructor
  · rintro ⟨⟨hnames, -⟩, htypes⟩
    exact ⟨hnames, htypes⟩
  · intro h
    exact ⟨⟨h.names, fun _ _ => List.not_mem_nil⟩, h.types⟩

/-- A schema can be built exactly from consistent declarations, and what is built is their
resolution. -/
theorem build_eq_ok_iff : build ds = .ok s ↔ Consistent ds ∧ s = resolve ds := by
  rw [← validate_eq_ok_iff, build]
  cases validate ds with
  | error flaw => simp
  | ok _ => simp [eq_comm]

/-! ## What is said of the declarations -/

/-- **The schema says of the declarations what they say themselves**, with positions for names. -/
structure Renders (s : Schema) (ds : List TypeDeclaration) : Prop where
  names : s.types.map (·.name) = ds.map (·.name)
  typeNamed : ∀ name t, s.typeNamed name = .ok t ↔ ∃ d, ds[t.index]? = some d ∧ d.name = name
  propertyNamed : ∀ t name p, s.propertyNamed t name = .ok p ↔
    ∃ d r, ds[t.index]? = some d ∧ d.properties[p.index]? = some r ∧ r.name = name
  /-- A type has the properties that it declares, as it declares them, but mixed content is
  many-valued in any case. -/
  feature : ∀ t p g, s.feature t p = .ok g → ∃ d r, ds[t.index]? = some d ∧
    d.properties[p.index]? = some r ∧ g.toProperty = { r with many := r.many || r.isMixed }
  declared : ∀ t p d r, ds[t.index]? = some d → d.properties[p.index]? = some r →
    ∃ g, s.feature t p = .ok g
  many : ∀ t p g, s.feature t p = .ok g → g.isMixed = true → g.many = true
  /-- A reference points to nodes of the type that it names. -/
  target : ∀ t p g, s.feature t p = .ok g → g.role.refers = true → ∀ name ∈ g.targetName,
    ∃ u, s.typeNamed name = .ok u ∧ g.target = some u
  noTarget : ∀ t p g, s.feature t p = .ok g → g.role.refers = false ∨ g.targetName = none →
    g.target = none
  mixed : ∀ t p, s.mixedOf? t = some p ↔ ∃ g, s.feature t p = .ok g ∧ g.isMixed = true
  /-- A member belongs to the mixed content of its type, which it names. -/
  owner : ∀ t p g, s.feature t p = .ok g → ∀ name ∈ g.memberOf,
    ∃ m, s.propertyNamed t name = .ok m ∧ s.mixedOf? t = some m ∧ g.owner = some m
  noOwner : ∀ t p g, s.feature t p = .ok g → g.memberOf = none → g.owner = none

/-- A type is found under a name at the first position that declares it. -/
theorem typeNamed_resolve {name : String} {t : TypeId} : (resolve ds).typeNamed name = .ok t ↔
    ds.findIdx? (·.name == name) = some t.index := by
  have hfind : (resolve ds).types.findIdx? (·.name == name) = ds.findIdx? (·.name == name) := by
    rw [resolve, List.findIdx?_map]
    rfl
  rw [typeNamed, hfind]
  cases ds.findIdx? (·.name == name) with
  | none => simp
  | some i => simp [TypeId.ext_iff]

theorem feature_resolve_iff {t : TypeId} {p : PropertyId} {g : Feature} :
    (resolve ds).feature t p = .ok g ↔ ∃ d r, ds[t.index]? = some d ∧
      d.properties[p.index]? = some r ∧ g = resolveProperty ds d r := by
  constructor
  · exact feature_resolve
  · rintro ⟨d, r, hd, hr, rfl⟩
    refine feature_eq_ok.mpr ⟨resolveType ds d, ?_, ?_⟩
    · rw [resolve, List.getElem?_map, hd]
      rfl
    · rw [resolveType, List.getElem?_map, hr]
      rfl

theorem propertyNamed_resolve {t : TypeId} {name : String} {p : PropertyId} :
    (resolve ds).propertyNamed t name = .ok p ↔ ∃ d, ds[t.index]? = some d ∧
      d.properties.findIdx? (·.name == name) = some p.index := by
  unfold propertyNamed nodeType
  rw [resolve, List.getElem?_map]
  cases ds[t.index]? with
  | none => simp
  | some d =>
    have hfind : (resolveType ds d).features.findIdx? (·.name == name) =
        d.properties.findIdx? (·.name == name) := by
      rw [resolveType, List.findIdx?_map]
      rfl
    simp only [Option.map_some, bind_ok, NodeType.propertyNamed?, hfind]
    cases hi : d.properties.findIdx? (·.name == name) with
    | none => simp [hi]
    | some i => simp [hi, PropertyId.ext_iff]

/-- **What a schema built from consistent declarations says of them.** -/
theorem renders_resolve (h : Consistent ds) : (resolve ds).Renders ds := by
  have hcoherent : (resolve ds).Coherent := coherent_of_build (build_eq_ok_iff.mpr ⟨h, rfl⟩)
  have htype : ∀ name t, (resolve ds).typeNamed name = .ok t ↔
      ∃ d, ds[t.index]? = some d ∧ d.name = name := by
    intro name t
    rw [typeNamed_resolve]
    exact findIdx?_eq_some_iff_of_nodup h.names
  have hproperty : ∀ t name p, (resolve ds).propertyNamed t name = .ok p ↔
      ∃ d r, ds[t.index]? = some d ∧ d.properties[p.index]? = some r ∧ r.name = name := by
    intro t name p
    rw [propertyNamed_resolve]
    refine exists_congr fun d => ?_
    rw [exists_and_left]
    refine and_congr_right fun hd => ?_
    exact findIdx?_eq_some_iff_of_nodup (h.types d (List.mem_of_getElem? hd)).names
  have hmixed : ∀ t p, (resolve ds).mixedOf? t = some p ↔
      ∃ g, (resolve ds).feature t p = .ok g ∧ g.isMixed = true := by
    intro t p
    constructor
    · exact hcoherent.mixedOf t p
    · rintro ⟨g, hg, hx⟩
      exact (hcoherent.mixed t p g hg hx).2.2
  refine ⟨?_, htype, hproperty, ?_, ?_, ?_, ?_, ?_, hmixed, ?_, ?_⟩
  · rw [resolve, List.map_map]
    rfl
  · intro t p g hg
    obtain ⟨d, r, hd, hr, rfl⟩ := feature_resolve hg
    exact ⟨d, r, hd, hr, rfl⟩
  · intro t p d r hd hr
    exact ⟨_, feature_resolve_iff.mpr ⟨d, r, hd, hr, rfl⟩⟩
  · intro t p g hg hx
    exact (hcoherent.mixed t p g hg hx).1
  · -- That the name of the target is declared was checked, so it is found.
    intro t p g hg hr name hname
    obtain ⟨d, r, hd, hp, rfl⟩ := feature_resolve hg
    have hr : r.role.refers = true := hr
    have hname : r.targetName = some name := hname
    have hdeclared : name ∈ ds.map (·.name) :=
      (h.types d (List.mem_of_getElem? hd)).targets r (List.mem_of_getElem? hp) hr name hname
    obtain ⟨e, he, heq⟩ := List.mem_map.mp hdeclared
    obtain ⟨i, hi⟩ := List.getElem?_of_mem he
    have hfound : ds.findIdx? (·.name == name) = some i :=
      (findIdx?_eq_some_iff_of_nodup h.names).mpr ⟨e, hi, heq⟩
    refine ⟨⟨i⟩, typeNamed_resolve.mpr hfound, ?_⟩
    simp [resolveProperty, hr, hname, hfound]
  · intro t p g hg hnone
    obtain ⟨d, r, -, -, rfl⟩ := feature_resolve hg
    rcases hnone with hr | hname
    · have hr : r.role.refers = false := hr
      simp [resolveProperty, hr]
    · have hname : r.targetName = none := hname
      simp [resolveProperty, hname]
  · -- That the name is one of mixed content was checked, and a type has no second one.
    intro t p g hg name hname
    obtain ⟨d, r, hd, hp, rfl⟩ := feature_resolve hg
    have hname : r.memberOf = some name := hname
    obtain ⟨-, q, hq, hx, hqname⟩ := (h.types d (List.mem_of_getElem? hd)).members r
      (List.mem_of_getElem? hp) name hname
    obtain ⟨i, hi⟩ := List.getElem?_of_mem hq
    have hmixedOf : (resolve ds).mixedOf? t = some ⟨i⟩ :=
      (hmixed t ⟨i⟩).mpr ⟨_, feature_resolve_iff.mpr ⟨d, q, hd, hi, rfl⟩, hx⟩
    refine ⟨⟨i⟩, (hproperty t name ⟨i⟩).mpr ⟨d, q, hd, hi, hqname⟩, hmixedOf, ?_⟩
    rw [mixedOf?_resolve hd] at hmixedOf
    simp [resolveProperty, hname, hmixedOf]
  · intro t p g hg hname
    obtain ⟨d, r, -, -, rfl⟩ := feature_resolve hg
    have hname : r.memberOf = none := hname
    simp [resolveProperty, hname]

end Schema

end TrackedGraph
