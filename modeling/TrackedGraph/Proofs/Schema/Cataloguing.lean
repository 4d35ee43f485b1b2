/-
A schema built in place.

Node types are handed in as descriptors, and a descriptor may come from a schema that was built
before. Then there are positions in it from that schema: of its mixed content, of the targets
and the owners of its properties, and of the names in its table. Building goes over each
descriptor twice and writes new positions over the old ones. The first pass over the properties
of a type numbers their names, notes the mixed content and finds the targets; the second pass
finds the owners, for which it needs the tables of the first.

Nothing that was in a descriptor shows in what is built (`Catalogue.build_endsAs`): building in
place is building from the declarations alone, with the same schema, the same answers from the
tables and the same error. The invariant of the first pass is `Draft.Of`, in which owners are
left open, as they may still be the old ones.
-/
import TrackedGraph.Proofs.Schema.Declaring
import Mathlib.Data.List.Forall2

set_option autoImplicit false

namespace TrackedGraph

/-- A node type with the table in which its properties are found. -/
structure Descriptor extends NodeType where
  byName : Std.HashMap String PropertyId := {}

/-- What a descriptor declares. -/
def Descriptor.declaration (d : Descriptor) : TypeDeclaration :=
  ⟨d.name, d.features.map (·.toProperty)⟩

@[simp] theorem Descriptor.declaration_name (d : Descriptor) : d.declaration.name = d.name := rfl

/-- The descriptor of a type that was never built. -/
def TypeDeclaration.descriptor (d : TypeDeclaration) : Descriptor where
  name := d.name
  features := d.properties.map fun p => { toProperty := p }

/-- A schema with a table in which its types are found. -/
structure Catalogue where
  types : List Descriptor
  byName : Std.HashMap String TypeId

/-- What is known of a type after some of its properties. -/
structure Draft where
  byName : Std.HashMap String PropertyId := {}
  mixed : Option PropertyId := none
  /-- The properties so far, with the owners that they came with. -/
  features : List Feature := []

namespace Draft

variable (typeName : String) (types : Std.HashMap String TypeId)

/-- The type that references from a property must point to. -/
def target (f : Feature) : Except Schema.Flaw (Option TypeId) :=
  match f.targetName with
  | some name =>
    if f.role.refers then
      match types[name]? with
      | some t => .ok (some t)
      | none => .error (.unknownTarget typeName f.name name)
    else .ok none
  | none => .ok none

/-- The first pass at one property. -/
def add (w : Draft) (f : Feature) : Except Schema.Flaw Draft :=
  if w.byName.contains f.name then .error (.repeatedProperty typeName f.name)
  else if f.isMixed && w.mixed.isSome then .error (.secondMixed typeName)
  else do
    let target ← target typeName types f
    let id : PropertyId := ⟨w.features.length⟩
    return {
      byName := w.byName.insert f.name id
      mixed := if f.isMixed then some id else w.mixed
      features := w.features ++ [{ f with many := f.many || f.isMixed, target := target }] }

/-- The second pass at one property. -/
def join (w : Draft) (f : Feature) : Except Schema.Flaw Feature :=
  match f.memberOf with
  | none => .ok { f with owner := none }
  | some name =>
    let owner := w.byName[name]?.filter fun p => some p == w.mixed
    if owner.isNone || f.isMixed then .error (.invalidMember typeName f.name name)
    else .ok { f with owner := owner }

end Draft

/-- Writes the positions of its names into a type. -/
def Descriptor.settle (types : Std.HashMap String TypeId) (d : Descriptor) :
    Except Schema.Flaw Descriptor := do
  let w ← d.features.foldlM (Draft.add d.name types) {}
  let features ← w.features.mapM (w.join d.name)
  return { name := d.name, features := features, mixed := w.mixed, byName := w.byName }

namespace Catalogue

/-- Numbers the names of types. -/
def number (table : Std.HashMap String TypeId) (next : Nat) :
    List Descriptor → Except Schema.Flaw (Std.HashMap String TypeId)
  | [] => .ok table
  | d :: rest =>
    if table.contains d.name then .error (.repeatedType d.name)
    else number (table.insert d.name ⟨next⟩) (next + 1) rest

def settle (ds : List Descriptor) : Except Schema.Flaw Catalogue := do
  let byName ← number {} 0 ds
  let types ← ds.mapM (·.settle byName)
  return { types := types, byName := byName }

/-- **Building in place**, from descriptors that may have been built before. -/
def build (ds : List Descriptor) : Except Fault Catalogue :=
  match settle ds with
  | .ok c => .ok c
  | .error flaw => .error (.flawedSchema flaw.message)

/-- The schema without its tables. -/
def schema (c : Catalogue) : Schema := ⟨c.types.map (·.toNodeType)⟩

/-- A type, as the table finds it. -/
def typeNamed (c : Catalogue) (name : String) : Except Fault TypeId :=
  match c.byName[name]? with
  | some t => .ok t
  | none => .error (.noType name)

/-- A property, as the table of the type finds it. -/
def propertyNamed (c : Catalogue) (t : TypeId) (name : String) : Except Fault PropertyId :=
  match c.types[t.index]? with
  | some d => match d.byName[name]? with
    | some p => .ok p
    | none => .error (.noProperty d.name name)
  | none => .error (.noType (Schema.unknownLabel t))

/-- The same schema, with tables that answer as it does. -/
structure Shows (c : Catalogue) (s : Schema) : Prop where
  schema : c.schema = s
  typeNamed : ∀ name, c.typeNamed name = s.typeNamed name
  propertyNamed : ∀ t name, c.propertyNamed t name = s.propertyNamed t name

end Catalogue

/-! ## Running side by side -/

/-- Both end well, with results in the relation, or both end with the same error. -/
inductive EndsAs {ε α β : Type} (R : α → β → Prop) : Except ε α → Except ε β → Prop where
  | ok {a : α} {b : β} (h : R a b) : EndsAs R (.ok a) (.ok b)
  | error (e : ε) : EndsAs R (.error e) (.error e)

namespace EndsAs

variable {ε α β γ δ : Type} {R : α → β → Prop} {S : γ → δ → Prop}
  {x : Except ε α} {y : Except ε β}

theorem bind {f : α → Except ε γ} {g : β → Except ε δ} (h : EndsAs R x y)
    (hk : ∀ a b, y = .ok b → R a b → EndsAs S (f a) (g b)) : EndsAs S (x >>= f) (y >>= g) := by
  cases h with
  | ok h => exact hk _ _ rfl h
  | error e => exact .error e

theorem bind_left {f : α → Except ε γ} {S : γ → β → Prop} (h : EndsAs R x y)
    (hk : ∀ a b, R a b → EndsAs S (f a) (.ok b)) : EndsAs S (x >>= f) y := by
  cases h with
  | ok h => exact hk _ _ h
  | error e => exact .error e

theorem mono {R' : α → β → Prop} (h : EndsAs R x y) (hR : ∀ a b, R a b → R' a b) :
    EndsAs R' x y := by
  cases h with
  | ok h => exact .ok (hR _ _ h)
  | error e => exact .error e

/-- Two lists, gone through side by side, the one for results and the other for a judgement. -/
theorem mapM_forM {T : δ → γ → Prop} {f : α → Except ε γ} {g : δ → Except ε Unit} {l : List α}
    {m : List δ} (h : List.Forall₂ (fun a b => EndsAs (fun c _ => T b c) (f a) (g b)) l m) :
    EndsAs (fun cs _ => List.Forall₂ T m cs) (l.mapM f) (m.forM g) := by
  induction h with
  | nil => exact .ok .nil
  | @cons a b l m hab _ ih =>
    rw [List.mapM_cons]
    apply bind hab
    intro c _ _ hc
    apply bind_left ih
    intro cs _ hcs
    exact .ok (.cons hc hcs)

end EndsAs

variable {ds : List TypeDeclaration} {d : Descriptor} {types : Std.HashMap String TypeId}

/-! ## The table of types -/

/-- The table has the declared names at their positions. -/
def Numbers (types : Std.HashMap String TypeId) (ds : List TypeDeclaration) : Prop :=
  ∀ name, types[name]? = (ds.findIdx? (·.name == name)).map TypeId.mk

/-- Numbering goes wrong where a name is repeated. Otherwise the names that were in the table keep
their numbers, and others get them in turn. -/
theorem Catalogue.number_endsAs {l : List Descriptor} {seen : List String} (next : Nat)
    (h : ∀ name, types.contains name = true ↔ name ∈ seen) :
    EndsAs (fun table _ => ∀ name, table[name]? = types[name]?.or
        (((l.map (·.declaration)).findIdx? (·.name == name)).map fun i => ⟨next + i⟩))
      (number types next l) (Schema.validateNames seen (l.map (·.declaration))) := by
  induction l generalizing types seen next with
  | nil =>
    apply EndsAs.ok
    intro name
    simp
  | cons d rest ih =>
    rw [number, List.map_cons, Schema.validateNames]
    by_cases hd : types.contains d.name = true
    · rw [if_pos hd, if_pos (show d.declaration.name ∈ seen from (h d.name).mp hd)]
      exact .error _
    · rw [if_neg hd, if_neg (show d.declaration.name ∉ seen from fun hs => hd ((h d.name).mpr hs))]
      have hseen : ∀ name, (types.insert d.name ⟨next⟩).contains name = true ↔
          name ∈ d.declaration.name :: seen := by
        intro name
        rw [Std.HashMap.contains_insert, Bool.or_eq_true, h, List.mem_cons, beq_iff_eq, eq_comm]
        rfl
      have hnew : types[d.name]? = none :=
        Std.HashMap.getElem?_eq_none_of_contains_eq_false (by simpa using hd)
      apply (ih (next + 1) hseen).mono
      intro table _ htable name
      rw [htable, Std.HashMap.getElem?_insert, List.findIdx?_cons]
      by_cases hname : d.name = name
      · subst hname
        rw [if_pos (beq_self_eq_true _), hnew,
          Descriptor.declaration_name, if_pos (beq_self_eq_true _)]
        rfl
      · -- A name further on has one position more in front of it.
        rw [if_neg (by simpa using hname), if_neg (by simpa using hname), Option.map_map]
        congr 2
        funext i
        exact congrArg TypeId.mk (by show next + 1 + i = next + (i + 1); omega)

theorem Catalogue.number_numbers (l : List Descriptor) :
    EndsAs (fun table _ => Numbers table (l.map (·.declaration))) (number {} 0 l)
      (Schema.validateNames [] (l.map (·.declaration))) := by
  have hempty : ∀ name, ({} : Std.HashMap String TypeId).contains name = true ↔ name ∈ [] := by
    simp
  apply (number_endsAs (l := l) 0 hempty).mono
  intro table _ htable name
  rw [htable, Std.HashMap.getElem?_empty, Option.none_or]
  simp only [Nat.zero_add]

/-! ## The first pass -/

/-- All that is in a property but its owner comes from the declaration. -/
def Drafted (ds : List TypeDeclaration) (p : Property) (f : Feature) : Prop :=
  ∀ d, { f with owner := (Schema.resolveProperty ds d p).owner } = Schema.resolveProperty ds d p

/-- What a draft has in it after properties with the given declarations. -/
structure Draft.Of (ds : List TypeDeclaration) (ps : List Property) (w : Draft) : Prop where
  features : List.Forall₂ (Drafted ds) ps w.features
  byName : ∀ name, w.byName[name]? = (ps.findIdx? (·.name == name)).map PropertyId.mk
  mixed : w.mixed = (ps.findIdx? (·.isMixed)).map PropertyId.mk

namespace Draft

variable {w : Draft} {f : Feature} {ps : List Property}

theorem of_nil : Draft.Of ds [] {} := ⟨.nil, fun _ => by simp, rfl⟩

theorem Of.contains (h : w.Of ds ps) {name : String} :
    w.byName.contains name = ps.any (·.name == name) := by
  rw [Std.HashMap.contains_eq_isSome_getElem?, h.byName, Option.isSome_map, List.findIdx?_isSome]

theorem Of.isSome_mixed (h : w.Of ds ps) : w.mixed.isSome = ps.any (·.isMixed) := by
  rw [h.mixed, Option.isSome_map, List.findIdx?_isSome]

theorem target_endsAs (ht : Numbers types ds) {d : TypeDeclaration} :
    EndsAs (fun t _ => t = (Schema.resolveProperty ds d f.toProperty).target)
      (target d.name types f)
      (match f.targetName with
        | some target =>
          if f.role.refers && !(ds.map (·.name)).contains target then
            .error (.unknownTarget d.name f.name target)
          else .ok ()
        | none => .ok ()) := by
  unfold target Schema.resolveProperty
  cases hn : f.targetName with
  | none => exact .ok (by simp)
  | some name =>
    cases hr : f.role.refers with
    | false => exact .ok (by simp)
    | true =>
      -- A name that is found among the types is one that is declared.
      have hdeclared : (ds.map (·.name)).contains name =
          (ds.findIdx? (·.name == name)).isSome := by
        rw [List.findIdx?_isSome, Bool.eq_iff_iff, List.contains_iff_mem, List.mem_map,
          List.any_eq_true]
        simp only [beq_iff_eq]
      simp only [hdeclared, ht name, if_true, Bool.true_and]
      cases hi : ds.findIdx? (·.name == name) with
      | none => exact .error _
      | some i => exact .ok (by simp [hi])

/-- The first pass keeps the draft in step with the declarations. -/
theorem add_endsAs (ht : Numbers types ds) (h : w.Of ds ps) {d : TypeDeclaration} :
    EndsAs (fun w' _ => w'.Of ds (ps ++ [f.toProperty])) (w.add d.name types f)
      (Schema.validateProperty (ds.map (·.name)) d ps.reverse f.toProperty) := by
  rw [add, Schema.validateProperty, h.contains, h.isSome_mixed, List.any_reverse,
    List.any_reverse]
  -- Both sides look for the same flaws in the same order, and go wrong together.
  by_cases hname : ps.any (·.name == f.name) = true
  · rw [if_pos hname, if_pos hname]
    exact .error _
  rw [if_neg hname, if_neg hname]
  by_cases hmixed : (f.isMixed && ps.any (·.isMixed)) = true
  · rw [if_pos hmixed, if_pos hmixed]
    exact .error _
  rw [if_neg hmixed, if_neg hmixed]
  apply EndsAs.bind_left (target_endsAs ht)
  rintro t - rfl
  -- The property is numbered by how many there are before it.
  have hlength : w.features.length = ps.length := h.features.length_eq.symm
  refine .ok ⟨?_, ?_, ?_⟩
  · apply List.rel_append h.features
    exact .cons (fun _ => rfl) .nil
  · intro name
    rw [Std.HashMap.getElem?_insert, h.byName, hlength, List.findIdx?_append]
    by_cases hf : f.name = name
    · subst hf
      have hnew : ps.findIdx? (·.name == f.name) = none := by
        rw [← Option.isNone_iff_eq_none, ← Option.not_isSome, List.findIdx?_isSome]
        simpa using hname
      simp [hnew]
    · simp [hf]
  · have hold : f.isMixed = true → ps.findIdx? (·.isMixed) = none := by
      intro hf
      rw [hf, Bool.true_and] at hmixed
      rwa [← Option.not_isSome_iff_eq_none, List.findIdx?_isSome]
    rw [h.mixed, hlength, List.findIdx?_append]
    cases hf : f.isMixed with
    | false => simp [hf]
    | true => simp [hf, hold hf]

/-- The first pass over a type. -/
theorem foldlM_add_endsAs (ht : Numbers types ds) (h : w.Of ds ps) {d : TypeDeclaration}
    (fs : List Feature) :
    EndsAs (fun w' _ => w'.Of ds (ps ++ fs.map (·.toProperty))) (fs.foldlM (add d.name types) w)
      (Schema.validateProperties (ds.map (·.name)) d ps.reverse (fs.map (·.toProperty))) := by
  induction fs generalizing w ps with
  | nil => exact .ok (by simpa using h)
  | cons f fs ih =>
    rw [List.foldlM_cons, List.map_cons, Schema.validateProperties]
    apply EndsAs.bind (add_endsAs ht h)
    intro w' _ _ h'
    have hfs := ih h'
    rwa [List.reverse_append, List.append_assoc] at hfs

/-! ## The second pass -/

/-- Where names are distinct, a name is that of the mixed content if both are first found at one
position. -/
theorem mixedName?_eq_some_iff_findIdx? {d : TypeDeclaration} {name : String}
    (h : (d.properties.map (·.name)).Nodup) : d.mixedName? = some name ↔
      ∃ p, d.mixed? = some p ∧ d.properties.findIdx? (·.name == name) = some p.index := by
  simp only [findIdx?_eq_some_iff_of_nodup h, TypeDeclaration.mixedName?, TypeDeclaration.mixed?,
    Option.map_eq_some_iff, List.find?_eq_some_iff_getElem, List.findIdx?_eq_some_iff_getElem]
  constructor
  · rintro ⟨q, ⟨hq, i, hi, rfl, hfirst⟩, hname⟩
    refine ⟨⟨i⟩, ⟨i, ⟨hi, hq, ?_⟩, rfl⟩, _, List.getElem?_eq_getElem hi, hname⟩
    intro j hj
    simpa using hfirst j hj
  · rintro ⟨_, ⟨i, ⟨hi, hq, hfirst⟩, rfl⟩, q, hget, hname⟩
    obtain rfl : d.properties[i] = q := (List.getElem_eq_iff hi).mpr hget
    refine ⟨_, ⟨hq, i, hi, rfl, ?_⟩, hname⟩
    intro j hj
    simpa using hfirst j hj

/-- The second pass finds the mixed content of the type, if it is that which a member names. -/
theorem Of.filter_byName {d : TypeDeclaration} (h : w.Of ds d.properties)
    (hnames : (d.properties.map (·.name)).Nodup) (name : String) :
    (w.byName[name]?.filter fun p => some p == w.mixed) =
      if d.mixedName? = some name then d.mixed? else none := by
  have hmixed : w.mixed = d.mixed? := h.mixed
  rw [h.byName, hmixed]
  by_cases hname : d.mixedName? = some name
  · obtain ⟨p, hp, hi⟩ := (mixedName?_eq_some_iff_findIdx? hnames).mp hname
    rw [if_pos hname, hi, hp]
    simp
  · rw [if_neg hname, Option.filter_eq_none_iff]
    intro p hp hx
    obtain ⟨i, hi, rfl⟩ := Option.map_eq_some_iff.mp hp
    have hx : some ⟨i⟩ = d.mixed? := by simpa using hx
    exact hname ((mixedName?_eq_some_iff_findIdx? hnames).mpr ⟨⟨i⟩, hx.symm, hi⟩)

theorem join_endsAs {d : TypeDeclaration} {p : Property} (h : w.Of ds d.properties)
    (hnames : (d.properties.map (·.name)).Nodup) (hf : Drafted ds p f) :
    EndsAs (fun f' _ => f' = Schema.resolveProperty ds d p) (w.join d.name f)
      (Schema.validateMember d p) := by
  have hmember : f.memberOf = p.memberOf := congrArg (·.memberOf) (hf d)
  have hmixed : f.isMixed = p.isMixed := congrArg (·.isMixed) (hf d)
  have hname : f.name = p.name := congrArg (·.name) (hf d)
  have hresolve : ∀ owner, owner = (Schema.resolveProperty ds d p).owner →
      { f with owner := owner } = Schema.resolveProperty ds d p := by
    rintro owner rfl
    exact hf d
  rw [join, Schema.validateMember, hmember]
  cases hm : p.memberOf with
  | none => exact .ok (hresolve none (by simp [Schema.resolveProperty, hm]))
  | some name =>
    simp only [h.filter_byName hnames, hmixed, hname]
    by_cases hx : d.mixedName? = some name
    · -- The member names the mixed content, and may only fail by being mixed content itself.
      have howner : d.mixed? = (Schema.resolveProperty ds d p).owner := by
        simp [Schema.resolveProperty, hm]
      obtain ⟨q, hq, -⟩ := (mixedName?_eq_some_iff_findIdx? hnames).mp hx
      rw [hx, if_pos rfl, beq_self_eq_true, hq, Option.isNone_some]
      cases p.isMixed with
      | true => exact .error _
      | false => exact .ok (hresolve (some q) (hq.symm.trans howner))
    · rw [if_neg hx, beq_false_of_ne hx]
      exact .error _

end Draft

/-- A type that both passes went over. -/
structure Descriptor.Settled (ds : List TypeDeclaration) (d : TypeDeclaration) (d' : Descriptor) :
    Prop where
  type : d'.toNodeType = Schema.resolveType ds d
  byName : ∀ name, d'.byName[name]? = d'.propertyNamed? name

theorem Descriptor.settle_endsAs (ht : Numbers types ds) :
    EndsAs (fun d' _ => d'.Settled ds d.declaration) (d.settle types)
      (Schema.validateType (ds.map (·.name)) d.declaration) := by
  rw [settle, Schema.validateType]
  have hdraft := Draft.foldlM_add_endsAs ht Draft.of_nil d.features (d := d.declaration)
  apply EndsAs.bind hdraft
  intro w _ hvalid hw
  -- The second pass looks names up, which finds the right ones only if they are distinct.
  have hnames : (d.declaration.properties.map (·.name)).Nodup :=
    (Schema.validateProperties_eq_ok_iff.mp hvalid).1.1
  have hjoined : EndsAs
      (fun fs _ => List.Forall₂ (fun p f => f = Schema.resolveProperty ds d.declaration p)
        d.declaration.properties fs)
      (w.features.mapM (w.join d.name))
      (d.declaration.properties.forM (Schema.validateMember d.declaration)) := by
    apply EndsAs.mapM_forM
    apply hw.features.flip.imp
    intro f p hf
    exact Draft.join_endsAs hw hnames hf
  apply hjoined.bind_left
  intro fs _ hfs
  apply EndsAs.ok
  obtain rfl : fs = d.declaration.properties.map (Schema.resolveProperty ds d.declaration) := by
    symm
    rw [← List.forall₂_eq_eq_eq, List.forall₂_map_left_iff]
    exact hfs.imp fun _ _ h => h.symm
  refine ⟨?_, fun name => ?_⟩
  · show NodeType.mk d.name _ w.mixed = _
    rw [hw.mixed]
    rfl
  · show w.byName[name]? = _
    rw [hw.byName, NodeType.propertyNamed?, List.findIdx?_map]
    rfl

namespace Catalogue

variable {c : Catalogue} {s : Schema}

/-- Tables that have the names at their positions answer as the schema does. -/
theorem shows_of_tables (hs : c.schema = s)
    (htypes : ∀ name, c.byName[name]? = (s.types.findIdx? (·.name == name)).map TypeId.mk)
    (hproperties : ∀ d ∈ c.types, ∀ name, d.byName[name]? = d.propertyNamed? name) :
    c.Shows s := by
  refine ⟨hs, fun name => ?_, fun t name => ?_⟩
  · rw [typeNamed, Schema.typeNamed, htypes]
    cases s.types.findIdx? (·.name == name) <;> rfl
  · subst hs
    unfold propertyNamed Schema.propertyNamed Schema.nodeType
    rw [schema, List.getElem?_map]
    cases hd : c.types[t.index]? with
    | none => rfl
    | some d =>
      simp only [hproperties d (List.mem_of_getElem? hd)]
      show _ = (match d.propertyNamed? name with
        | some p => Except.ok p
        | none => Except.error (Fault.noProperty d.name name))
      cases d.propertyNamed? name <;> rfl

theorem settle_endsAs (l : List Descriptor) :
    EndsAs (fun c _ => c.Shows (Schema.resolve (l.map (·.declaration)))) (settle l)
      (Schema.validate (l.map (·.declaration))) := by
  rw [settle, Schema.validate]
  apply EndsAs.bind (number_numbers l)
  intro table _ _ htable
  have hsettled : EndsAs
      (fun ds' _ => List.Forall₂ (fun d d' => d'.Settled (l.map (·.declaration)) d)
        (l.map (·.declaration)) ds')
      (l.mapM (·.settle table))
      ((l.map (·.declaration)).forM
        (Schema.validateType ((l.map (·.declaration)).map (·.name)))) := by
    apply EndsAs.mapM_forM
    rw [List.forall₂_map_right_iff, List.forall₂_same]
    exact fun d _ => Descriptor.settle_endsAs htable
  -- The names are fine; the types are settled one by one, each checked as it is validated.
  apply hsettled.bind_left
  intro ds' _ hds
  refine .ok (shows_of_tables ?_ ?_ ?_)
  · rw [schema, Schema.resolve, Schema.mk.injEq, ← List.forall₂_eq_eq_eq,
      List.forall₂_map_left_iff, List.forall₂_map_right_iff]
    exact hds.flip.imp fun _ _ h => h.type
  · intro name
    rw [htable, Schema.resolve]
    simp only [List.findIdx?_map]
    rfl
  · have htables := hds.flip.imp fun d _ h => And.intro h.byName h
    exact ((List.forall₂_and_left _ _).mp htables).1

/-- **Building in place is building from the declarations**, whatever positions were in the
descriptors. -/
theorem build_endsAs (l : List Descriptor) :
    EndsAs Shows (build l) (Schema.build (l.map (·.declaration))) := by
  have h := settle_endsAs l
  rw [build, Schema.build]
  generalize settle l = x at h
  generalize Schema.validate (l.map (·.declaration)) = y at h
  cases h with
  | ok h => exact .ok h
  | error flaw => exact .error _

theorem Shows.self (h : c.Shows s) : c.Shows c.schema := by
  obtain rfl := h.schema
  exact h

/-- **Which descriptors make a schema, and which schema they make.** They do exactly if what they
declare is consistent. The schema is the one that the declarations make, it says of them what they
say themselves, and its tables find what is in it. -/
theorem accepts_and_renders (l : List Descriptor) :
    EndsAs Shows (build l) (Schema.build (l.map (·.declaration))) ∧
    ((∃ c, build l = .ok c) ↔ Schema.Consistent (l.map (·.declaration))) ∧
    ∀ c, build l = .ok c → c.schema.Renders (l.map (·.declaration)) ∧ c.Shows c.schema := by
  refine ⟨build_endsAs l, ?_⟩
  have h := build_endsAs l
  generalize build l = x at h
  generalize hy : Schema.build (l.map (·.declaration)) = y at h
  cases h with
  | ok h =>
    obtain ⟨hconsistent, rfl⟩ := Schema.build_eq_ok_iff.mp hy
    refine ⟨iff_of_true ⟨_, rfl⟩ hconsistent, ?_⟩
    rintro _ ⟨⟩
    refine ⟨?_, h.self⟩
    rw [h.schema]
    exact Schema.renders_resolve hconsistent
  | error e =>
    have hflawed : ¬ Schema.Consistent (l.map (·.declaration)) := by
      intro hconsistent
      rw [Schema.build_eq_ok_iff.mpr ⟨hconsistent, rfl⟩] at hy
      exact absurd hy (by simp)
    exact ⟨iff_of_false (by simp) hflawed, fun c hc => absurd hc (by simp)⟩

end Catalogue

/-- Whatever is declared, there are descriptors that declare it. -/
@[simp] theorem TypeDeclaration.declaration_descriptor (d : TypeDeclaration) :
    d.descriptor.declaration = d := by
  rw [Descriptor.declaration, descriptor, List.map_map]
  exact congrArg (TypeDeclaration.mk d.name) (List.map_id _)

namespace Notebook

/-- The types of a notebook, with positions that meant something elsewhere. -/
def reused : List Descriptor :=
  Notebook.types.map fun d =>
    { d.descriptor with
      features := d.descriptor.features.map fun f =>
        { f with target := some ⟨7⟩, owner := some pages }
      mixed := some title
      byName := .insert {} "body" parts }

/-- Positions from elsewhere do not show. -/
theorem build_reused : ∃ c, Catalogue.build reused = .ok c ∧ c.schema = schema := by
  have hdeclared : reused.map (·.declaration) = Notebook.types := rfl
  obtain ⟨hends, hbuilds, -⟩ := Catalogue.accepts_and_renders reused
  obtain ⟨c, hc⟩ := hbuilds.mpr (by rw [hdeclared]; decide)
  rw [hc, hdeclared, build_types] at hends
  cases hends with
  | ok h => exact ⟨c, hc, h.schema⟩

end Notebook

end TrackedGraph
