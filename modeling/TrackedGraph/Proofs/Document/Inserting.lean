/-
Insertions.

An insertion that succeeds has put the item at its position, and nothing else is different, but
that a child which sat elsewhere is gone from there (`Forest.Receives`). The slot that it leaves
loses just this child. There is one exception: what a single-valued property rests at is not
checked and may name several nodes, and the slot is emptied as a whole, so that the others sit
nowhere afterwards (`Forest.Shares`).

Where nobody refuses, an insertion into a list succeeds exactly if it is allowed
(`Forest.AllowsItem`), which is a matter of the schema, the list and the places above it.
-/
import TrackedGraph.Proofs.Document.Settling
import TrackedGraph.Proofs.Document.Walking

set_option autoImplicit false

namespace TrackedGraph

variable {τ : Type} {d : Document τ} {n c m : NodeId} {p q : PropertyId} {i : Nat} {v item : Value}

namespace Forest

variable {f f' : Forest} {s t : Slot} {incoming : Option NodeId}

/-! ## What an insertion leaves -/

/-- **A slot comes to hold a value, and with it a child, or none**, which sits under the property
`q` of the node then. The slot where the child was listed before loses it. All other slots are as
they were, and so are the places of all other nodes, unless they shared a single value with the
child: then they sit nowhere. -/
structure Receives (f : Forest) (n : NodeId) (p : PropertyId) (s : Slot) (q : PropertyId)
    (incoming : Option NodeId) (f' : Forest) : Prop where
  schema : f'.schema = f.schema
  types : ∀ m, f'.typeOf m = f.typeOf m
  slot : f'.slot n p = .ok s
  former : ∀ c place, incoming = some c → f.place? c = some place → ∃ host g t t',
    f.Hosts place host g ∧ (place.container, host) ≠ (n, p) ∧
      f.slot place.container host = .ok t ∧ f'.slot place.container host = .ok t' ∧
      Slot.Loses place.property c g t t'
  others : ∀ m r, (m, r) ≠ (n, p) →
    (∀ c place host g, incoming = some c → f.place? c = some place → f.Hosts place host g →
      (m, r) ≠ (place.container, host)) → f'.slot m r = f.slot m r
  place : ∀ c, incoming = some c → f'.place? c = some ⟨n, q⟩
  displaced : ∀ c m, incoming = some c → m ≠ c → f.Shares c m → f'.place? m = none
  places : ∀ m, (∀ c, incoming = some c → m ≠ c ∧ ¬ f.Shares c m) → f'.place? m = f.place? m

/-- A value that brings no child changes its slot alone. -/
theorem receives_write (hs : f.slot n p = .ok s) :
    f.Receives n p t q none (f.write n p t [] []) where
  schema := schema_write
  types _ := typeOf_write
  slot := slot_write_self hs
  former _ _ h := absurd h (by simp)
  others _ _ hne _ := slot_write_of_ne (Ne.symm hne)
  place _ h := absurd h (by simp)
  displaced _ _ h := absurd h (by simp)
  places m _ := by
    rw [place?_write_of_not_taken (by simp), if_neg (by simp)]

/-- **Writing a slot after the child that comes in is released.** -/
theorem Orderly.receives (hf : f.Orderly) (hs : f.slot n p = .ok s) (hc : f.contains c = true)
    (hnew : c ∉ (f.claims n p s.value).map Prod.fst) :
    f.Receives n p t q (some c) ((f.without c).write n p t [] [(c, q)]) := by
  have hs' := hf.slot_without hs hnew
  refine ⟨schema_write.trans schema_without, fun _ => typeOf_write.trans typeOf_without,
    slot_write_self hs', ?_, ?_, ?_, ?_, ?_⟩
  · rintro c place ⟨⟩ hp
    obtain ⟨w, host, g, u, rfl, rfl, h⟩ := hf.exists_found hp
    -- The child sat in another slot, which loses it and is not written after that.
    have hne := h.ne_of_not_mem hf hs hnew
    refine ⟨host, g, u, u.without w.position, h.hosts, hne, h.slot, ?_, h.loses hf⟩
    rw [slot_write_of_ne (Ne.symm hne), h.without_eq, slot_write_self h.slot]
  · intro m r hne hother
    rw [slot_write_of_ne (Ne.symm hne)]
    cases hp : f.place? c with
    | none => rw [without_of_none hp]
    | some place =>
      obtain ⟨w, host, g, u, rfl, rfl, h⟩ := hf.exists_found hp
      rw [h.without_eq, slot_write_of_ne (Ne.symm (hother _ _ _ _ rfl hp h.hosts))]
  · rintro c ⟨⟩
    exact place?_write_of_taken (by simp) (contains_without.trans hc) (by simp)
  · rintro c m ⟨⟩ hne hshares
    rw [place?_write_of_not_taken (by simpa using hne), if_neg (by simp),
      hf.place?_without_of_shares hshares]
  · intro m hm
    obtain ⟨hne, hshares⟩ := hm c rfl
    rw [place?_write_of_not_taken (by simpa using hne), if_neg (by simp),
      hf.place?_without hne hshares]

/-- The same, whether a child comes in or not. -/
theorem Orderly.receives_all (hf : f.Orderly) (hs : f.slot n p = .ok s)
    (hc : ∀ c, incoming = some c → f.contains c = true ∧
      c ∉ (f.claims n p s.value).map Prod.fst) :
    f.Receives n p t q incoming
      ((f.withoutAll incoming.toList).write n p t [] (incoming.toList.map (·, q))) := by
  cases incoming with
  | none => exact receives_write hs
  | some c => exact hf.receives hs (hc c rfl).1 (hc c rfl).2

/-! ## Which items are allowed -/

/-- **The item may be put at the position**: the property is a list with a slot of its own, the
position is one of the list or its end, the schema accepts the item, the node that the item names
exists and is of the right type, and, as a child, it is not above `n`, nor `n` itself, nor in the
list already. -/
structure AllowsItem (f : Forest) (n : NodeId) (p : PropertyId) (g : Feature) (items : List Value)
    (i : Nat) (item : Value) : Prop where
  feature : f.feature n p = .ok g
  many : g.many = true
  unmixed : g.isMixed = false
  direct : g.owner = none
  holds : ∃ isSet, f.slot n p = .ok ⟨.list items, isSet⟩
  bound : i ≤ items.length
  conforms : ∃ t, f.typeOf n = .ok t ∧ f.schema.conformItem t p item = .ok ()
  target : ∀ m, item.node? = some m → ∃ t, f.typeOf m = .ok t ∧ g.target.all (· == t) = true
  newcomer : g.owns = true → ∀ c, item.node? = some c →
    (∀ k, f.ancestor k n ≠ some c) ∧ .node c ∉ items

theorem accepts_iff_conforms {g : Feature} (hg : f.feature n p = .ok g) : f.Accepts n p item ↔
    (∃ t, f.typeOf n = .ok t ∧ f.schema.conformItem t p item = .ok ()) ∧
      ∀ m, item.node? = some m → ∃ t, f.typeOf m = .ok t ∧ g.target.all (· == t) = true := by
  obtain ⟨t, ht, hgt⟩ := feature_eq_ok.mp hg
  simp only [Accepts, hg, ht, Except.ok.injEq, exists_eq_left', conformItem_eq_ok, hgt]

theorem isWithin_eq_false_iff_climb (hf : f.Acyclic) :
    f.isWithin n c = false ↔ ∀ k, f.ancestor k n ≠ some c := by
  rw [isWithin_eq_false_iff hf, within_iff_ancestor, not_exists]

theorem mem_nodes_list {items : List Value} : c ∈ (Value.list items).nodes ↔ .node c ∈ items := by
  constructor
  · intro h
    obtain ⟨x, hx, hc⟩ := List.mem_filterMap.mp h
    rwa [node?_eq_some hc] at hx
  · exact fun h => List.mem_filterMap.mpr ⟨_, h, rfl⟩

/-- **An item is admitted exactly if it is allowed.** -/
theorem admitItem_iff (hf : f.Acyclic) :
    (∃ incoming, f.admitItem n p i item = .ok incoming) ↔
      ∃ g items, f.AllowsItem n p g items i item := by
  simp only [admitItem_eq_ok, itemsOf_eq_ok]
  constructor
  · rintro ⟨incoming, g, items, hg, ⟨g', ⟨v, isSet⟩, hg', ho, hm, hx, hs, rfl⟩, hi, ha, rfl, hnew⟩
    obtain rfl := ok_unique hg hg'
    obtain ⟨hconforms, htarget⟩ := (accepts_iff_conforms hg).mp ha
    refine ⟨g, items, hg, hm, hx, ho, ⟨isSet, hs⟩, hi, hconforms, htarget, fun hown c hc => ?_⟩
    rw [hown, if_pos rfl] at hnew
    obtain ⟨hwithin, s', hs', hnot⟩ := requireNewcomer_eq_ok.mp (hnew c hc)
    obtain rfl := ok_unique hs hs'
    exact ⟨(isWithin_eq_false_iff_climb hf).mp hwithin, fun hin => hnot (mem_nodes_list.mpr hin)⟩
  · rintro ⟨g, items, h⟩
    obtain ⟨isSet, hs⟩ := h.holds
    have ha := (accepts_iff_conforms h.feature).mpr ⟨h.conforms, h.target⟩
    refine ⟨_, g, items, h.feature, ⟨g, _, h.feature, h.direct, h.many, h.unmixed, hs, rfl⟩,
      h.bound, ha, rfl, fun c hc => ?_⟩
    split at hc
    · next hown =>
      obtain ⟨hclimb, hnot⟩ := h.newcomer hown c hc
      exact requireNewcomer_eq_ok.mpr ⟨(isWithin_eq_false_iff_climb hf).mpr hclimb, _, hs,
        fun hin => hnot (mem_nodes_list.mp hin)⟩
    · exact absurd hc (by simp)

end Forest

/-! ## Insertions in a reachable document -/

namespace Edit

variable {incoming : Option NodeId}

theorem exists_admitItem (h : (Edit.insert n p i item d).1 = .ok ()) :
    ∃ incoming, d.forest.admitItem n p i item = .ok incoming := by
  obtain ⟨incoming, hin, -⟩ := ok_of_bind_query h
  exact ⟨incoming, hin⟩

theorem exists_admitEntry (h : (Edit.insertMixed n i q v d).1 = .ok ()) :
    ∃ p incoming, d.forest.admitEntry n i q v = .ok (p, incoming) := by
  obtain ⟨⟨p, incoming⟩, hin, -⟩ := ok_of_bind_query h
  exact ⟨p, incoming, hin⟩

/-- **An item that was put into a list** is there, and otherwise only the child it brings has
moved. -/
theorem insert_receives (hf : d.forest.Orderly) (h : (Edit.insert n p i item d).1 = .ok ()) :
    ∃ g items isSet, d.forest.feature n p = .ok g ∧
      d.forest.slot n p = .ok ⟨.list items, isSet⟩ ∧ i ≤ items.length ∧
      d.forest.Receives n p ⟨.list (items.take i ++ item :: items.drop i), true⟩ p
        (if g.owns then item.node? else none) (Edit.insert n p i item d).2.forest := by
  obtain ⟨incoming, hin⟩ := exists_admitItem h
  obtain ⟨g, items, hg, hitems, hi, ha, rfl, hnew⟩ := Forest.admitItem_eq_ok.mp hin
  obtain ⟨_, ⟨v, isSet⟩, -, -, -, -, hs, rfl⟩ := Forest.itemsOf_eq_ok.mp hitems
  refine ⟨g, items, isSet, hg, hs, hi, ?_⟩
  rw [(Settles.insert hf hin hs).of_ok h, ← insertIdx_eq_take_cons_drop hi]
  exact hf.receives_all hs fun c hc => Settles.comes_in hs ha hc (hnew c hc)

/-- **An entry that was put into mixed content** is there, and otherwise only the child it brings
has moved. -/
theorem insertMixed_receives (hf : d.forest.Orderly)
    (h : (Edit.insertMixed n i q v d).1 = .ok ()) :
    ∃ g p entries isSet, d.forest.feature n q = .ok g ∧ g.owner = some p ∧
      d.forest.slot n p = .ok ⟨.mixed entries, isSet⟩ ∧ i ≤ entries.length ∧
      d.forest.Receives n p ⟨.mixed (entries.take i ++ ⟨q, v⟩ :: entries.drop i), true⟩ q
        (if g.owns then v.node? else none) (Edit.insertMixed n i q v d).2.forest := by
  obtain ⟨p, incoming, hin⟩ := exists_admitEntry h
  obtain ⟨g, entries, hg, ho, hes, hi, ha, rfl, hnew⟩ := Forest.admitEntry_eq_ok.mp hin
  obtain ⟨⟨v', isSet⟩, hs, rfl⟩ := Forest.sequence_eq_ok.mp hes
  refine ⟨g, p, entries, isSet, hg, ho, hs, hi, ?_⟩
  rw [(Settles.insertMixed hf hin hs).of_ok h, ← insertIdx_eq_take_cons_drop hi]
  exact hf.receives_all hs fun c hc => Settles.comes_in hs ha hc (hnew c hc)

/-- **An insertion that nobody refuses** succeeds exactly if it is allowed. -/
theorem insert_ok_iff (hf : d.forest.Orderly)
    (hquiet : (Edit.insert n p i item d).2.refusals = d.refusals) :
    (Edit.insert n p i item d).1 = .ok () ↔
      ∃ g items, d.forest.AllowsItem n p g items i item := by
  rw [← Forest.admitItem_iff hf.acyclic]
  -- What is tested beforehand is all that can fail: the rest fails only if somebody refuses.
  refine ⟨exists_admitItem, ?_⟩
  rintro ⟨incoming, hin⟩
  obtain ⟨g, items, -, hitems, -⟩ := Forest.admitItem_eq_ok.mp hin
  obtain ⟨_, s, -, -, -, -, hs, -⟩ := Forest.itemsOf_eq_ok.mp hitems
  obtain ⟨_, hok⟩ := (Settles.insert hf hin hs).of_unrefused hquiet
  exact hok

end Edit

/-- **Insertions**, in every reachable document in which places and slots agree and climbs end,
whatever the schema. One into a list or into mixed content that succeeds has put the item or the
entry at its position, between the others in their old order, and the slot counts as set; nothing
else is different but for the child that it brings (`Forest.Receives`). One into a list, if all
consent or at least nobody refuses, succeeds exactly if it is allowed. -/
theorem Document.Reachable.insertion_receives {schema : Schema}
    {declarations : List TypeDeclaration} (hb : Schema.build declarations = .ok schema)
    (h : d.Reachable schema fun _ _ => True) (ha : d.forest.Agrees)
    (hends : ∀ n, ∃ k, d.forest.ancestor k n = none) :
    (∀ n p i item, (Edit.insert n p i item d).1 = .ok () →
      ∃ g items isSet, d.forest.feature n p = .ok g ∧
        d.forest.slot n p = .ok ⟨.list items, isSet⟩ ∧ i ≤ items.length ∧
        d.forest.Receives n p ⟨.list (items.take i ++ item :: items.drop i), true⟩ p
          (if g.owns then item.node? else none) (Edit.insert n p i item d).2.forest) ∧
    (∀ n i q v, (Edit.insertMixed n i q v d).1 = .ok () →
      ∃ g p entries isSet, d.forest.feature n q = .ok g ∧ g.owner = some p ∧
        d.forest.slot n p = .ok ⟨.mixed entries, isSet⟩ ∧ i ≤ entries.length ∧
        d.forest.Receives n p ⟨.mixed (entries.take i ++ ⟨q, v⟩ :: entries.drop i), true⟩ q
          (if g.owns then v.node? else none) (Edit.insertMixed n i q v d).2.forest) ∧
    ∀ n p i item, (d.audience.Consents ∨ (Edit.insert n p i item d).2.refusals = d.refusals) →
      ((Edit.insert n p i item d).1 = .ok () ↔
        ∃ g items, d.forest.AllowsItem n p g items i item) := by
  have hf := h.orderly (Schema.coherent_of_build hb) ha hends
  refine ⟨fun _ _ _ _ => Edit.insert_receives hf, fun _ _ _ _ => Edit.insertMixed_receives hf,
    fun n p i item hquiet => Edit.insert_ok_iff hf (hquiet.elim (fun hconsents => ?_) id)⟩
  exact Edit.refusals_of_consents hconsents hf.shaped.aligned fun hR => .insert hR _ _

/-! ## An example -/

namespace Workbench

/-- A bench with a shelf and a vise, which by default holds two tools at once. -/
def types : List TypeDeclaration :=
  [{ name := "Bench"
     properties := [
       { name := "vise", role := .containment, default := .list [.node ⟨1⟩, .node ⟨2⟩] },
       { name := "shelf", role := .containment, many := true }] },
   { name := "Tool", properties := [] }]

def schema : Schema := Schema.resolve types

def vise : PropertyId := ⟨0⟩

def shelf : PropertyId := ⟨1⟩

/-- A bench without any tools. -/
def blank : Document Unit where
  forest := ⟨schema, [⟨⟨0⟩, [⟨.list [.node ⟨1⟩, .node ⟨2⟩], false⟩, ⟨.list [], false⟩], none⟩]⟩
  root := ⟨0⟩
  audience := { memory := () }

/-- Both tools are in the vise. -/
def clamped : Document Unit :=
  blank.after [.create "Tool", .create "Tool", .unset ⟨0⟩ vise]

end Workbench

open Workbench in
/-- One of the tools is put on the shelf, and the other one drops out of the vise. -/
theorem Document.Reachable.insertion_receives_clamped :
    let d' := (Edit.insert ⟨0⟩ shelf 0 (.node ⟨1⟩) clamped).2
    (Edit.insert ⟨0⟩ shelf 0 (.node ⟨1⟩) clamped).1 = .ok () ∧
      d'.forest.slot ⟨0⟩ shelf = .ok ⟨.list [.node ⟨1⟩], true⟩ ∧
      d'.forest.place? ⟨1⟩ = some ⟨⟨0⟩, shelf⟩ ∧
      clamped.forest.place? ⟨2⟩ = some ⟨⟨0⟩, vise⟩ ∧ d'.forest.place? ⟨2⟩ = none := by
  intro d'
  have hb : Schema.build types = .ok schema := rfl
  have h : clamped.Reachable schema fun _ _ => True :=
    .edit _ _ (.edit _ _ (.edit _ _ (.new "Bench" () blank rfl) trivial) trivial) trivial
  have ha : clamped.forest.Agrees :=
    (h.shaped (Schema.coherent_of_build hb)).agrees_iff.mpr (by decide +kernel)
  have hends := Forest.acyclic_iff_climbs_end.mp (by decide +kernel : clamped.forest.Acyclic)
  obtain ⟨hinsert, -, hiff⟩ := Document.Reachable.insertion_receives hb h ha hends
  have hconsents : clamped.audience.Consents := Audience.consents_of_seats_eq_nil rfl
  -- Climbs from the bench end at once, so the tool is not above it.
  have hroot : clamped.forest.place? ⟨0⟩ = none := by decide +kernel
  have hclimb : ∀ k, clamped.forest.ancestor k ⟨0⟩ ≠ some ⟨1⟩ := by
    intro k
    cases k with
    | zero => simp [Forest.ancestor]
    | succ k => simp [Forest.ancestor, hroot]
  have hok := (hiff ⟨0⟩ shelf 0 (.node ⟨1⟩) (.inl hconsents)).mpr
    ⟨_, [], rfl, rfl, rfl, rfl, ⟨false, by decide +kernel⟩, by simp, ⟨⟨0⟩, rfl, rfl⟩,
      fun m hm => ⟨⟨1⟩, by cases hm; rfl, rfl⟩, fun _ c hc => by cases hc; exact ⟨hclimb, by simp⟩⟩
  obtain ⟨g, items, isSet, hg, hs, -, hreceives⟩ := hinsert _ _ _ _ hok
  have hempty : clamped.forest.slot ⟨0⟩ shelf = .ok ⟨.list [], false⟩ := by decide +kernel
  rw [hs, Except.ok.injEq, Slot.mk.injEq, Value.list.injEq] at hempty
  obtain ⟨rfl, rfl⟩ := hempty
  obtain rfl : _ = g := Except.ok.inj hg
  have hfirst : clamped.forest.place? ⟨1⟩ = some ⟨⟨0⟩, vise⟩ := by decide +kernel
  have hsecond : clamped.forest.place? ⟨2⟩ = some ⟨⟨0⟩, vise⟩ := by decide +kernel
  exact ⟨hok, hreceives.slot, hreceives.place ⟨1⟩ rfl, hsecond,
    hreceives.displaced ⟨1⟩ ⟨2⟩ rfl (by decide) ⟨_, _, hfirst, hsecond, rfl, rfl, rfl⟩⟩

end TrackedGraph
