/-
Setting many values at once.

To set a list, or mixed content, comes to the same as to unset it and to add the entries one after
the other: both succeed exactly if the entries are admitted (`Forest.Admits`), and both leave the
forest in which the slot is filled anew (`Forest.restock`). The one way tests everything beforehand
and leaves the children alone that the slot has already. The other way frees them and takes them
in again, and tests each entry in the forest that the entries before it have left.

Where mixed content mentions nodes that it does not own, the two can differ: a child is not let in
that an earlier entry mentions. And mixed content cannot be set to an empty list, though it can be
unset with nothing to add.
-/
import TrackedGraph.Proofs.Document.Inserting
import TrackedGraph.Proofs.Forest.Restock

set_option autoImplicit false

namespace TrackedGraph

open Forest (Own)

variable {τ : Type} {d : Document τ} {f : Forest} {n : NodeId} {p : PropertyId} {g : Feature}
  {s : Slot} {e : Entry Value} {es rest : List (Entry Value)}

/-- Appending to a list. -/
theorem Slot.insertItem_length {items : List Value} {item : Value} {isSet : Bool} :
    (⟨.list items, isSet⟩ : Slot).insertItem items.length item = ⟨.list (items ++ [item]), true⟩ :=
  congrArg (fun l => (⟨.list l, true⟩ : Slot)) List.insertIdx_length_self

/-- Appending to mixed content. -/
theorem Slot.insertEntry_length {isSet : Bool} :
    (⟨.mixed es, isSet⟩ : Slot).insertEntry es.length e = ⟨.mixed (es ++ [e]), true⟩ :=
  congrArg (fun l => (⟨.mixed l, true⟩ : Slot)) List.insertIdx_length_self

namespace Edit

variable {isSet : Bool}

/-! ## Adding an entry -/

/-- Adds an entry to mixed content, or its value to a list. -/
def put (g : Feature) (n : NodeId) (p : PropertyId) (e : Entry Value) : Edit τ Unit :=
  if g.isMixed then addMixed n e.property e.value else add n p e.value

section put

variable (hf : d.forest.Orderly) (hg : d.forest.feature n p = .ok g)

include hf hg

/-- An entry that was added is one that the property takes, and its child was let in. -/
theorem takes_of_put (he : g.isMixed = false → e.property = p)
    (h : (put g n p e d).1 = .ok ()) : d.forest.Takes n p g e ∧
    ∀ x ∈ d.forest.newcomers n [e], d.forest.requireNewcomer n p x.1 = .ok () := by
  unfold put at h
  cases hx : g.isMixed with
  | true =>
    rw [hx, if_pos rfl] at h
    obtain ⟨p', hp', h⟩ := ok_of_bind_query h
    obtain ⟨entries, -, h⟩ := ok_of_bind_query h
    obtain ⟨q, incoming, hin⟩ := exists_admitEntry h
    obtain ⟨k, -, hk, hown, -, -, ha, rfl, hnew⟩ := Forest.admitEntry_eq_ok.mp hin
    obtain rfl : q = p := hf.shaped.eq_of_mixed hg hx hk hown
    exact ⟨⟨by rw [if_pos hx]; exact ⟨k, hk, hown⟩, ha⟩, (Forest.forall_newcomers hk).mpr hnew⟩
  | false =>
    rw [hx, if_neg Bool.false_ne_true] at h
    obtain ⟨items, -, h⟩ := ok_of_bind_query h
    obtain ⟨incoming, hin⟩ := exists_admitItem h
    obtain ⟨k, -, hk, -, -, ha, rfl, hnew⟩ := Forest.admitItem_eq_ok.mp hin
    rw [← he hx] at hk ha
    exact ⟨⟨by rw [if_neg (by simp [hx])]; exact he hx, ha⟩, (Forest.forall_newcomers hk).mpr hnew⟩

/-- **An entry that may be added** is appended, and its child moves in. -/
theorem Settles.put (ho : g.owner = none) (hm : g.many = true)
    (hs : d.forest.slot n p = .ok ⟨g.holding es, isSet⟩) (htakes : d.forest.Takes n p g e)
    (hnew : ∀ x ∈ d.forest.newcomers n [e], d.forest.requireNewcomer n p x.1 = .ok ()) :
    (Edit.put g n p e : Edit τ Unit).Settles d
      ((d.forest.withoutAll ((d.forest.newcomers n [e]).map Prod.fst)).write n p
        ⟨g.holding (es ++ [e]), true⟩ [] (d.forest.newcomers n [e])) := by
  have hsuits := htakes.suits
  unfold Edit.put
  cases hx : g.isMixed with
  | true =>
    rw [hx, if_pos rfl] at hsuits
    obtain ⟨k, hk, hown⟩ := hsuits
    rw [Feature.holding_mixed hx] at hs ⊢
    have hes : d.forest.sequence n p = .ok es := Forest.sequence_eq_ok.mpr ⟨_, hs, rfl⟩
    have hin := Forest.admitEntry_eq_ok.mpr ⟨k, es, hk, hown, hes, Nat.le_refl _, htakes.accepts,
      rfl, (Forest.forall_newcomers hk).mp hnew⟩
    have hsettles := Settles.insertMixed hf hin hs
    rw [Slot.insertEntry_length, ← Forest.newcomers_eq hk, ← Forest.map_fst_newcomers hk]
      at hsettles
    exact bind_query (Forest.sequenceOwner_eq_ok.mpr ⟨k, hk, hown⟩) (bind_query hes hsettles)
  | false =>
    rw [hx, if_neg Bool.false_ne_true] at hsuits
    rw [Feature.holding_list hx] at hs ⊢
    have hk := hg
    have ha := htakes.accepts
    rw [← hsuits] at hk
    rw [hsuits] at ha
    have hitems := Forest.itemsOf_eq_ok.mpr ⟨g, _, hg, ho, hm, hx, hs, rfl⟩
    have hin := Forest.admitItem_eq_ok.mpr ⟨g, _, hg, hitems, Nat.le_refl _, ha, rfl,
      (Forest.forall_newcomers hk).mp hnew⟩
    have hsettles := Settles.insert hf hin hs
    have hnewcomers := Forest.newcomers_eq hk
    rw [hsuits] at hnewcomers
    rw [Slot.insertItem_length, ← hnewcomers, ← Forest.map_fst_newcomers hk] at hsettles
    rw [List.map_append]
    exact bind_query hitems hsettles

end put

end Edit

/-! ## Filling a slot -/

section filling

variable (h : f.Restockable n p g s)

include h

namespace Edit

/-- One entry that is admitted is added. -/
theorem Settles.put_next (hall : Own p g (es ++ [e])) (hadmits : f.Admits n p g (es ++ [e]))
    (hd : d.forest = f.restock n p g s es) :
    (Edit.put g n p e : Edit τ Unit).Settles d (f.restock n p g s (es ++ [e])) := by
  obtain ⟨hbefore, -, hfresh⟩ := Forest.admits_append_iff.mp hadmits
  obtain ⟨htakes, hnew⟩ := (h.admits_next_iff hall hbefore).mp hadmits
  have hf := h.orderly_restock hall.left hbefore
  have hs : (f.restock n p g s es).slot n p = .ok ⟨g.holding es, !es.isEmpty⟩ :=
    h.orderly.slot_restock h.slot
  have hg : (f.restock n p g s es).feature n p = .ok g := Forest.feature_restock.trans h.feature
  rw [← h.orderly.restock_append h.feature hall.left h.slot hall fun x hx => (hfresh x hx).1,
    ← Forest.newcomers_restock, ← hd]
  rw [← hd] at htakes hnew hf hs hg
  exact Settles.put hf hg h.direct h.many hs htakes hnew

/-- An entry that was added was admitted. -/
theorem admits_of_put (hall : Own p g (es ++ [e])) (hadmits : f.Admits n p g es)
    (hd : d.forest = f.restock n p g s es) (hok : (put g n p e d).1 = .ok ()) :
    f.Admits n p g (es ++ [e]) := by
  have hf := h.orderly_restock hall.left hadmits
  have hg : (f.restock n p g s es).feature n p = .ok g := Forest.feature_restock.trans h.feature
  rw [h.admits_next_iff hall hadmits, ← hd]
  rw [← hd] at hf hg
  exact takes_of_put hf hg (fun hx => hall hx e (by simp)) hok

/-- **Entries that are admitted** are added one after the other. -/
theorem Settles.puts (hall : Own p g (es ++ rest)) (hadmits : f.Admits n p g (es ++ rest))
    (hd : d.forest = f.restock n p g s es) :
    (rest.forM (Edit.put g n p) : Edit τ Unit).Settles d (f.restock n p g s (es ++ rest)) := by
  -- On the entries still to come: those before them are in the slot already.
  induction rest generalizing es d with
  | nil =>
    rw [List.append_nil]
    exact Settles.pure hd
  | cons e rest ih =>
    rw [List.append_cons] at hall hadmits ⊢
    refine Settles.bind (Settles.put_next h hall.left ?_ hd) fun _ _ => ih hall hadmits
    exact hadmits.left

/-- **Entries that were added** one after the other were admitted. -/
theorem admits_of_puts (hall : Own p g (es ++ rest)) (hadmits : f.Admits n p g es)
    (hd : d.forest = f.restock n p g s es)
    (hok : ((rest.forM (put g n p) : Edit τ Unit) d).1 = .ok ()) :
    f.Admits n p g (es ++ rest) := by
  induction rest generalizing es d with
  | nil => rwa [List.append_nil]
  | cons e rest ih =>
    rw [List.append_cons] at hall ⊢
    obtain ⟨_, hput, hok⟩ := ok_of_bind hok
    have hnext := admits_of_put h hall.left hadmits hd hput
    exact ih hall hnext ((Settles.put_next h hall.left hnext hd).of_ok hput) hok

/-- **To unset a slot and add entries** comes to filling it anew, if they are admitted. -/
theorem Settles.unset_puts (hes : Own p g es) (hadmits : f.Admits n p g es) (hd : d.forest = f) :
    (do Edit.unset n p; es.forM (Edit.put g n p) : Edit τ Unit).Settles d
      (f.restock n p g s es) := by
  subst hd
  refine Settles.bind (Settles.unset h.orderly h.feature h.direct h.many h.slot) fun _ d' hd' => ?_
  rw [← Forest.restock_nil h.feature h.many] at hd'
  rw [← List.nil_append es] at hes hadmits
  have hputs := Settles.puts h hes hadmits hd'
  rwa [List.nil_append] at hputs

theorem admits_of_unset_puts (hes : Own p g es) (hd : d.forest = f)
    (hok : ((do Edit.unset n p; es.forM (put g n p) : Edit τ Unit) d).1 = .ok ()) :
    f.Admits n p g es := by
  subst hd
  obtain ⟨_, hunset, hok⟩ := ok_of_bind hok
  have hd' := (Settles.unset h.orderly h.feature h.direct h.many h.slot).of_ok hunset
  rw [← Forest.restock_nil h.feature h.many] at hd'
  rw [← List.nil_append es] at hes ⊢
  exact admits_of_puts h hes Forest.admits_nil hd' hok

/-- **To set a slot to entries** comes to filling it anew as well, if they are admitted. -/
theorem Settles.set_holding (hes : Own p g es) (hadmits : f.Admits n p g es) (hd : d.forest = f) :
    (Edit.set n p (g.holding es) : Edit τ Unit).Settles d (f.restock n p g s es) := by
  subst hd
  obtain ⟨cs, hcs⟩ := (Forest.admitValue_holding_iff h.orderly.acyclic h.feature h.direct h.many
    hes).mpr hadmits
  have hset := Settles.set h.orderly hcs h.feature h.slot
  obtain ⟨-, -, -, -, rfl, -, -⟩ := Forest.admitValue_eq_ok.mp hcs
  rw [h.many, Bool.not_true, Bool.false_or, Feature.isEmpty_holding, h.foreign hes hadmits] at hset
  rw [h.orderly.restock_eq h.feature hes h.slot]
  exact hset

theorem admits_of_set (hes : Own p g es) (hd : d.forest = f)
    (hok : (Edit.set n p (g.holding es) d).1 = .ok ()) : f.Admits n p g es := by
  obtain ⟨cs, hcs, -⟩ := ok_of_bind_query hok
  rw [hd] at hcs
  exact (Forest.admitValue_holding_iff h.orderly.acyclic h.feature h.direct h.many hes).mp ⟨cs, hcs⟩

end Edit

end filling

/-! ## Both ways -/

/-- **Two edits concur**: both succeed or both fail, and the forest is the same if they succeed. -/
def Edit.Concurs (x y : Edit τ Unit) (d : Document τ) : Prop :=
  ((x d).1 = .ok () ↔ (y d).1 = .ok ()) ∧ ((x d).1 = .ok () → (x d).2.forest = (y d).2.forest)

namespace Edit

/-- **Setting a slot to entries** concurs with unsetting it and adding them one after the other. -/
theorem set_concurs (h : d.forest.Restockable n p g s) (hconsents : d.audience.Consents)
    (hes : Own p g es) :
    Concurs (Edit.set n p (g.holding es)) (do unset n p; es.forM (put g n p)) d := by
  have hf := h.orderly.shaped.aligned
  have hset := refusals_of_consents hconsents hf fun hR => Alike.set hR (n := n) (p := p)
    (g.holding es)
  have hputs : ((do unset n p; es.forM (put g n p) : Edit τ Unit) d).2.refusals = d.refusals :=
    refusals_of_consents hconsents hf fun hR => .bind (.unset hR) fun _ =>
      .forM (fun e => .ite (.addMixed hR _ _) (.add hR _)) es
  -- The two are not compared step by step, but each with what is admitted and what is left.
  have hset_iff : (Edit.set n p (g.holding es) d).1 = .ok () ↔ d.forest.Admits n p g es :=
    Settles.ok_iff (admits_of_set h hes rfl)
      (fun hadmits => Settles.set_holding h hes hadmits rfl) hset
  have hputs_iff : ((do unset n p; es.forM (put g n p) : Edit τ Unit) d).1 = .ok () ↔
      d.forest.Admits n p g es :=
    Settles.ok_iff (admits_of_unset_puts h hes rfl)
      (fun hadmits => Settles.unset_puts h hes hadmits rfl) hputs
  refine ⟨hset_iff.trans hputs_iff.symm, fun hok => ?_⟩
  have hadmits := hset_iff.mp hok
  rw [(Settles.set_holding h hes hadmits rfl).of_ok hok,
    (Settles.unset_puts h hes hadmits rfl).of_ok (hputs_iff.mpr hadmits)]

theorem put_of_mixed (hx : g.isMixed = true) :
    put (τ := τ) g n p = fun e => addMixed n e.property e.value :=
  funext fun _ => if_pos hx

/-- To a list, entries are added as values. -/
theorem forM_put_values (hx : g.isMixed = false) (xs : List Value) :
    (xs.map fun x => (⟨p, x⟩ : Entry Value)).forM (put g n p) = xs.forM (add (τ := τ) n p) := by
  induction xs with
  | nil => rfl
  | cons x xs ih =>
    have hput : put (τ := τ) g n p ⟨p, x⟩ = add n p x := if_neg (by simp [hx])
    show (put g n p ⟨p, x⟩ >>= fun _ => _) = (add n p x >>= fun _ => _)
    rw [hput, ih]

/-- **Mixed content is no list**: it cannot be set to one, and nothing can be added to it as to
one. -/
theorem concurs_of_mixed {x : Value} {xs : List Value} (hf : d.forest.Orderly)
    (hg : d.forest.feature n p = .ok g) (hx : g.isMixed = true) :
    Concurs (Edit.set n p (.list (x :: xs))) (do unset n p; (x :: xs).forM (add n p)) d := by
  have hset : (Edit.set n p (.list (x :: xs)) d).1 ≠ .ok () := by
    intro hok
    obtain ⟨cs, hcs, -⟩ := ok_of_bind_query hok
    obtain ⟨g', hg', -, hfits, -⟩ := Forest.admitValue_eq_ok.mp hcs
    obtain rfl := ok_unique hg hg'
    obtain ⟨entries, hv, -⟩ := (Forest.fits_mixed hx).mp hfits
    exact absurd hv (by simp)
  refine ⟨iff_of_false hset fun hok => ?_, fun hok => absurd hok hset⟩
  -- To unset it may succeed, but the first value is refused then.
  obtain ⟨s, hs⟩ := hf.shaped.slot_of_feature n p g hg
  have hunsets := Settles.unset hf hg (hf.shaped.owner_of_mixed hg hx)
    (hf.shaped.many_of_mixed hg hx) hs
  obtain ⟨_, hunset, hok⟩ := ok_of_bind hok
  obtain ⟨_, hadd, -⟩ := ok_of_bind hok
  obtain ⟨items, hitems, -⟩ := ok_of_bind_query hadd
  rw [hunsets.of_ok hunset] at hitems
  obtain ⟨g', -, hg', -, -, hx', -⟩ := Forest.itemsOf_eq_ok.mp hitems
  rw [Forest.feature_write, hg, Except.ok.injEq] at hg'
  rw [← hg', hx] at hx'
  exact absurd hx' (by simp)

section concurs

variable (hf : d.forest.Orderly) (hnull : d.forest.schema.NullContainment)
  (hconsents : d.audience.Consents) (hg : d.forest.feature n p = .ok g)

include hf hnull hconsents hg

/-- **To set a list** concurs with unsetting it and adding the values one after the other. -/
theorem set_list_concurs {xs : List Value} (hm : g.many = true) (ho : g.owner = none)
    (hx : g.isMixed = false) :
    Concurs (Edit.set n p (.list xs)) (do unset n p; xs.forM (add n p)) d := by
  obtain ⟨s, hs⟩ := hf.shaped.slot_of_feature n p g hg
  have hfill : d.forest.Restockable n p g s := ⟨hf, hnull, hg, ho, hm, hs, by simp [hx]⟩
  have hown : Own p g (xs.map fun x => ⟨p, x⟩) := fun _ => by simp
  have hconcurs := set_concurs hfill hconsents hown
  have hvalues : (xs.map fun x => (⟨p, x⟩ : Entry Value)).map (·.value) = xs :=
    (List.map_map).trans (List.map_id xs)
  rwa [forM_put_values hx, Feature.holding_list hx, hvalues] at hconcurs

/-- **To set mixed content** concurs with unsetting it and adding the entries one after the other,
if its members own what they refer to. -/
theorem set_mixed_concurs (hx : g.isMixed = true) (hmembers : d.forest.MembersOwn n p) :
    Concurs (Edit.set n p (.mixed es))
      (do unset n p; es.forM fun e => addMixed n e.property e.value) d := by
  obtain ⟨s, hs⟩ := hf.shaped.slot_of_feature n p g hg
  have hfill : d.forest.Restockable n p g s := ⟨hf, hnull, hg, hf.shaped.owner_of_mixed hg hx,
    hf.shaped.many_of_mixed hg hx, hs, fun _ => hmembers⟩
  have hconcurs := set_concurs hfill hconsents (fun hlist => by simp [hx] at hlist : Own p g es)
  rwa [Feature.holding_mixed hx, put_of_mixed hx] at hconcurs

end concurs

end Edit

/-- **To set many values concurs with unsetting the property and adding them one after the other**,
in every reachable document in which places and slots agree and climbs end, where no containment
property has a default and all consent. This is so for every property with many values and a slot of
its own, and every list of values, but that mixed content cannot be set to the empty list; and for
mixed content and every sequence of entries, if its members own what they refer to. -/
theorem Document.Reachable.set_concurs_adds {schema : Schema} {declarations : List TypeDeclaration}
    (hb : Schema.build declarations = .ok schema) (hnull : schema.NullContainment)
    (h : d.Reachable schema fun _ _ => True) (ha : d.forest.Agrees)
    (hends : ∀ n, ∃ k, d.forest.ancestor k n = none) (hconsents : d.audience.Consents) :
    (∀ n p g xs, d.forest.feature n p = .ok g → g.many = true → g.owner = none →
      (g.isMixed = true → xs ≠ []) →
        (Edit.set n p (.list xs)).Concurs (do Edit.unset n p; xs.forM (Edit.add n p)) d) ∧
    ∀ n p g es, d.forest.feature n p = .ok g → g.isMixed = true → d.forest.MembersOwn n p →
      (Edit.set n p (.mixed es)).Concurs
        (do Edit.unset n p; es.forM fun e => Edit.addMixed n e.property e.value) d := by
  have hf := h.orderly (Schema.coherent_of_build hb) ha hends
  have hnull' : d.forest.schema.NullContainment := by
    rw [h.schema_eq (Schema.coherent_of_build hb)]
    exact hnull
  refine ⟨fun n p g xs hg hm ho hxs => ?_, fun n p g es hg hx hmembers =>
    Edit.set_mixed_concurs hf hnull' hconsents hg hx hmembers⟩
  cases hx : g.isMixed with
  | false => exact Edit.set_list_concurs hf hnull' hconsents hg hm ho hx
  | true =>
    cases xs with
    | nil => exact absurd rfl (hxs hx)
    | cons x xs => exact Edit.concurs_of_mixed hf hg hx

/-! ## An example -/

namespace Scrapbook

/-- Pages with pages below them, and a body of clips, which are pages as well, and captions. -/
def types : List TypeDeclaration :=
  [{ name := "Page"
     properties := [
       { name := "body", role := .mixed },
       { name := "clips", role := .containment, many := true, memberOf := some "body" },
       { name := "captions", role := .attribute, many := true, memberOf := some "body" },
       { name := "pages", role := .containment, many := true }] }]

def schema : Schema := Schema.resolve types

def body : PropertyId := ⟨0⟩

def clips : PropertyId := ⟨1⟩

def captions : PropertyId := ⟨2⟩

def pages : PropertyId := ⟨3⟩

/-- One page. -/
def blank : Document Unit where
  forest := ⟨schema,
    [⟨⟨0⟩, [⟨.mixed [], false⟩, ⟨.null, false⟩, ⟨.null, false⟩, ⟨.list [], false⟩], none⟩]⟩
  root := ⟨0⟩
  audience := { memory := () }

/-- A page with a page below it, which has one below itself. -/
def nested : Document Unit :=
  blank.after [.create "Page", .create "Page", .add ⟨0⟩ pages (.node ⟨1⟩),
    .add ⟨1⟩ pages (.node ⟨2⟩)]

theorem build_types : Schema.build types = .ok schema := rfl

theorem blank_reachable : blank.Reachable schema fun _ _ => True := .new "Page" () blank rfl

theorem nested_reachable : nested.Reachable schema fun _ _ => True :=
  .edit _ _ (.edit _ _ (.edit _ _ (.edit _ _ blank_reachable trivial) trivial) trivial) trivial

end Scrapbook

open Scrapbook in
/-- The lowest page moves up beside the one that it was below, and the clip is one of the pages
before. -/
theorem Document.Reachable.set_concurs_adds_nested :
    let xs : List Value := [.node ⟨2⟩, .node ⟨1⟩]
    let es : List (Entry Value) := [⟨captions, .str "first"⟩, ⟨clips, .node ⟨1⟩⟩]
    ((Edit.set ⟨0⟩ pages (.list xs) nested).1 = .ok () ∧
      (Edit.set ⟨0⟩ pages (.list xs)).Concurs
        (do Edit.unset ⟨0⟩ pages; xs.forM (Edit.add ⟨0⟩ pages)) nested) ∧
    (Edit.set ⟨0⟩ body (.mixed es) nested).1 = .ok () ∧
      (Edit.set ⟨0⟩ body (.mixed es)).Concurs
        (do Edit.unset ⟨0⟩ body; es.forM fun e => Edit.addMixed ⟨0⟩ e.property e.value) nested := by
  intro xs es
  have hshaped := nested_reachable.shaped (Schema.coherent_of_build build_types)
  have ha : nested.forest.Agrees := hshaped.agrees_iff.mpr (by decide +kernel)
  have hends := Forest.acyclic_iff_climbs_end.mp (by decide +kernel : nested.forest.Acyclic)
  have hmembers : nested.forest.MembersOwn ⟨0⟩ body := by
    intro q h hq ho
    obtain ⟨t, -, hqt⟩ := Forest.feature_eq_ok.mp hq
    have howning : schema.OwningMembers := by decide
    exact howning t q h hqt (by simp [ho])
  obtain ⟨hlist, hmixed⟩ := Document.Reachable.set_concurs_adds build_types (by decide)
    nested_reachable ha hends (Audience.consents_of_seats_eq_nil rfl)
  exact ⟨⟨by decide +kernel, hlist ⟨0⟩ pages _ xs rfl rfl rfl fun h => by cases h⟩,
    by decide +kernel, hmixed ⟨0⟩ body _ es rfl rfl hmembers⟩

open Scrapbook in
/-- Mixed content is unset without any entries, but it is not set to the empty list. -/
theorem Document.Reachable.not_set_concurs_adds_blank :
    (Schema.build types = .ok schema ∧ schema.NullContainment ∧
      blank.Reachable schema (fun _ _ => True) ∧ blank.forest.Agrees ∧
      (∀ n, ∃ k, blank.forest.ancestor k n = none) ∧ blank.audience.seats = []) ∧
    (∃ g, blank.forest.feature ⟨0⟩ body = .ok g ∧ g.many = true ∧ g.owner = none) ∧
    ¬ (Edit.set ⟨0⟩ body (.list [])).Concurs
      (do Edit.unset ⟨0⟩ body; ([] : List Value).forM (Edit.add ⟨0⟩ body)) blank := by
  have hshaped := blank_reachable.shaped (Schema.coherent_of_build build_types)
  have ha : blank.forest.Agrees := hshaped.agrees_iff.mpr (by decide +kernel)
  have hends := Forest.acyclic_iff_climbs_end.mp (by decide +kernel : blank.forest.Acyclic)
  refine ⟨⟨build_types, by decide, blank_reachable, ha, hends, rfl⟩, ⟨_, rfl, rfl, rfl⟩, ?_⟩
  rintro ⟨hiff, -⟩
  have hset : (Edit.set ⟨0⟩ body (.list []) blank).1 ≠ .ok () := by decide +kernel
  refine hset (hiff.mpr ?_)
  decide +kernel

end TrackedGraph
