/-
Slots stay in shape, whatever the defaults are.

Every slot holds what its property takes, or what it rests at (`Forest.Shaped`). An edit writes
a slot in one of a few ways, and each of them keeps to this: what is put in was accepted before,
and what is taken out leaves the rest. Accepting rests on types, which nodes keep, so what was
known of a forest when an edit was admitted still counts when it writes (`Edit.Shapes`). Nothing
is asked of the schema but that it was built, and nothing of the places, which a default may
upset.

The walk through all edits is made once. A further condition may go along with it, as long as
asking and telling the audience keeps it while slots are in shape (`Edit.Cargo`, `Edit.Carries`).
-/
import TrackedGraph.Proofs.Document.Reachable
import TrackedGraph.Proofs.Forest.Climbing
import TrackedGraph.Proofs.Forest.Shaped

set_option autoImplicit false

namespace TrackedGraph

open Forest (GrownFrom)

variable {τ α β : Type} {d : Document τ} {schema : Schema}

namespace Edit

/-- The edit leaves slots in shape, in forests that have grown from the one given. -/
def Shapes (f₀ : Forest) (x : Edit τ α) : Prop :=
  Keeps (fun d => d.forest.Shaped ∧ GrownFrom f₀ d.forest) x

/-- A condition that goes along with edits: where slots are in shape, asking and telling the
audience keeps it, and so does whatever makes the forest grow. -/
structure Cargo (τ : Type) where
  Holds : Document τ → Prop
  poll : ∀ d N, d.forest.Shaped → Holds d → Holds (Edit.poll N d).2
  announce : ∀ d N, d.forest.Shaped → Holds d → Holds (Edit.announce N d).2
  grow : ∀ d f, GrownFrom d.forest f → Holds d → Holds { d with forest := f }
  advance : ∀ d, Holds d → Holds { d with generation := d.generation + 1 }
  repair : ∀ d i, Holds d → Holds { d with repairRefusals := i }

/-- Nothing goes along. -/
def Cargo.nothing : Cargo τ :=
  ⟨fun _ => True, fun _ _ _ => id, fun _ _ _ => id, fun _ _ _ => id, fun _ => id, fun _ _ => id⟩

/-- The edit leaves slots in shape, and keeps the condition that goes along with it. -/
def Carries (P : Cargo τ) (f₀ : Forest) (x : Edit τ α) : Prop :=
  Keeps (fun d => P.Holds d ∧ d.forest.Shaped ∧ GrownFrom f₀ d.forest) x

namespace Carries

variable {P : Cargo τ} {f₀ : Forest} {x : Edit τ α} {k : α → Edit τ β} {n : NodeId}
  {p : PropertyId} {g : Feature}

/-! ## Rules -/

theorem shapes (h : Carries .nothing f₀ x) : Shapes f₀ x := fun d hd => (h d ⟨trivial, hd⟩).2

theorem pure (a : α) : Carries P f₀ (pure a : Edit τ α) := Keeps.pure a

theorem throw (e : Fault) : Carries P f₀ (throw e : Edit τ α) := Keeps.throw e

theorem bind (hx : Carries P f₀ x) (hk : ∀ a, Carries P f₀ (k a)) : Carries P f₀ (x >>= k) :=
  Keeps.bind hx hk

theorem ite {c : Prop} [Decidable c] {y : Edit τ α} (hx : Carries P f₀ x) (hy : Carries P f₀ y) :
    Carries P f₀ (if c then x else y) := Keeps.ite hx hy

theorem forM {ι : Type} {k : ι → Edit τ Unit} (hk : ∀ i, Carries P f₀ (k i)) (l : List ι) :
    Carries P f₀ (l.forM k) := Keeps.forM hk l

theorem query (q : Forest → Except Fault α) : Carries P f₀ (Edit.query q : Edit τ α) :=
  Keeps.query q

/-- After a question the rest is relative to the forest that was asked. -/
theorem bind_query {q : Forest → Except Fault α}
    (hk : ∀ f a, GrownFrom f₀ f → f.Shaped → q f = .ok a → Carries P f (k a)) :
    Carries P f₀ (Edit.query q >>= k) := by
  rintro d ⟨hp, hf, hg⟩
  refine Ends.query (Q := fun _ d' => P.Holds d' ∧ d'.forest.Shaped ∧ GrownFrom f₀ d'.forest)
    (fun a ha => ?_) fun _ _ => ⟨hp, hf, hg⟩
  obtain ⟨hp', hf', hg'⟩ := hk d.forest a hg hf ha d ⟨hp, hf, .refl _⟩
  exact ⟨hp', hf', hg.trans hg'⟩

theorem poll (N : Notice) : Carries P f₀ (Edit.poll N : Edit τ Unit) := by
  rintro d ⟨hp, hf, hg⟩
  refine ⟨P.poll d N hf hp, ?_⟩
  rw [forest_poll]
  exact ⟨hf, hg⟩

theorem announce (N : Notice) : Carries P f₀ (Edit.announce N : Edit τ Unit) := by
  rintro d ⟨hp, hf, hg⟩
  refine ⟨P.announce d N hf hp, ?_⟩
  rw [forest_announce]
  exact ⟨hf, hg⟩

theorem advance : Carries P f₀ (Edit.advance : Edit τ Unit) := by
  rintro d ⟨hp, hf, hg⟩
  exact ⟨P.advance d hp, hf, hg⟩

theorem mending {repair : Edit τ Unit} (hx : Carries P f₀ x) (hr : Carries P f₀ repair) :
    Carries P f₀ (x.mending repair) := by
  refine Keeps.mending hx hr ?_
  rintro d i ⟨hp, hf, hg⟩
  exact ⟨P.repair d i hp, hf, hg⟩

theorem setPlace (place : Option Place) : Carries P f₀ (Edit.setPlace n place : Edit τ Unit) := by
  rintro d ⟨hp, hf, hg⟩
  unfold Edit.setPlace
  split
  · exact ⟨hp, hf, hg⟩
  · have hgrown := Forest.grownFrom_setPlace (f := d.forest) (c := n) place
    exact ⟨P.grow d _ hgrown hp, hf.setPlace place, hg.trans hgrown⟩

/-- A slot of its own is changed to what its property may hold. -/
theorem modifySlot {w : Slot → Slot} (hg : f₀.feature n p = .ok g) (ho : g.owner = none)
    (hw : ∀ f s, GrownFrom f₀ f → f.MayHold n p g s.value → f.MayHold n p g (w s).value) :
    Carries P f₀ (Edit.modifySlot n p w : Edit τ Unit) := by
  rintro d ⟨hp, hf, hgrown⟩
  unfold Edit.modifySlot
  split
  · exact ⟨hp, hf, hgrown⟩
  · next node hn =>
    split
    · exact ⟨hp, hf, hgrown⟩
    · next s hslot =>
      have hs : d.forest.slot n p = .ok s :=
        Forest.slot_eq_ok.mpr ⟨node, Forest.node_eq_ok.mp hn, hslot⟩
      have hfeature := hgrown.feature hg
      have hheld := hw _ _ hgrown (hf.held n p g s hfeature ho hs)
      exact ⟨P.grow d _ Forest.grownFrom_setSlot hp, hf.setSlot hs hfeature ho hheld,
        hgrown.trans Forest.grownFrom_setSlot⟩

theorem createOf (t : TypeId) : Carries P f₀ (Edit.createOf t : Edit τ NodeId) := by
  rintro d ⟨hp, hf, hg⟩
  unfold Edit.createOf
  cases hc : d.forest.create t with
  | error e => exact ⟨hp, hf, hg⟩
  | ok created =>
    have hgrown := Forest.grownFrom_create hc
    exact ⟨P.grow d _ hgrown hp, hf.create hc, hg.trans hgrown⟩

theorem unlink (children : List NodeId) : Carries P f₀ (Edit.unlink children : Edit τ Unit) :=
  .forM (fun _ => .setPlace none) children

theorem link (v : Value) (incoming : List NodeId) :
    Carries P f₀ (Edit.link n p v incoming : Edit τ Unit) := by
  unfold Edit.link
  split
  · refine .forM (fun entry => .bind (.query _) fun member => .ite ?_ (.pure ())) _
    split
    · exact .setPlace _
    · exact .pure ()
  · exact .forM (fun _ => .setPlace _) _

theorem overwrite {v : Value} (hg : f₀.feature n p = .ok g) (ho : g.owner = none)
    (hv : f₀.MayHold n p g v) (isSet : Bool) :
    Carries P f₀ (Edit.overwrite n p v isSet : Edit τ Unit) :=
  .bind (.query _) fun _ => .bind (.query _) fun _ => .bind (.query _) fun _ =>
    .bind (.unlink _) fun _ => .bind (.link _ _) fun _ =>
      .bind (.modifySlot hg ho fun _ _ hgrown _ => hgrown.mayHold hv) fun _ => .advance

/-! ## Edits that take no child in -/

theorem unset : Carries P f₀ (Edit.unset n p : Edit τ Unit) := by
  refine .bind_query fun f g _ _ hg => ?_
  dsimp only
  cases ho : g.owner with
  | some m => exact .bind (.query _) fun _ => .throw _
  | none =>
    exact .bind (.query _) fun _ => .bind (.announce _) fun _ => .overwrite hg ho (.inl rfl) _

theorem remove (index : Nat) : Carries P f₀ (Edit.remove n p index : Edit τ Value) := by
  refine .bind_query fun f items _ _ hitems => ?_
  obtain ⟨g, s, hg, ho, hm, hx, -, -⟩ := Forest.itemsOf_eq_ok.mp hitems
  split
  · exact .throw _
  · next item _ =>
    have hrest : Carries P f (do
        Edit.modifySlot n p (·.removeItem index)
        Edit.advance
        return item : Edit τ Value) :=
      .bind (.modifySlot hg ho fun _ _ _ h => h.removeItem hx hm) fun _ => .bind .advance fun _ =>
        .pure _
    exact .bind (.announce _) fun _ => .bind (.query _) fun _ =>
      .ite (.bind (.unlink _) fun _ => hrest) hrest

theorem removeMixed (index : Nat) :
    Carries P f₀ (Edit.removeMixed n index : Edit τ (Entry Value)) := by
  refine .bind_query fun f₁ t _ _ ht => .bind_query fun f mixed hgrown hf hmixed => ?_
  have hfind : f.schema.mixedOf? t = some mixed := by
    cases h : f.schema.mixedOf? t with
    | none => simp [h] at hmixed
    | some m => simpa [h] using hmixed
  obtain ⟨g, hgt, hx⟩ := hf.coherent.mixedOf t mixed hfind
  have hg : f.feature n mixed = .ok g :=
    Forest.feature_eq_ok.mpr ⟨t, hgrown.typeOf n t ht, hgt⟩
  refine .bind (.query _) fun entries => ?_
  split
  · exact .throw _
  · next entry _ =>
    have hrest : Carries P f (do
        Edit.modifySlot n mixed (·.removeEntry index)
        Edit.advance
        return entry : Edit τ (Entry Value)) :=
      .bind (.modifySlot hg (hf.owner_of_mixed hg hx) fun _ _ _ h => h.removeEntry hx)
        fun _ => .bind .advance fun _ => .pure _
    exact .bind (.announce _) fun _ => .bind (.query _) fun _ =>
      .ite (.bind (.unlink _) fun _ => hrest) hrest

theorem move (source target : Nat) : Carries P f₀ (Edit.move n p source target : Edit τ Unit) := by
  refine .bind_query fun f items _ _ hitems => ?_
  obtain ⟨g, s, hg, ho, hm, hx, -, -⟩ := Forest.itemsOf_eq_ok.mp hitems
  split
  · exact .throw _
  · have hrest : ∀ N, Carries P f (do
        Edit.announce N
        Edit.modifySlot n p (·.moveItem source target)
        Edit.advance : Edit τ Unit) := fun N =>
      .bind (.announce N) fun _ => .bind (.modifySlot hg ho fun _ _ _ h => h.moveItem hx hm)
        fun _ => .advance
    exact .ite (.bind (.throw _) fun _ => hrest _) (hrest _)

/-! ## Edits that take children in -/

section restoring

variable {restore : List Whereabouts → Edit τ Unit} (hrestore : ∀ f ws, Carries P f (restore ws))

include hrestore

theorem replace {release : List NodeId → Edit τ (List Whereabouts)} {v : Value}
    (hrelease : ∀ f cs, Carries P f (release cs)) :
    Carries P f₀ (Edit.replace release restore n p v) := by
  refine .bind_query fun f cs _ _ hcs => .bind (.query _) fun _ => ?_
  obtain ⟨g, hg, ho, hfits, -⟩ := Forest.admitValue_eq_ok.mp hcs
  exact .bind (.poll _) fun _ => .bind (hrelease _ _) fun _ =>
    .bind (.mending (.announce _) (hrestore _ _)) fun _ => .bind (.query _) fun _ =>
      .overwrite hg ho (.inr hfits) _

omit hrestore in
theorem release : Carries P f₀ (Edit.release n : Edit τ (List Whereabouts)) := by
  refine .bind (.query _) fun w => ?_
  split
  · exact .pure _
  · dsimp only
    split
    · exact .bind (.removeMixed _) fun _ => .pure _
    · exact .bind (.remove _) fun _ => .pure _
    · exact .bind (.replace (fun _ _ => .pure _) fun _ _ => .pure _) fun _ => .pure _

theorem releaseAll {here : List NodeId} (cs : List NodeId) (moved : List Whereabouts) :
    Carries P f₀ (Edit.releaseAll restore here moved cs) := by
  induction cs generalizing moved with
  | nil => exact .pure moved
  | cons c cs ih =>
    unfold Edit.releaseAll
    exact .ite (ih moved)
      (.bind (.mending .release (hrestore _ moved)) fun placed => ih (moved ++ placed))

theorem setBy (v : Value) : Carries P f₀ (Edit.setBy restore n p v) :=
  .replace hrestore fun _ cs => .bind (.query _) fun _ => .releaseAll hrestore cs []

theorem bringIn {N : Notice} {q : PropertyId} {w : Slot → Slot}
    (hg : f₀.feature N.node N.property = .ok g) (ho : g.owner = none)
    (hw : ∀ f s, GrownFrom f₀ f → f.MayHold N.node N.property g s.value →
      f.MayHold N.node N.property g (w s).value) (incoming : Option NodeId) :
    Carries P f₀ (Edit.bringIn restore N incoming q w) := by
  have hplace : Carries P f₀
      (incoming.forM (Edit.setPlace · (some ⟨N.node, q⟩)) : Edit τ Unit) := by
    cases incoming with
    | none => exact .pure _
    | some c => exact .setPlace _
  have hend : ∀ moved, Carries P f₀ (do
      (Edit.announce N).mending (restore moved)
      incoming.forM (Edit.setPlace · (some ⟨N.node, q⟩))
      Edit.modifySlot N.node N.property w
      Edit.advance : Edit τ Unit) := fun moved =>
    .bind (.mending (.announce _) (hrestore _ moved)) fun _ =>
      .bind hplace fun _ => .bind (.modifySlot hg ho hw) fun _ => .advance
  refine .bind (.poll _) fun _ => ?_
  cases incoming with
  | none => exact .bind (.pure _) hend
  | some c => exact .bind .release hend

theorem insertBy (index : Nat) (item : Value) :
    Carries P f₀ (Edit.insertBy restore n p index item) := by
  rw [Edit.insertBy_eq]
  refine .bind_query fun f incoming _ _ hadmitted => .bind (.query _) fun _ => ?_
  obtain ⟨-, items, -, hitems, -, ha, -⟩ := Forest.admitItem_eq_ok.mp hadmitted
  obtain ⟨g, -, hg, ho, hm, hx, -⟩ := Forest.itemsOf_eq_ok.mp hitems
  exact .bringIn hrestore hg ho (fun _ _ hgrown h =>
    h.insertItem hx hm (ha.of_types hgrown.schema hgrown.typeOf)) _

theorem insertMixedBy (index : Nat) (member : PropertyId) (v : Value) :
    Carries P f₀ (Edit.insertMixedBy restore n index member v) := by
  rw [Edit.insertMixedBy_eq]
  refine .bind_query fun f a _ hf hadmitted => ?_
  obtain ⟨mixed, incoming⟩ := a
  refine .bind (.query _) fun _ => ?_
  obtain ⟨k, entries, hk, hko, -, -, ha, -⟩ := Forest.admitEntry_eq_ok.mp hadmitted
  obtain ⟨g, hg, hx⟩ := hf.exists_mixed hk hko
  exact .bringIn hrestore hg (hf.owner_of_mixed hg hx) (fun _ _ hgrown h =>
    h.insertEntry hx (hgrown.feature hk) hko (ha.of_types hgrown.schema hgrown.typeOf)) _

end restoring

theorem putBack (depth : Nat) (ws : List Whereabouts) :
    Carries P f₀ (Edit.putBack depth ws : Edit τ Unit) := by
  induction depth generalizing f₀ ws with
  | zero => exact .throw _
  | succ depth ih =>
    refine .forM (fun w => ?_) _
    obtain ⟨child, ⟨container, p⟩, position⟩ := w
    have hrestore : ∀ f ws, Carries P f (Edit.putBack depth ws : Edit τ Unit) := fun _ ws => ih ws
    cases position with
    | mixed i => exact .insertMixedBy hrestore _ _ _
    | listed i => exact .insertBy hrestore _ _
    | single => exact .setBy hrestore _

theorem set (v : Value) : Carries P f₀ (Edit.set n p v : Edit τ Unit) :=
  .setBy (fun _ => .putBack _) v

theorem insert (index : Nat) (item : Value) :
    Carries P f₀ (Edit.insert n p index item : Edit τ Unit) :=
  .insertBy (fun _ => .putBack _) _ _

theorem insertMixed (index : Nat) (member : PropertyId) (v : Value) :
    Carries P f₀ (Edit.insertMixed n index member v : Edit τ Unit) :=
  .insertMixedBy (fun _ => .putBack _) _ _ _

/-- **Every edit leaves slots in shape**, however it ends. -/
theorem mutation (m : Mutation) : Carries P f₀ (m.run : Edit τ Mutation.Outcome) := by
  cases m with
  | create typeName =>
    exact .bind (.bind (.query _) fun t => .createOf t) fun _ => .pure _
  | createOf t => exact .bind (.createOf t) fun _ => .pure _
  | set n p v => exact .bind (.set v) fun _ => .pure _
  | unset n p => exact .bind .unset fun _ => .pure _
  | add n p item =>
    exact .bind (.bind (.query _) fun _ => .insert _ _) fun _ => .pure _
  | insert n p index item => exact .bind (.insert _ _) fun _ => .pure _
  | remove n p index => exact .bind (.remove _) fun _ => .pure _
  | move n p source target => exact .bind (.move _ _) fun _ => .pure _
  | addMixed n member v =>
    exact .bind (.bind (.query _) fun _ => .bind (.query _) fun _ => .insertMixed _ _ _)
      fun _ => .pure _
  | insertMixed n index member v => exact .bind (.insertMixed _ _ _) fun _ => .pure _
  | removeMixed n index => exact .bind (.removeMixed _) fun _ => .pure _
  | detach n => exact .bind (.bind .release fun _ => .pure _) fun _ => .pure _

end Carries

end Edit

/-- **Reachable forests are in shape**, whatever the defaults are. -/
theorem Document.Reachable.shaped {allowed : Document τ → Mutation → Prop}
    (hc : schema.Coherent) (h : d.Reachable schema allowed) : d.forest.Shaped :=
  h.forest_induction (fun _ _ _ ht => (Forest.shaped_empty hc).create ht)
    fun d m _ _ hf => ((Edit.Carries.mutation m).shapes d ⟨hf, .refl _⟩).1

/-- A document keeps its schema. -/
theorem Document.Reachable.schema_eq {allowed : Document τ → Mutation → Prop}
    (hc : schema.Coherent) (h : d.Reachable schema allowed) : d.forest.schema = schema :=
  h.forest_induction (P := (·.schema = schema)) (fun _ _ _ ht => Forest.schema_create ht)
    fun d m h _ heq =>
      ((Edit.Carries.mutation m).shapes d ⟨h.shaped hc, .refl _⟩).2.schema.trans heq

/-- Where places and slots agree and climbs end, a reachable forest is orderly. -/
theorem Document.Reachable.orderly {allowed : Document τ → Mutation → Prop}
    (hc : schema.Coherent) (h : d.Reachable schema allowed) (ha : d.forest.Agrees)
    (hends : ∀ n, ∃ k, d.forest.ancestor k n = none) : d.forest.Orderly :=
  ⟨h.shaped hc, (h.shaped hc).agrees_iff.mp ha, Forest.acyclic_iff_climbs_end.mpr hends⟩

end TrackedGraph
