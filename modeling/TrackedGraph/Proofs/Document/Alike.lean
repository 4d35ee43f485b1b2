/-
Edits go alike where audiences agree on what can be planned.

A recorder that minds no read-only property accepts every change that it can plan. So an
audience with such recorders and one without them give the same answers to all polls and
announcements that edits make, but not to all that one could think of: a notice may name a
property that its node does not have, and only a recorder would look. The notices of edits name
properties that exist, with values that can be read (`Forest.Ownable`), and this is followed here
through every edit: documents whose audiences agree on such notices (`Document.Unison`) go the
same way (`Edit.Alike`). What the notices are about is known of the forest at one moment and
stays true of later ones, so what is shown is relative to an earlier forest.
-/
import TrackedGraph.Proofs.Document.Respecting
import TrackedGraph.Proofs.Forest.Aligned

set_option autoImplicit false

namespace TrackedGraph

open Forest (GrownFrom)

variable {τ α β : Type} {R : Document τ → Document τ → Prop} {d e : Document τ} {f₀ : Forest}

/-- Both ends are alike. -/
structure Edit.EndAlike (R : Document τ → Document τ → Prop)
    (x y : Except Fault α × Document τ) : Prop where
  result : y.1 = x.1
  related : R x.2 y.2

/-- **Related documents** share the forest and the counts, and their audiences give the same
answers to notices whose values can be read. -/
structure Document.Unison (R : Document τ → Document τ → Prop) : Prop where
  forest : ∀ d e, R d e → e.forest = d.forest
  refusals : ∀ d e, R d e → e.refusals = d.refusals
  poll : ∀ d e, R d e → d.forest.Aligned → ∀ N, d.forest.Ownable N.node N.property N.before →
    d.forest.Ownable N.node N.property N.after → Edit.EndAlike R (Edit.poll N d) (Edit.poll N e)
  announce : ∀ d e, R d e → d.forest.Aligned → ∀ N, d.forest.Ownable N.node N.property N.before →
    d.forest.Ownable N.node N.property N.after →
    Edit.EndAlike R (Edit.announce N d) (Edit.announce N e)
  write : ∀ d e, R d e → ∀ f, R { d with forest := f } { e with forest := f }
  advance : ∀ d e, R d e → R (Edit.advance d).2 (Edit.advance e).2
  count : ∀ d e, R d e → ∀ d₁ e₁, R d₁ e₁ → ∀ k k', k' = k →
    R { d₁ with repairRefusals := d.repairRefusals + k }
      { e₁ with repairRefusals := e.repairRefusals + k' }

namespace Edit

/-- The edit goes alike in related documents, whose forest is aligned and grown from the one
given, and leaves them so. -/
def Alike (R : Document τ → Document τ → Prop) (f₀ : Forest) (x : Edit τ α) : Prop :=
  ∀ d e, R d e → d.forest.Aligned → GrownFrom f₀ d.forest →
    EndAlike R (x d) (x e) ∧ (x d).2.forest.Aligned ∧ GrownFrom f₀ (x d).2.forest

namespace Alike

variable {x y : Edit τ α} {k : α → Edit τ β} {n : NodeId} {p : PropertyId}

/-! ## Rules -/

theorem pure (a : α) : Alike R f₀ (pure a : Edit τ α) := fun _ _ h hf hg => ⟨⟨rfl, h⟩, hf, hg⟩

theorem throw (fault : Fault) : Alike R f₀ (throw fault : Edit τ α) :=
  fun _ _ h hf hg => ⟨⟨rfl, h⟩, hf, hg⟩

theorem bind (hx : Alike R f₀ x) (hk : ∀ a, Alike R f₀ (k a)) : Alike R f₀ (x >>= k) := by
  intro d e h hf hg
  obtain ⟨⟨hres, hR⟩, hf', hg'⟩ := hx d e h hf hg
  rw [bind_apply, bind_apply]
  rcases hd : x d with ⟨rd, d'⟩
  rcases he : x e with ⟨re, e'⟩
  rw [hd, he] at hres
  rw [hd] at hf' hg'
  rw [hd, he] at hR
  obtain rfl : re = rd := hres
  cases re with
  | error fault => exact ⟨⟨rfl, hR⟩, hf', hg'⟩
  | ok a => exact hk a d' e' hR hf' hg'

theorem ite {c : Prop} [Decidable c] (hx : Alike R f₀ x) (hy : Alike R f₀ y) :
    Alike R f₀ (if c then x else y) := by
  split
  · exact hx
  · exact hy

theorem forM {ι : Type} {k : ι → Edit τ Unit} (hk : ∀ i, Alike R f₀ (k i)) (l : List ι) :
    Alike R f₀ (l.forM k) := by
  induction l with
  | nil => exact .pure ()
  | cons i l ih => exact .bind (hk i) fun _ => ih

section unison

variable (hR : Document.Unison R)

include hR

/-- After a question the rest is relative to the forest that was asked. -/
theorem bind_query {q : Forest → Except Fault α}
    (hk : ∀ f a, GrownFrom f₀ f → f.Aligned → q f = .ok a → Alike R f (k a)) :
    Alike R f₀ (Edit.query q >>= k) := by
  intro d e h hf hg
  have hforest := hR.forest d e h
  cases hqd : q d.forest with
  | error fault =>
    have hd : (Edit.query q >>= k) d = (.error fault, d) := bind_of_error (congrArg (·, d) hqd)
    have he : (Edit.query q >>= k) e = (.error fault, e) :=
      bind_of_error (congrArg (·, e) (by rw [hforest]; exact hqd))
    rw [hd, he]
    exact ⟨⟨rfl, h⟩, hf, hg⟩
  | ok a =>
    have hd : (Edit.query q >>= k) d = k a d := bind_of_ok (congrArg (·, d) hqd)
    have he : (Edit.query q >>= k) e = k a e :=
      bind_of_ok (congrArg (·, e) (by rw [hforest]; exact hqd))
    rw [hd, he]
    obtain ⟨hend, hf', hg'⟩ := hk d.forest a hg hf hqd d e h hf (.refl _)
    exact ⟨hend, hf', hg.trans hg'⟩

/-- What is shown relative to a forest holds relative to what has grown from it. -/
theorem query (q : Forest → Except Fault α) : Alike R f₀ (Edit.query q : Edit τ α) :=
  fun d e h hf hg => ⟨⟨congrArg q (hR.forest d e h), h⟩, hf, hg⟩

theorem poll {N : Notice} (hbefore : f₀.Ownable N.node N.property N.before)
    (hafter : f₀.Ownable N.node N.property N.after) :
    Alike R f₀ (Edit.poll N : Edit τ Unit) := by
  intro d e h hf hg
  refine ⟨hR.poll d e h hf N (hg.ownable hbefore) (hg.ownable hafter), ?_, ?_⟩ <;>
    rw [forest_poll]
  · exact hf
  · exact hg

theorem announce {N : Notice} (hbefore : f₀.Ownable N.node N.property N.before)
    (hafter : f₀.Ownable N.node N.property N.after) :
    Alike R f₀ (Edit.announce N : Edit τ Unit) := by
  intro d e h hf hg
  refine ⟨hR.announce d e h hf N (hg.ownable hbefore) (hg.ownable hafter), ?_, ?_⟩ <;>
    rw [forest_announce]
  · exact hf
  · exact hg

theorem advance : Alike R f₀ (Edit.advance : Edit τ Unit) :=
  fun d e h hf hg => ⟨⟨rfl, hR.advance d e h⟩, hf, hg⟩

theorem mending {repair : Edit τ Unit} (hx : Alike R f₀ x) (hr : Alike R f₀ repair) :
    Alike R f₀ (x.mending repair) := by
  intro d e h hf hg
  obtain ⟨⟨hres, hR'⟩, hf', hg'⟩ := hx d e h hf hg
  unfold Edit.mending
  rcases hd : x d with ⟨rd, d'⟩
  rcases he : x e with ⟨re, e'⟩
  rw [hd, he] at hres hR'
  rw [hd] at hf' hg'
  obtain rfl : re = rd := hres
  cases re with
  | ok a => exact ⟨⟨rfl, hR'⟩, hf', hg'⟩
  | error fault =>
    obtain ⟨⟨-, hmended⟩, hf'', hg''⟩ := hr d' e' hR' hf' hg'
    refine ⟨⟨rfl, hR.count d' e' hR' _ _ hmended _ _ ?_⟩, hf'', hg''⟩
    exact congrArg₂ Nat.sub (hR.refusals _ _ hmended) (hR.refusals _ _ hR')

/-! ## Steps -/

theorem setPlace (place : Option Place) : Alike R f₀ (Edit.setPlace n place : Edit τ Unit) := by
  intro d e h hf hg
  unfold Edit.setPlace
  rw [hR.forest d e h]
  cases hn : d.forest.node n with
  | error fault => exact ⟨⟨rfl, h⟩, hf, hg⟩
  | ok _ =>
    exact ⟨⟨rfl, hR.write d e h _⟩, hf.setPlace place,
      hg.trans (Forest.grownFrom_setPlace place)⟩

/-- A slot is changed so that what it holds can be read. -/
theorem modifySlot {g : Slot → Slot} (hg : ∀ f s, GrownFrom f₀ f → f.Ownable n p s.value →
    f.Ownable n p (g s).value) : Alike R f₀ (Edit.modifySlot n p g : Edit τ Unit) := by
  intro d e h hf hgrown
  unfold Edit.modifySlot
  rw [hR.forest d e h]
  cases hn : d.forest.node n with
  | error fault => exact ⟨⟨rfl, h⟩, hf, hgrown⟩
  | ok node =>
    dsimp only
    cases hslot : node.slots[p.index]? with
    | none => exact ⟨⟨rfl, h⟩, hf, hgrown⟩
    | some s =>
      have hs : d.forest.slot n p = .ok s :=
        Forest.slot_eq_ok.mpr ⟨node, Forest.node_eq_ok.mp hn, hslot⟩
      exact ⟨⟨rfl, hR.write d e h _⟩, hf.setSlot hs (hg _ _ hgrown (hf.ownable n p s hs)),
        hgrown.trans Forest.grownFrom_setSlot⟩

theorem createOf (t : TypeId) : Alike R f₀ (Edit.createOf t : Edit τ NodeId) := by
  intro d e h hf hg
  unfold Edit.createOf
  rw [hR.forest d e h]
  rcases hc : d.forest.create t with fault | ⟨n, f⟩
  · exact ⟨⟨rfl, h⟩, hf, hg⟩
  · exact ⟨⟨rfl, hR.write d e h f⟩, hf.create hc, hg.trans (Forest.grownFrom_create hc)⟩

theorem unlink (children : List NodeId) : Alike R f₀ (Edit.unlink children : Edit τ Unit) :=
  .forM (fun _ => .setPlace hR none) children

theorem link (v : Value) (incoming : List NodeId) :
    Alike R f₀ (Edit.link n p v incoming : Edit τ Unit) := by
  unfold Edit.link
  split
  · refine .forM (fun entry => .bind (.query hR _) fun member => .ite ?_ (.pure ())) _
    split
    · exact .setPlace hR _
    · exact .pure ()
  · exact .forM (fun _ => .setPlace hR _) _

/-- What is written can be read, since it is told first what it would own. -/
theorem overwrite (v : Value) (isSet : Bool) :
    Alike R f₀ (Edit.overwrite n p v isSet : Edit τ Unit) := by
  refine .bind_query hR fun _ _ _ _ _ => .bind_query hR fun _ _ _ _ _ =>
    .bind_query hR fun f cs _ _ hcs => ?_
  have hv : f.Ownable n p v := Forest.ownable_iff.mpr ⟨cs, hcs⟩
  exact .bind (.unlink hR _) fun _ => .bind (.link hR _ _) fun _ =>
    .bind (.modifySlot hR fun _ _ hg _ => hg.ownable hv) fun _ => .advance hR

/-! ## Edits that take no child in -/

theorem unset : Alike R f₀ (Edit.unset n p : Edit τ Unit) := by
  refine .bind_query hR fun f g _ _ hg => ?_
  dsimp only
  have hrest : Alike R f (do
      let slot ← Edit.query (·.slot n p)
      Edit.announce ⟨n, p, .unset, slot.value, g.restValue, none, slot.isSet⟩
      Edit.overwrite n p g.restValue false : Edit τ Unit) :=
    .bind_query hR fun f' s hgrown hf hs =>
      .bind (.announce hR (hf.ownable n p s hs) (Forest.ownable_restValue (hgrown.feature hg)))
        fun _ => .overwrite hR _ _
  exact .ite (.bind (.query hR _) fun _ => .bind (.throw _) fun _ => hrest) hrest

theorem remove (index : Nat) : Alike R f₀ (Edit.remove n p index : Edit τ Value) := by
  refine .bind_query hR fun f items _ _ hitems => ?_
  have hown := Forest.ownable_of_itemsOf hitems
  split
  · exact .throw _
  · next item _ =>
    have hrest : Alike R f (do
        Edit.modifySlot n p (·.removeItem index)
        Edit.advance
        return item : Edit τ Value) :=
      .bind (.modifySlot hR fun _ _ _ h => h.removeItem) fun _ => .bind (.advance hR) fun _ =>
        .pure _
    refine .bind (.announce hR (hown _) (hown _)) fun _ => .bind (.query hR _) fun _ => ?_
    exact .ite (.bind (.unlink hR _) fun _ => hrest) hrest

theorem removeMixed (index : Nat) :
    Alike R f₀ (Edit.removeMixed n index : Edit τ (Entry Value)) := by
  refine .bind_query hR fun _ t _ _ _ => .bind_query hR fun _ mixed _ _ _ =>
    .bind_query hR fun f entries _ hf hes => ?_
  obtain ⟨s, hs, hv⟩ := Forest.sequence_eq_ok.mp hes
  have hown := hf.ownable n mixed s hs
  split
  · exact .throw _
  · next entry hentry =>
    -- The entry is taken out in the same way whether its child was unlinked before or not.
    have hrest : Alike R f (do
        Edit.modifySlot n mixed (·.removeEntry index)
        Edit.advance
        return entry : Edit τ (Entry Value)) :=
      .bind (.modifySlot hR fun _ _ _ h => h.removeEntry) fun _ => .bind (.advance hR) fun _ =>
        .pure _
    have hbefore : f.Ownable n mixed (.mixed [entry]) := by
      refine hown.of_entries fun e he => .inl ?_
      obtain rfl : e = entry := List.mem_singleton.mp he
      rw [hv]
      exact List.mem_of_getElem? hentry
    refine .bind (.announce hR hbefore hown.null) fun _ => .bind (.query hR _) fun _ => ?_
    exact .ite (.bind (.unlink hR _) fun _ => hrest) hrest

theorem move (source target : Nat) :
    Alike R f₀ (Edit.move n p source target : Edit τ Unit) := by
  refine .bind_query hR fun f items _ _ hitems => ?_
  have hown := Forest.ownable_of_itemsOf hitems
  split
  · exact .throw _
  · next item _ =>
    have hrest : Alike R f (do
        Edit.announce ⟨n, p, .move, .int source, item, some target, true⟩
        Edit.modifySlot n p (·.moveItem source target)
        Edit.advance : Edit τ Unit) :=
      .bind (.announce hR (hown _) (hown _)) fun _ =>
        .bind (.modifySlot hR fun _ _ _ h => h.moveItem) fun _ => .advance hR
    exact .ite (.bind (.throw _) fun _ => hrest) hrest

/-! ## Edits that take children in -/

section restoring

variable {restore : List Whereabouts → Edit τ Unit}
  (hrestore : ∀ f ws, Alike R f (restore ws))

include hrestore

theorem replace {release : List NodeId → Edit τ (List Whereabouts)} {v : Value}
    (hrelease : ∀ f cs, Alike R f (release cs)) :
    Alike R f₀ (Edit.replace release restore n p v) := by
  refine .bind_query hR fun f₁ cs _ _ hcs => .bind_query hR fun f s hgrown hf hs => ?_
  obtain ⟨g, hg, -, hfits, -⟩ := Forest.admitValue_eq_ok.mp hcs
  have hbefore := hf.ownable n p s hs
  have hafter : f.Ownable n p v :=
    hgrown.ownable (Forest.ownable_iff.mpr ⟨_, Forest.owned_of_fits hg hfits⟩)
  exact .bind (.poll hR hbefore hafter) fun _ => .bind (hrelease _ _) fun _ =>
    .bind (.mending hR (.announce hR hbefore hafter) (hrestore _ _)) fun _ =>
      .bind (.query hR _) fun _ => .overwrite hR _ _

omit hrestore in
theorem release : Alike R f₀ (Edit.release n : Edit τ (List Whereabouts)) := by
  refine .bind_query hR fun f w _ _ _ => ?_
  split
  · exact .pure _
  · dsimp only
    split
    · exact .bind (.removeMixed hR _) fun _ => .pure _
    · exact .bind (.remove hR _) fun _ => .pure _
    · exact .bind (.replace hR (fun _ _ => .pure _) fun _ _ => .pure _) fun _ => .pure _

theorem releaseAll {here : List NodeId} (cs : List NodeId) (moved : List Whereabouts) :
    Alike R f₀ (Edit.releaseAll restore here moved cs) := by
  induction cs generalizing moved with
  | nil => exact .pure moved
  | cons c cs ih =>
    unfold Edit.releaseAll
    exact .ite (ih moved)
      (.bind (.mending hR (.release hR) (hrestore _ moved)) fun placed => ih (moved ++ placed))

theorem setBy (v : Value) : Alike R f₀ (Edit.setBy restore n p v) :=
  .replace hR hrestore fun _ cs => .bind (.query hR _) fun _ =>
    .releaseAll hR hrestore cs []

theorem bringIn {N : Notice} {q : PropertyId} {w : Slot → Slot}
    (hbefore : f₀.Ownable N.node N.property N.before)
    (hafter : f₀.Ownable N.node N.property N.after)
    (hw : ∀ f s, GrownFrom f₀ f → f.Ownable N.node N.property s.value →
      f.Ownable N.node N.property (w s).value) (incoming : Option NodeId) :
    Alike R f₀ (Edit.bringIn restore N incoming q w) := by
  have hplace : Alike R f₀
      (incoming.forM (Edit.setPlace · (some ⟨N.node, q⟩)) : Edit τ Unit) := by
    cases incoming with
    | none => exact .pure _
    | some c => exact .setPlace hR _
  have hend : ∀ moved, Alike R f₀ (do
      (Edit.announce N).mending (restore moved)
      incoming.forM (Edit.setPlace · (some ⟨N.node, q⟩))
      Edit.modifySlot N.node N.property w
      Edit.advance : Edit τ Unit) := fun moved =>
    .bind (.mending hR (.announce hR hbefore hafter) (hrestore _ moved)) fun _ =>
      .bind hplace fun _ => .bind (.modifySlot hR hw) fun _ => .advance hR
  refine .bind (.poll hR hbefore hafter) fun _ => ?_
  cases incoming with
  | none => exact .bind (.pure _) hend
  | some c => exact .bind (.release hR) hend

theorem insertBy (index : Nat) (item : Value) :
    Alike R f₀ (Edit.insertBy restore n p index item) := by
  rw [Edit.insertBy_eq]
  refine .bind_query hR fun f₁ incoming _ _ hadmitted => .bind_query hR fun f s hgrown _ _ => ?_
  obtain ⟨g, items, -, hitems, -⟩ := Forest.admitItem_eq_ok.mp hadmitted
  have hown := fun v => hgrown.ownable (Forest.ownable_of_itemsOf hitems v)
  exact .bringIn hR hrestore (hown _) (hown _) (fun _ _ _ h => h.insertItem) _

theorem insertMixedBy (index : Nat) (member : PropertyId) (v : Value) :
    Alike R f₀ (Edit.insertMixedBy restore n index member v) := by
  rw [Edit.insertMixedBy_eq]
  refine .bind_query hR fun f₁ a _ _ hadmitted => ?_
  obtain ⟨mixed, incoming⟩ := a
  refine .bind_query hR fun f s hgrown hf hs => ?_
  obtain ⟨g, -, hg, -⟩ := Forest.admitEntry_eq_ok.mp hadmitted
  have hmember := hgrown.feature hg
  have hown := hf.ownable n mixed s hs
  refine .bringIn hR hrestore hown.null (hown.of_entries fun e he => .inr ?_)
    (fun _ _ hgrown h => h.insertEntry ⟨g, hgrown.feature hmember⟩) _
  obtain rfl : e = ⟨member, v⟩ := List.mem_singleton.mp he
  exact ⟨g, hmember⟩

end restoring

theorem putBack (depth : Nat) (ws : List Whereabouts) :
    Alike R f₀ (Edit.putBack depth ws : Edit τ Unit) := by
  induction depth generalizing f₀ ws with
  | zero => exact .throw _
  | succ depth ih =>
    refine .forM (fun w => ?_) _
    obtain ⟨child, ⟨container, p⟩, position⟩ := w
    have hrestore : ∀ f ws, Alike R f (Edit.putBack depth ws : Edit τ Unit) :=
      fun _ ws => ih ws
    cases position with
    | mixed i => exact .insertMixedBy hR hrestore _ _ _
    | listed i => exact .insertBy hR hrestore _ _
    | single => exact .setBy hR hrestore _

theorem set (v : Value) : Alike R f₀ (Edit.set n p v : Edit τ Unit) :=
  .setBy hR (fun _ => .putBack hR _) v

theorem insert (index : Nat) (item : Value) :
    Alike R f₀ (Edit.insert n p index item : Edit τ Unit) :=
  .insertBy hR (fun _ => .putBack hR _) _ _

theorem insertMixed (index : Nat) (member : PropertyId) (v : Value) :
    Alike R f₀ (Edit.insertMixed n index member v : Edit τ Unit) :=
  .insertMixedBy hR (fun _ => .putBack hR _) _ _ _

theorem add (item : Value) : Alike R f₀ (Edit.add n p item : Edit τ Unit) :=
  .bind (.query hR _) fun _ => .insert hR _ _

theorem addMixed (member : PropertyId) (v : Value) :
    Alike R f₀ (Edit.addMixed n member v : Edit τ Unit) :=
  .bind (.query hR _) fun _ =>
    .bind (.query hR _) fun _ => .insertMixed hR _ _ _

/-- **Every edit goes alike in related documents.** -/
theorem mutation (m : Mutation) : Alike R f₀ (m.run : Edit τ Mutation.Outcome) := by
  cases m with
  | create typeName =>
    exact .bind (.bind (.query hR _) fun t => .createOf hR t) fun _ => .pure _
  | createOf t => exact .bind (.createOf hR t) fun _ => .pure _
  | set n p v => exact .bind (.set hR v) fun _ => .pure _
  | unset n p => exact .bind (.unset hR) fun _ => .pure _
  | add n p item => exact .bind (.add hR _) fun _ => .pure _
  | insert n p index item => exact .bind (.insert hR _ _) fun _ => .pure _
  | remove n p index => exact .bind (.remove hR _) fun _ => .pure _
  | move n p source target => exact .bind (.move hR _ _) fun _ => .pure _
  | addMixed n member v => exact .bind (.addMixed hR _ _) fun _ => .pure _
  | insertMixed n index member v => exact .bind (.insertMixed hR _ _ _) fun _ => .pure _
  | removeMixed n index => exact .bind (.removeMixed hR _) fun _ => .pure _
  | detach n => exact .bind (.bind (.release hR) fun _ => .pure _) fun _ => .pure _

/-- Bringing old states back is made of edits. -/
theorem writeBack (structural plain : List PriorState) :
    Alike R f₀ (Revert.writeBack structural plain : Edit τ Unit) := by
  have hrestore : ∀ r, Alike R f₀ (Revert.restore r : Edit τ Unit) := fun _ =>
    .ite (.set hR _) (.unset hR)
  exact .bind (.forM (fun r => .bind (.query hR _) fun _ => .set hR _) structural)
    fun _ => .bind (.forM hrestore structural) fun _ => .forM hrestore plain

end unison

end Alike

end Edit

end TrackedGraph
