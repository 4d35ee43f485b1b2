/-
Edits, and the way up.

Whether every climb from container to container ends is up to the places, and places are written
by whoever takes children in. All of these ask first that the new container is not below a child
(`Forest.requireAcyclic`); between that and the writing, children are released and may be put
back, which only takes places away or writes them with the same care. One edit does not ask. An
`unset` writes a default, and with it the places of the children that the default names.

So climbs end in every document that is reached without an accepted `unset` that encloses its
node, whatever the schema and its defaults, and right after such an `unset` one climb goes on
for ever (`Document.Reachable.climbs_end_iff`).
-/
import TrackedGraph.Proofs.Document.Reachable
import TrackedGraph.Proofs.Document.Unrefused
import TrackedGraph.Proofs.Forest.Climbing

set_option autoImplicit false

open Relation

namespace TrackedGraph

variable {τ α : Type} {d d' : Document τ} {f₀ : Forest} {n m c : NodeId} {p : PropertyId}
  {v : Value} {schema : Schema}

namespace Edit

/-- The document has lost places since `f₀` and gained none. -/
def Shed (f₀ : Forest) (d : Document τ) : Prop := f₀.Sheds d.forest

theorem Shed.step (h : Shed f₀ d) (hs : d.forest.Sheds d'.forest) : Shed f₀ d' :=
  Forest.Sheds.trans h hs

/-! ## Edits that take no child in -/

theorem keeps_of_forest {x : Edit τ α} (h : ∀ d, (x d).2.forest = d.forest) : Keeps (Shed f₀) x :=
  fun d hd => by
    unfold Shed
    rw [h d]
    exact hd

theorem keepsShed_poll (N : Notice) : Keeps (Shed f₀) (poll N : Edit τ Unit) :=
  keeps_of_forest fun _ => forest_poll N

theorem keepsShed_announce (N : Notice) : Keeps (Shed f₀) (announce N : Edit τ Unit) :=
  keeps_of_forest fun _ => forest_announce N

theorem keepsShed_advance : Keeps (Shed f₀) (advance : Edit τ Unit) := keeps_of_forest fun _ => rfl

theorem keeps_modifySlot {P : Forest → Prop} (hP : ∀ f s, P f → P (f.setSlot n p s))
    (g : Slot → Slot) : Keeps (fun d => P d.forest) (modifySlot n p g : Edit τ Unit) := by
  intro d hd
  unfold modifySlot
  split
  · exact hd
  · split
    · exact hd
    · exact hP _ _ hd

/-- **Letting children go** takes places away and gives none. -/
theorem releasing_shed : Releasing fun _ (x : Edit τ _) => Keeps (Shed f₀) x where
  __ := Keeps.composable
  announce N _ := keepsShed_announce N
  free c := by
    intro d hd
    unfold setPlace
    split
    · exact hd
    · exact hd.step Forest.sheds_setPlace_none
  modifySlot _ _ := keeps_modifySlot fun _ _ h => Forest.Sheds.trans h Forest.sheds_setSlot
  advance := keepsShed_advance

/-- Nothing comes in with the empty value. -/
theorem keepsShed_overwrite_null (b : Bool) :
    Keeps (Shed f₀) (overwrite n p .null b : Edit τ Unit) := by
  refine .bind (.query _) fun old => .bind (.query _) fun outgoing => .bind_query ?_
  rintro incoming ⟨f, hincoming⟩
  have hnone : incoming = [] := by
    have hclaims := Forest.owned_eq_claims hincoming
    rw [Forest.claims_null] at hclaims
    exact hclaims
  subst hnone
  exact .bind (releasing_shed.unlink _) fun _ => .bind (.pure ()) fun _ =>
    .bind (releasing_shed.modifySlot _ _ _) fun _ => keepsShed_advance

theorem keepsShed_replace_null : Keeps (Shed f₀)
    (replace (fun _ => return []) (fun _ => return ()) n p .null : Edit τ Unit) := by
  refine .bind (.query _) fun incoming => .bind (.query _) fun slot =>
    .bind (keepsShed_poll _) fun _ => .bind (.pure _) fun moved => .bind ?_ fun _ =>
      .bind (.query _) fun g => keepsShed_overwrite_null _
  exact .mending (keepsShed_announce _) (.pure _) fun _ _ hd => hd

/-- **A release** takes a place away. -/
theorem keepsShed_release (c : NodeId) :
    Keeps (Shed f₀) (release c : Edit τ (List Whereabouts)) :=
  releasing_shed.release fun _ _ => keepsShed_replace_null

/-! ## Overwriting a slot -/

theorem setPlace_missing (place : Option Place) (h : ¬ d.forest.contains c = true) :
    ∃ e, setPlace c place d = (.error e, d) := by
  unfold setPlace
  cases hc : d.forest.node c with
  | error e => exact ⟨e, rfl⟩
  | ok x =>
    exact absurd (Forest.contains_iff.mpr
      ⟨x.type, Forest.typeOf_eq_ok.mpr ⟨x, Forest.node_eq_ok.mp hc, rfl⟩⟩) h

/-- Children are freed up to the first that does not exist. -/
theorem unlink_missing {cs : List NodeId} (h : ¬ ∀ c ∈ cs, d.forest.contains c = true) :
    ∃ e, (unlink cs d).1 = .error e := by
  induction cs generalizing d with
  | nil => exact absurd (fun _ hc => absurd hc List.not_mem_nil) h
  | cons c cs ih =>
    by_cases hc : d.forest.contains c = true
    · have hrest : ¬ ∀ x ∈ cs, (d.forest.setPlace c none).contains x = true := fun hall =>
        h (List.forall_mem_cons.mpr ⟨hc, fun x hx =>
          (Forest.contains_congr (Forest.typeOf_setPlace none)).symm.trans (hall x hx)⟩)
      obtain ⟨e, he⟩ := ih (d := { d with forest := d.forest.setPlace c none }) hrest
      refine ⟨e, ?_⟩
      show ((setPlace c none >>= fun _ => unlink cs : Edit τ Unit) d).1 = _
      rw [bind_of_ok (setPlace_apply hc)]
      exact he
    · obtain ⟨e, he⟩ := setPlace_missing none hc
      refine ⟨e, ?_⟩
      show ((setPlace c none >>= fun _ => unlink cs : Edit τ Unit) d).1 = _
      rw [bind_of_error he]

/-- Children are given their places up to the first that does not exist. -/
theorem forM_setPlace_draws (cs : List NodeId) (d : Document τ) :
    d.forest.Draws n (cs.takeWhile d.forest.contains)
      (cs.forM (setPlace · (some ⟨n, p⟩)) d).2.forest := by
  induction cs generalizing d with
  | nil => exact .nil
  | cons c cs ih =>
    show d.forest.Draws n _
      ((setPlace c (some ⟨n, p⟩) >>= fun _ => cs.forM (setPlace · (some ⟨n, p⟩)) :
        Edit τ Unit) d).2.forest
    by_cases hc : d.forest.contains c = true
    · rw [bind_of_ok (setPlace_apply hc), List.takeWhile_cons_of_pos hc]
      have hrest := ih { d with forest := d.forest.setPlace c (some ⟨n, p⟩) }
      rw [show (d.forest.setPlace c (some ⟨n, p⟩)).contains = d.forest.contains from
        funext fun m => Forest.contains_congr (Forest.typeOf_setPlace _)] at hrest
      exact (Forest.draws_setPlace hc).append hrest
    · obtain ⟨e, he⟩ := setPlace_missing (some ⟨n, p⟩) hc
      rw [bind_of_error he, List.takeWhile_cons_of_neg hc]
      exact .nil

/-- Gives the child of one entry its place. -/
def linkEntry (n : NodeId) (e : Entry Value) : Edit τ Unit := do
  let member ← query (·.feature n e.property)
  if member.owns then
    match e.value.node? with
    | some child => setPlace child (some ⟨n, e.property⟩)
    | none => return ()

theorem link_cons {e : Entry Value} {es : List (Entry Value)} {incoming : List NodeId} :
    (link n p (.mixed (e :: es)) incoming : Edit τ Unit) =
      (linkEntry n e >>= fun _ => link n p (.mixed es) incoming) := rfl

/-- An entry is passed over, gives its child a place, or is where it ends. -/
theorem linkEntry_cases (e : Entry Value) (es : List (Entry Value)) (d : Document τ) :
    linkEntry n e d = (.ok (), d) ∧
        d.forest.drawnEntries n (e :: es) = d.forest.drawnEntries n es ∨
      (∃ c, d.forest.contains c = true ∧
        linkEntry n e d = (.ok (), { d with
          forest := d.forest.setPlace c (some ⟨n, e.property⟩) }) ∧
        d.forest.drawnEntries n (e :: es) = c :: d.forest.drawnEntries n es) ∨
      (∃ fault, linkEntry n e d = (.error fault, d)) ∧ d.forest.drawnEntries n (e :: es) = [] := by
  have hopen : ∀ g, d.forest.feature n e.property = .ok g → linkEntry n e d =
      (if g.owns then
        match e.value.node? with
        | some child => setPlace child (some ⟨n, e.property⟩)
        | none => pure ()
      else pure () : Edit τ Unit) d := fun g hg =>
    bind_of_ok (show query (·.feature n e.property) d = (.ok g, d) from congrArg (·, d) hg)
  rw [Forest.drawnEntries]
  cases hg : d.forest.feature n e.property with
  | error fault => exact .inr (.inr ⟨⟨fault, bind_of_error (congrArg (·, d) hg)⟩, rfl⟩)
  | ok g =>
    rw [hopen g hg]
    by_cases howns : g.owns = true
    · rw [if_pos howns]
      dsimp only
      rw [if_pos howns]
      cases hnode : e.value.node? with
      | none => exact .inl ⟨rfl, rfl⟩
      | some c =>
        by_cases hc : d.forest.contains c = true
        · exact .inr (.inl ⟨c, hc, setPlace_apply hc, if_pos hc⟩)
        · exact .inr (.inr ⟨setPlace_missing _ hc, if_neg hc⟩)
    · rw [if_neg howns]
      dsimp only
      rw [if_neg howns]
      exact .inl ⟨rfl, rfl⟩

/-- **Linking** draws in the children of a value, up to where it fails. -/
theorem link_draws (n : NodeId) (p : PropertyId) (v : Value) (incoming : List NodeId)
    (d : Document τ) :
    d.forest.Draws n (d.forest.drawn n v incoming) (link n p v incoming d).2.forest := by
  cases v with
  | mixed es =>
    -- The entries are gone through in order, and what follows the first that fails is not linked.
    show d.forest.Draws n (d.forest.drawnEntries n es) _
    induction es generalizing d with
    | nil => exact .nil
    | cons e es ih =>
      rw [link_cons]
      rcases linkEntry_cases (n := n) e es d with ⟨he, hdrawn⟩ | ⟨c, hc, he, hdrawn⟩ |
        ⟨⟨fault, he⟩, hdrawn⟩
      · rw [bind_of_ok he, hdrawn]
        exact ih d
      · rw [bind_of_ok he, hdrawn]
        have hsame : (d.forest.setPlace c (some ⟨n, e.property⟩)).drawnEntries n es =
            d.forest.drawnEntries n es :=
          Forest.drawnEntries_congr (Forest.schema_setPlace _)
            (fun _ => Forest.typeOf_setPlace _) es
        have hrest := ih { d with forest := d.forest.setPlace c (some ⟨n, e.property⟩) }
        dsimp only at hrest
        rw [hsame] at hrest
        exact (Forest.draws_setPlace hc).append hrest
      · rw [bind_of_error he, hdrawn]
        exact .nil
  | _ => exact forM_setPlace_draws incoming d

/-- **Overwriting a slot closes a circle** exactly if the value encloses the node. -/
theorem overwrite_acyclic_iff (ha : d.forest.Acyclic) (b : Bool) :
    (overwrite n p v b d).2.forest.Acyclic ↔ ¬ d.forest.Encloses n p v := by
  show (overwrite n p v b).Ends d fun _ d' => d'.forest.Acyclic ↔ ¬ d.forest.Encloses n p v
  -- Where the slot or the children cannot be told, nothing is written and nothing comes in.
  refine .query (fun s hs => .query (fun outgoing hout => .query (fun incoming hin => ?_)
    fun e he => ?_) fun e he => ?_) fun e he => ?_
  · rw [Forest.encloses_iff hs hout hin]
    let lost := outgoing.filter (!incoming.contains ·)
    by_cases hall : ∀ c ∈ lost, d.forest.contains c = true
    · let d₁ : Document τ := { d with forest := d.forest.free lost }
      have hdrawn : d₁.forest.drawn n v incoming = d.forest.drawn n v incoming :=
        Forest.drawn_congr (Forest.schema_free lost) (fun _ => Forest.typeOf_free lost) v incoming
      have hwrite : Keeps
          (fun d' : Document τ => d₁.forest.Draws n (d₁.forest.drawn n v incoming) d'.forest)
          (do modifySlot n p fun _ => ⟨v, b⟩; advance : Edit τ Unit) :=
        .bind (keeps_modifySlot (fun _ _ h => h.setSlot) _) fun _ _ h => h
      have hdraws : (do
          link n p v incoming
          modifySlot n p fun _ => ⟨v, b⟩
          advance : Edit τ Unit).Ends d₁ fun _ d' =>
            d₁.forest.Draws n (d₁.forest.drawn n v incoming) d'.forest :=
        .bind (R := fun _ d' => d₁.forest.Draws n (d₁.forest.drawn n v incoming) d'.forest)
          (link_draws n p v incoming d₁) (fun _ d' h => hwrite d' h) fun _ _ h => h
      rw [ends_bind_of_ok (unlink_apply hall)]
      refine hdraws.mono fun _ d' h => ?_
      rw [h.acyclic_iff ((Forest.sheds_free lost).acyclic ha), hdrawn]
      simp only [not_and, not_exists]
      exact ⟨fun h _ => h, fun h => h hall⟩
    · obtain ⟨e, he⟩ := unlink_missing hall
      have hshed : d.forest.Sheds (unlink lost d).2.forest := releasing_shed.unlink lost d .refl
      exact .of_eq (bind_of_error (Prod.ext he rfl))
        (iff_of_true (hshed.acyclic ha) fun h => hall h.1)
  · refine iff_of_true ha ?_
    rintro ⟨_, _, ⟨_, _, _, _, _, hin, -⟩, -⟩
    rw [he] at hin
    exact absurd hin (by simp)
  · refine iff_of_true ha ?_
    rintro ⟨_, _, ⟨s', _, _, hs', hout, -⟩, -⟩
    obtain rfl := ok_unique hs hs'
    rw [he] at hout
    exact absurd hout (by simp)
  · refine iff_of_true ha ?_
    rintro ⟨_, _, ⟨_, _, _, hs, -⟩, -⟩
    rw [he] at hs
    exact absurd hs (by simp)

/-! ## Edits that take children in -/

/-- Climbs end, however the edit ended, and if it went through it took in nothing. -/
def Spared (f₀ : Forest) (r : Except Fault α) (d : Document τ) : Prop :=
  d.forest.Acyclic ∧ ((∃ a, r = .ok a) → f₀.Sheds d.forest)

theorem Spared.of_shed {r : Except Fault α} (ha : f₀.Acyclic) (h : Shed f₀ d) : Spared f₀ r d :=
  ⟨Forest.Sheds.acyclic h ha, fun _ => h⟩

/-- The edit keeps every climb one that ends. -/
abbrev KeepsAcyclic (x : Edit τ α) : Prop := Keeps (fun d => d.forest.Acyclic) x

theorem mending_spared {x : Edit τ α} {repair : Edit τ Unit} (hx : Keeps (Shed f₀) x)
    (hrepair : KeepsAcyclic repair) (ha : f₀.Acyclic) (hd : Shed f₀ d) :
    (x.mending repair).Ends d (Spared f₀) :=
  .mending (R := fun _ d' => Shed f₀ d') (fun _ _ h => .of_shed ha h)
    (fun _ d' h => ⟨hrepair d' (Forest.Sheds.acyclic h ha), fun h => absurd h (by simp)⟩) (hx d hd)

section taking

variable {restore : List Whereabouts → Edit τ Unit} (hrestore : ∀ ws, KeepsAcyclic (restore ws))

include hrestore

theorem releaseAll_spared (ha : f₀.Acyclic) (here : List NodeId) (moved : List Whereabouts)
    (cs : List NodeId) (hd : Shed f₀ d) :
    (releaseAll restore here moved cs).Ends d (Spared f₀) := by
  -- A release that fails puts the children before it back, so only the whole gains no place.
  induction cs generalizing moved d with
  | nil => exact .of_shed ha hd
  | cons c cs ih =>
    unfold releaseAll
    split
    · exact ih moved hd
    · exact .bind (mending_spared (keepsShed_release c) (hrestore moved) ha hd)
        (fun placed d' h => ih _ (h.2 ⟨placed, rfl⟩))
        fun _ _ h => ⟨h.1, fun h => absurd h (by simp)⟩

/-- **Replacing a value** keeps climbs ending, given that releases do. -/
theorem keepsAcyclic_replace {release : List NodeId → Edit τ (List Whereabouts)}
    (hrelease : ∀ cs (f₀ : Forest) (d : Document τ), f₀.Acyclic → Shed f₀ d →
      (release cs).Ends d (Spared f₀)) : KeepsAcyclic (replace release restore n p v) := by
  intro d ha
  show (replace release restore n p v).Ends d fun _ d' => d'.forest.Acyclic
  refine .query (fun incoming hadmitted => ?_) fun _ _ => ha
  refine .query (fun slot hslot => ?_) fun _ _ => ha
  -- Up to the writing no place is gained, so what was admitted encloses nothing still.
  refine .bind (R := fun _ d' => Shed d.forest d') (keepsShed_poll _ d .refl) (fun _ d₁ h₁ => ?_)
    fun _ _ h => Forest.Sheds.acyclic h ha
  refine .bind (hrelease incoming d.forest d₁ ha h₁) (fun moved d₂ h₂ => ?_) fun _ _ h => h.1
  refine .bind (mending_spared (keepsShed_announce _) (hrestore moved) ha (h₂.2 ⟨moved, rfl⟩))
    (fun _ d₃ h₃ => ?_) fun _ _ h => h.1
  refine .query (fun g _ => ?_) fun _ _ => h₃.1
  exact (overwrite_acyclic_iff h₃.1 _).mpr ((h₃.2 ⟨(), rfl⟩).not_encloses ha hadmitted)

theorem keepsAcyclic_setBy : KeepsAcyclic (setBy restore n p v) :=
  keepsAcyclic_replace hrestore fun cs _ _ ha hd =>
    .query (fun _ _ => releaseAll_spared hrestore ha _ _ cs hd) fun _ _ => .of_shed ha hd

/-- The end of an insertion: a child moves in, and `n` was not below it when it was admitted. -/
theorem announceInsert_acyclic {incoming : Option NodeId} {moved : List Whereabouts} {N : Notice}
    {q : PropertyId} {g : Slot → Slot} (ha : f₀.Acyclic)
    (hin : ∀ c, incoming = some c → f₀.isWithin n c = false) (hd : Shed f₀ d) :
    (do
      (announce N).mending (restore moved)
      incoming.forM (setPlace · (some ⟨n, q⟩))
      modifySlot n p g
      advance : Edit τ Unit).Ends d fun _ d' => d'.forest.Acyclic := by
  refine .bind (R := Spared f₀) (mending_spared (keepsShed_announce _) (hrestore moved) ha hd)
    (fun _ d₁ h₁ => ?_) fun _ _ h => h.1
  have hplace : (incoming.forM (setPlace · (some ⟨n, q⟩)) : Edit τ Unit).Ends d₁
      fun _ d' => d'.forest.Acyclic := by
    cases incoming with
    | none => exact h₁.1
    | some c =>
      -- The test was made before the child was released, and no place was gained since.
      have hnot : ¬ d₁.forest.Within n c := (h₁.2 ⟨(), rfl⟩).not_within ha (hin c rfl)
      show (setPlace c (some ⟨n, q⟩)).Ends d₁ fun _ d' => d'.forest.Acyclic
      by_cases hc : d₁.forest.contains c = true
      · refine .of_eq (setPlace_apply hc) (((Forest.draws_setPlace hc).acyclic_iff h₁.1).mpr ?_)
        exact fun x hx => List.mem_singleton.mp hx ▸ hnot
      · obtain ⟨e, he⟩ := setPlace_missing (some ⟨n, q⟩) hc
        exact .of_eq he h₁.1
  have hwrite : KeepsAcyclic (do modifySlot n p g; advance : Edit τ Unit) :=
    .bind (keeps_modifySlot (fun _ _ h => Forest.sheds_setSlot.acyclic h) g) fun _ _ h => h
  exact .bind hplace (fun _ d' h => hwrite d' h) fun _ _ h => h

/-- **An admitted insertion** keeps climbs ending: at most a release stands between the test and
the end of it. -/
theorem bringIn_acyclic {N : Notice} {incoming : Option NodeId} {q : PropertyId} {w : Slot → Slot}
    (ha : d.forest.Acyclic)
    (hnew : ∀ c, incoming = some c → d.forest.requireNewcomer N.node N.property c = .ok ()) :
    (bringIn restore N incoming q w).Ends d fun _ d' => d'.forest.Acyclic := by
  have hin : ∀ c, incoming = some c → d.forest.isWithin N.node c = false :=
    fun c hc => (Forest.requireNewcomer_eq_ok.mp (hnew c hc)).1
  refine .bind (R := fun _ d' => Shed d.forest d') (keepsShed_poll _ d .refl) (fun _ d₁ h₁ => ?_)
    fun _ _ h => Forest.Sheds.acyclic h ha
  cases incoming with
  | none => exact announceInsert_acyclic hrestore ha hin h₁
  | some c =>
    exact .bind (R := fun _ d' => Shed d.forest d') (keepsShed_release c d₁ h₁)
      (fun _ _ h => announceInsert_acyclic hrestore ha hin h)
      fun _ _ h => Forest.Sheds.acyclic h ha

theorem keepsAcyclic_insertBy {i : Nat} {item : Value} :
    KeepsAcyclic (insertBy restore n p i item) := by
  intro d ha
  show (insertBy restore n p i item).Ends d fun _ d' => d'.forest.Acyclic
  rw [insertBy_eq]
  refine .query (fun incoming hadmitted => ?_) fun _ _ => ha
  obtain ⟨_, _, -, -, -, -, -, hnew⟩ := Forest.admitItem_eq_ok.mp hadmitted
  exact .query (fun _ _ => bringIn_acyclic hrestore ha hnew) fun _ _ => ha

theorem keepsAcyclic_insertMixedBy {i : Nat} {member : PropertyId} :
    KeepsAcyclic (insertMixedBy restore n i member v) := by
  intro d ha
  show (insertMixedBy restore n i member v).Ends d fun _ d' => d'.forest.Acyclic
  rw [insertMixedBy_eq]
  refine .query (fun admitted hadmitted => ?_) fun _ _ => ha
  obtain ⟨mixed, incoming⟩ := admitted
  obtain ⟨_, _, -, -, -, -, -, -, hnew⟩ := Forest.admitEntry_eq_ok.mp hadmitted
  exact .query (fun _ _ => bringIn_acyclic hrestore ha hnew) fun _ _ => ha

end taking

/-- **Putting children back** is taking them in again, at whatever depth. -/
theorem keepsAcyclic_putBack (depth : Nat) (ws : List Whereabouts) :
    KeepsAcyclic (putBack depth ws : Edit τ Unit) := by
  -- On each level the way to put back is that of the level below.
  induction depth generalizing ws with
  | zero => exact .throw _
  | succ depth ih =>
    refine .forM (fun w => ?_) _
    obtain ⟨child, ⟨container, p⟩, position⟩ := w
    cases position with
    | mixed i => exact keepsAcyclic_insertMixedBy ih
    | listed i => exact keepsAcyclic_insertBy ih
    | single => exact keepsAcyclic_setBy ih

end Edit

/-! ## All edits -/

theorem Forest.Acyclic.create {f f' : Forest} {t : TypeId} (ha : f.Acyclic)
    (h : f.create t = .ok (n, f')) : f'.Acyclic :=
  ha.of_under fun _ _ => (Forest.Under.of_place? (Forest.place?_create h)).mp

theorem Edit.keepsAcyclic_createOf (t : TypeId) :
    Edit.KeepsAcyclic (Edit.createOf t : Edit τ NodeId) := by
  intro d ha
  unfold Edit.createOf
  cases h : d.forest.create t with
  | error e => exact ha
  | ok created => exact ha.create h

/-- **The edit encloses its node**: it is an `unset` that the audience accepts, and the default
encloses the node. -/
def Mutation.Encloses (d : Document τ) : Mutation → Prop
  | .unset n p => (Edit.unset n p d).2.history ≠ d.history ∧
      ∃ g, d.forest.feature n p = .ok g ∧ g.owner = none ∧ d.forest.Encloses n p g.restValue
  | _ => False

namespace Edit

/-- A change that is announced and then written, without any release: what is refused is not
written. -/
theorem announced_acyclic_iff (ha : d.forest.Acyclic) (N : Notice) (b : Bool) :
    (do
      announce N
      overwrite n p v b : Edit τ Unit).Ends d fun _ d' =>
        d'.forest.Acyclic ↔ ¬ (d'.history ≠ d.history ∧ d.forest.Encloses n p v) := by
  have happly := (announce_apply N d).2
  cases hN : (announce N d).1 with
  | error e =>
    rw [hN, if_neg (by simp), List.append_nil] at happly
    refine .of_eq (bind_of_error (Prod.ext hN happly)) (iff_of_true ha fun h => h.1 rfl)
  | ok u =>
    rw [hN, if_pos rfl] at happly
    rw [ends_bind_of_ok (Prod.ext hN happly)]
    show (overwrite n p v b _).2.forest.Acyclic ↔ _
    rw [(Document.Silent.overwrite v b _ ⟨rfl, rfl⟩).history]
    exact (overwrite_acyclic_iff (by exact ha) b).trans
      (not_congr ⟨fun h => ⟨by simp, h⟩, And.right⟩)

theorem unset_acyclic_iff (ha : d.forest.Acyclic) :
    (unset n p d).2.forest.Acyclic ↔ ¬ (Mutation.unset n p).Encloses d := by
  show (unset n p).Ends d fun _ d' => d'.forest.Acyclic ↔ ¬ (d'.history ≠ d.history ∧
    ∃ g, d.forest.feature n p = .ok g ∧ g.owner = none ∧ d.forest.Encloses n p g.restValue)
  have hstop : d.forest.Acyclic ↔ ¬ (d.history ≠ d.history ∧
      ∃ g, d.forest.feature n p = .ok g ∧ g.owner = none ∧ d.forest.Encloses n p g.restValue) :=
    iff_of_true ha fun h => h.1 rfl
  unfold unset
  refine .query (fun g hg => ?_) fun _ _ => hstop
  cases ho : g.owner with
  | some m =>
    simp only [Option.isSome_some, if_true]
    exact .query (fun _ _ => hstop) fun _ _ => hstop
  | none =>
    simp only [Option.isSome_none, Bool.false_eq_true, if_false]
    refine .query (fun slot _ => (announced_acyclic_iff ha _ _).mono fun _ d' h => ?_)
      fun _ _ => hstop
    rw [h]
    refine not_congr (and_congr_right fun _ => ⟨fun h => ⟨g, hg, ho, h⟩, ?_⟩)
    rintro ⟨g', hg', -, h⟩
    obtain rfl := ok_unique hg hg'
    exact h

end Edit

open Edit (KeepsAcyclic)

/-- **An edit keeps climbs ending** exactly if it does not enclose its node. -/
theorem Mutation.acyclic_iff (m : Mutation) (ha : d.forest.Acyclic) :
    (m.run d).2.forest.Acyclic ↔ ¬ m.Encloses d := by
  -- All edits but `unset` keep climbs ending: either they take no child in, or they ask first.
  have hkept : ∀ {x : Edit τ Mutation.Outcome}, KeepsAcyclic x →
      ((x d).2.forest.Acyclic ↔ ¬ False) := fun hx => iff_of_true (hx d ha) id
  have hshed : ∀ {x : Edit τ Mutation.Outcome}, Edit.Keeps (Edit.Shed d.forest) x →
      ((x d).2.forest.Acyclic ↔ ¬ False) := fun hx => iff_of_true ((hx d .refl).acyclic ha) id
  have hback := Edit.keepsAcyclic_putBack (τ := τ) Edit.restoreDepth
  have hinsert : ∀ n p i item, KeepsAcyclic (Edit.insert n p i item : Edit τ Unit) :=
    fun _ _ _ _ => Edit.keepsAcyclic_insertBy hback
  have hinsertMixed : ∀ n i member v, KeepsAcyclic (Edit.insertMixed n i member v : Edit τ Unit) :=
    fun _ _ _ _ => Edit.keepsAcyclic_insertMixedBy hback
  cases m with
  | create typeName =>
    exact hkept (.bind (.bind (.query _) Edit.keepsAcyclic_createOf) fun _ => .pure _)
  | createOf t => exact hkept (.bind (Edit.keepsAcyclic_createOf t) fun _ => .pure _)
  | set n p v => exact hkept (.bind (Edit.keepsAcyclic_setBy hback) fun _ => .pure _)
  | unset n p =>
    show ((Edit.unset n p >>= fun _ => pure .done : Edit τ Outcome) d).2.forest.Acyclic ↔ _
    rw [Edit.snd_bind_pure]
    exact Edit.unset_acyclic_iff ha
  | add n p item =>
    exact hkept (.bind (.bind (.query _) fun _ => hinsert n p _ item) fun _ => .pure _)
  | insert n p i item => exact hkept (.bind (hinsert n p i item) fun _ => .pure _)
  | remove n p i => exact hshed (.bind (Edit.releasing_shed.remove i) fun _ => .pure _)
  | move n p i j => exact hshed (.bind (Edit.releasing_shed.move i j) fun _ => .pure _)
  | addMixed n member v =>
    exact hkept (.bind (.bind (.query _) fun _ => .bind (.query _) fun _ =>
      hinsertMixed n _ member v) fun _ => .pure _)
  | insertMixed n i member v => exact hkept (.bind (hinsertMixed n i member v) fun _ => .pure _)
  | removeMixed n i => exact hshed (.bind (Edit.releasing_shed.removeMixed i) fun _ => .pure _)
  | detach n =>
    exact hshed (.bind (.bind (Edit.keepsShed_release n) fun _ => .pure _) fun _ => .pure _)

theorem Document.Reachable.acyclic
    (h : d.Reachable schema fun d m => ¬ m.Encloses d) : d.forest.Acyclic :=
  h.forest_induction (fun _ _ _ ht => Forest.Acyclic.create Forest.acyclic_empty ht)
    fun _ m _ hm hf => (m.acyclic_iff hf).mpr hm

/-- **The way up ends** at every node of a document that is reached without an edit that encloses
its node, whatever the schema: after as many steps as there are nodes it is past the top, and so
the tests whether a node is below another one, or below one of several, look at all of it. The
next edit makes some climb endless exactly if it encloses its node. -/
theorem Document.Reachable.climbs_end_iff
    (h : d.Reachable schema fun d m => ¬ m.Encloses d) :
    (∀ n, d.forest.ancestor (d.forest.nodes.length + 1) n = none) ∧
      (∀ n r, d.forest.isWithin n r = true ↔ ∃ k, d.forest.ancestor k n = some r) ∧
      (∀ n roots, d.forest.isWithinAny n roots = true ↔
        ∃ r ∈ roots, ∃ k, d.forest.ancestor k n = some r) ∧
      ∀ m : Mutation, (∀ n, ∃ k, (m.run d).2.forest.ancestor k n = none) ↔ ¬ m.Encloses d := by
  have ha := h.acyclic
  refine ⟨ha.ancestor_eq_none, fun n r => ?_, fun n roots => ?_, fun m => ?_⟩
  · rw [Forest.isWithin_iff ha, Forest.within_iff_ancestor]
  · simp only [Forest.isWithinAny_iff ha, Forest.within_iff_ancestor]
  · rw [← m.acyclic_iff ha, Forest.acyclic_iff_climbs_end]

/-! ## An example -/

/-- One bead. -/
def Necklace.blank : Document Unit where
  forest := ⟨Necklace.schema, [⟨⟨0⟩, [⟨.node ⟨0⟩, false⟩], none⟩]⟩
  root := ⟨0⟩
  audience := { memory := () }

/-- Two beads hang from one another. Once the second one is followed by what follows a bead by
default, the climb from one of them has no end. -/
theorem Document.Reachable.climbs_end_iff_necklace :
    let d := Necklace.blank.after [.create "Bead", .set ⟨0⟩ Necklace.next (.node ⟨1⟩)]
    let m : Mutation := .unset ⟨1⟩ Necklace.next
    Schema.build Necklace.types = .ok Necklace.schema ∧ (∀ n, d.forest.ancestor 3 n = none) ∧
      ∃ n, ∀ k, (m.run d).2.forest.ancestor k n ≠ none := by
  intro d m
  have hreach : d.Reachable Necklace.schema fun d m => ¬ m.Encloses d :=
    .edit _ _ (.edit _ _ (.new "Bead" () Necklace.blank rfl) id) id
  have hencloses : m.Encloses d := by
    refine ⟨fun h => absurd (congrArg List.length h) (by decide +kernel), _, rfl, rfl, ?_⟩
    refine (Forest.encloses_iff (s := ⟨.node ⟨0⟩, false⟩) (by decide +kernel) rfl rfl).mpr
      ⟨by decide +kernel, ⟨0⟩, by decide +kernel, ?_⟩
    exact Forest.within_of_isWithin (by decide +kernel)
  obtain ⟨hend, -, -, hnext⟩ := climbs_end_iff hreach
  refine ⟨rfl, hend, ?_⟩
  by_contra hall
  exact (hnext m).mp (fun n => not_forall_not.mp (not_exists.mp hall n)) hencloses

end TrackedGraph
