/-
Climbs that end, and climbs that do not.

A climb goes from a node to its container, to the container of that and so on. It ends exactly
in the forests in which no node sits below itself (`acyclic_iff_climbs_end`); in the others it
goes round for ever. Places change in two ways: nodes lose them (`Sheds`), which no climb minds,
or nodes are drawn into a new container (`Draws`). The latter closes a circle exactly if the
container is below one of the nodes (`Draws.acyclic_iff`).

Nothing here asks for a schema in order: these are the facts for forests in which defaults may
list any child.
-/
import TrackedGraph.Proofs.Forest.Admit
import TrackedGraph.Proofs.Forest.Tree

set_option autoImplicit false

open Relation

namespace TrackedGraph.Forest

variable {f f' f'' : Forest} {n m a b c : NodeId} {p q : PropertyId} {v : Value} {T : List NodeId}
  {s : Slot}

/-! ## Climbs -/

/-- A node that sits below itself has a container that does. -/
theorem exists_under_of_transGen (h : TransGen f.Under a a) :
    ∃ b, f.Under a b ∧ TransGen f.Under b b := by
  obtain ⟨b, hab, hba⟩ := TransGen.head'_iff.mp h
  exact ⟨b, hab, TransGen.tail' hba hab⟩

/-- From a node that sits below itself the climb never ends. -/
theorem ancestor_isSome_of_transGen (h : TransGen f.Under a a) (k : Nat) :
    (f.ancestor k a).isSome = true := by
  induction k generalizing a with
  | zero => rfl
  | succ k ih =>
    obtain ⟨b, hab, hb⟩ := exists_under_of_transGen h
    obtain ⟨r, hr⟩ := Option.isSome_iff_exists.mp (ih hb)
    exact Option.isSome_iff_exists.mpr ⟨r, ancestor_succ.mpr ⟨b, hab, hr⟩⟩

/-- **Every climb ends**, after no more steps than there are nodes. -/
theorem Acyclic.ancestor_eq_none (ha : f.Acyclic) (n : NodeId) :
    f.ancestor (f.nodes.length + 1) n = none := by
  cases h : f.ancestor (f.nodes.length + 1) n with
  | none => rfl
  | some r => exact absurd (ancestor_le ha h) (by omega)

/-- **Climbs end exactly where no node sits below itself.** -/
theorem acyclic_iff_climbs_end : f.Acyclic ↔ ∀ n, ∃ k, f.ancestor k n = none := by
  constructor
  · exact fun ha n => ⟨_, ha.ancestor_eq_none n⟩
  · intro h c hc
    obtain ⟨k, hk⟩ := h c
    have hsome := ancestor_isSome_of_transGen hc k
    rw [hk] at hsome
    exact absurd hsome (by simp)

/-- Climbing from each node tells whether one sits below itself. -/
theorem acyclic_iff_climbs_stop :
    f.Acyclic ↔ ∀ n ∈ f.ids, f.ancestor (f.nodes.length + 1) n = none := by
  refine ⟨fun ha n _ => ha.ancestor_eq_none n, fun h => acyclic_iff_climbs_end.mpr fun n => ?_⟩
  by_cases hn : f.contains n = true
  · exact ⟨_, h n (List.mem_map.mpr ⟨n.index, List.mem_range.mpr (by simpa [contains] using hn), rfl⟩)⟩
  · refine ⟨1, ?_⟩
    rw [ancestor, place?_eq_none_of_not_contains hn]
    rfl

instance (f : Forest) : Decidable f.Acyclic := decidable_of_iff _ acyclic_iff_climbs_stop.symm

theorem acyclic_empty {schema : Schema} : (empty schema).Acyclic := by
  intro c hc
  obtain ⟨b, ⟨q, hplace⟩, -⟩ := exists_under_of_transGen hc
  obtain ⟨x, hx, -⟩ := place?_eq_some.mp hplace
  exact absurd hx (by simp [empty])

/-! ## Losing places -/

/-- The second forest has the nodes of the first one, with no place that the first one does not
have. -/
structure Sheds (f f' : Forest) : Prop where
  schema : f'.schema = f.schema
  types : ∀ m, f'.typeOf m = f.typeOf m
  under : ∀ a b, f'.Under a b → f.Under a b

theorem Sheds.refl : f.Sheds f := ⟨rfl, fun _ => rfl, fun _ _ => id⟩

theorem Sheds.trans (h : f.Sheds f') (h' : f'.Sheds f'') : f.Sheds f'' :=
  ⟨h'.schema.trans h.schema, fun m => (h'.types m).trans (h.types m),
    fun a b hu => h.under a b (h'.under a b hu)⟩

theorem Sheds.acyclic (h : f.Sheds f') (ha : f.Acyclic) : f'.Acyclic := ha.of_under h.under

theorem Sheds.within (h : f.Sheds f') (hw : f'.Within n m) : f.Within n m := hw.of_under h.under

/-- A node that was found not to be below another one is not below it still. -/
theorem Sheds.not_within (h : f.Sheds f') (ha : f.Acyclic) (hnot : f.isWithin n c = false) :
    ¬ f'.Within n c :=
  fun hw => (isWithin_eq_false_iff ha).mp hnot (h.within hw)

theorem Sheds.owned (h : f.Sheds f') : f'.owned n p v = f.owned n p v := by
  unfold Forest.owned
  rw [h.types, h.schema]

theorem Under.of_place? (h : f'.place? a = f.place? a) : f'.Under a b ↔ f.Under a b := by
  unfold Under
  rw [h]

theorem sheds_setSlot : f.Sheds (f.setSlot n p s) :=
  ⟨rfl, fun _ => typeOf_setSlot s, fun _ _ => (Under.of_place? (place?_setSlot s)).mp⟩

theorem sheds_setPlace_none : f.Sheds (f.setPlace c none) := by
  refine ⟨rfl, fun _ => typeOf_setPlace none, fun a b hu => ?_⟩
  obtain ⟨q, hp⟩ := hu
  rw [place?_setPlace] at hp
  split at hp
  · exact absurd hp (by simp)
  · exact ⟨q, hp⟩

theorem sheds_free (cs : List NodeId) : f.Sheds (f.free cs) := by
  induction cs generalizing f with
  | nil => exact .refl
  | cons c cs ih => exact sheds_setPlace_none.trans ih

/-! ## New places -/

/-- In the second forest the nodes `T` sit in `n`; all others sit where they sat. -/
structure Draws (f : Forest) (n : NodeId) (T : List NodeId) (f' : Forest) : Prop where
  schema : f'.schema = f.schema
  types : ∀ m, f'.typeOf m = f.typeOf m
  under : ∀ a b, f'.Under a b ↔ a ∈ T ∧ b = n ∨ a ∉ T ∧ f.Under a b

theorem Draws.nil : f.Draws n [] f := ⟨rfl, fun _ => rfl, fun a b => by simp⟩

theorem draws_setPlace (hc : f.contains c = true) :
    f.Draws n [c] (f.setPlace c (some ⟨n, q⟩)) := by
  refine ⟨rfl, fun _ => typeOf_setPlace _, fun a b => ?_⟩
  unfold Under
  rw [place?_setPlace]
  by_cases ha : a = c
  · simp [ha, hc, eq_comm]
  · simp [ha]

theorem Draws.setSlot (h : f.Draws n T f') : f.Draws n T (f'.setSlot m p s) :=
  ⟨h.schema, fun c => (typeOf_setSlot s).trans (h.types c),
    fun a b => (Under.of_place? (place?_setSlot s)).trans (h.under a b)⟩

theorem Draws.append {T' : List NodeId} (h : f.Draws n T f') (h' : f'.Draws n T' f'') :
    f.Draws n (T ++ T') f'' := by
  refine ⟨h'.schema.trans h.schema, fun m => (h'.types m).trans (h.types m), fun a b => ?_⟩
  rw [h'.under, h.under, List.mem_append]
  tauto

/-- A path upward that meets one of the nodes `T` is still there up to the first it meets. -/
theorem exists_within_of_kept (hkeep : ∀ a b, a ∉ T → f.Under a b → f'.Under a b)
    (h : f.Within n c) (hc : c ∈ T) : ∃ x ∈ T, f'.Within n x := by
  -- By induction from the lower end: the path is cut at the first node of `T`, whose own place
  -- may be new.
  induction h using ReflTransGen.head_induction_on with
  | refl => exact ⟨c, hc, .refl⟩
  | @head a b hab _ ih =>
    by_cases ha : a ∈ T
    · exact ⟨a, ha, .refl⟩
    · obtain ⟨x, hx, hw⟩ := ih
      exact ⟨x, hx, .head (hkeep a b ha hab) hw⟩

/-- **Nodes that are drawn into a container close a circle** exactly if it is below one of them. -/
theorem Draws.acyclic_iff (h : f.Draws n T f') (ha : f.Acyclic) :
    f'.Acyclic ↔ ∀ c ∈ T, ¬ f.Within n c := by
  constructor
  · -- The container below a drawn node, and that node in the container, are the circle.
    intro ha' c hc hw
    obtain ⟨x, hx, hxw⟩ := exists_within_of_kept
      (fun a b hna hab => (h.under a b).mpr (.inr ⟨hna, hab⟩)) hw hc
    exact ha'.not_within ((h.under x n).mpr (.inl ⟨hx, rfl⟩)) hxw
  · intro hT
    exact ha.of_new_places hT fun c p hu => ((h.under c p).mp hu).symm.imp And.right id

/-! ## What overwriting a slot draws in -/

/-- The children that entries name, up to the first entry whose property or child does not
exist. -/
def drawnEntries (f : Forest) (n : NodeId) : List (Entry Value) → List NodeId
  | [] => []
  | e :: es =>
    match f.feature n e.property with
    | .error _ => []
    | .ok g =>
      match if g.owns then e.value.node? else none with
      | none => f.drawnEntries n es
      | some c => if f.contains c then c :: f.drawnEntries n es else []

/-- The children that come to sit in `n` with a value, given those that its property owns.
Entries count whatever the role of the property is. -/
def drawn (f : Forest) (n : NodeId) (v : Value) (incoming : List NodeId) : List NodeId :=
  match v with
  | .mixed entries => f.drawnEntries n entries
  | _ => incoming.takeWhile f.contains

theorem drawnEntries_congr (hs : f'.schema = f.schema) (ht : ∀ m, f'.typeOf m = f.typeOf m)
    (es : List (Entry Value)) : f'.drawnEntries n es = f.drawnEntries n es := by
  induction es with
  | nil => rfl
  | cons e es ih =>
    unfold drawnEntries
    simp only [feature_congr hs (ht n), contains_congr (ht _), ih]

theorem drawn_congr (hs : f'.schema = f.schema) (ht : ∀ m, f'.typeOf m = f.typeOf m)
    (v : Value) (incoming : List NodeId) : f'.drawn n v incoming = f.drawn n v incoming := by
  have hcontains : f'.contains = f.contains := funext fun m => contains_congr (ht m)
  unfold drawn
  split
  · exact drawnEntries_congr hs ht _
  · rw [hcontains]

theorem mem_drawnEntries {es : List (Entry Value)} (h : c ∈ f.drawnEntries n es) :
    ∃ e ∈ es, f.ownsAt n e.property = true ∧ e.value.node? = some c := by
  induction es with
  | nil => exact absurd h List.not_mem_nil
  | cons e es ih =>
    have htail : c ∈ f.drawnEntries n es →
        ∃ x ∈ e :: es, f.ownsAt n x.property = true ∧ x.value.node? = some c := fun h => by
      obtain ⟨x, hx, hown⟩ := ih h
      exact ⟨x, List.mem_cons_of_mem e hx, hown⟩
    unfold drawnEntries at h
    split at h
    · exact absurd h List.not_mem_nil
    · next g hg =>
      split at h
      · exact htail h
      · next child hchild =>
        split_ifs at hchild with howns
        split_ifs at h with hc
        · rcases List.mem_cons.mp h with rfl | h
          · exact ⟨e, List.mem_cons_self, ownsAt_iff.mpr ⟨g, hg, howns⟩, hchild⟩
          · exact htail h
        · exact absurd h List.not_mem_nil

/-- A sequence fits mixed content only. -/
theorem Fits.isMixed {g : Feature} {es : List (Entry Value)} (h : f.Fits n p g (.mixed es)) :
    g.isMixed = true := by
  unfold Fits at h
  split_ifs at h with hx hm
  · exact hx
  · obtain ⟨_, hlist, -⟩ := h
    exact absurd hlist (by simp)
  · rcases h with hnull | ⟨k, -, hfits, -⟩
    · exact absurd hnull (by simp)
    · rw [not_mixed_of_itemFits rfl] at hfits
      exact absurd hfits (by simp)

/-- A value that is admitted draws in no child but those it was admitted with. -/
theorem mem_incoming_of_drawn {g : Feature} {incoming : List NodeId} (hg : f.feature n p = .ok g)
    (hfits : f.Fits n p g v) (hincoming : incoming = (f.claims n p v).map Prod.fst)
    (h : c ∈ f.drawn n v incoming) : c ∈ incoming := by
  unfold drawn at h
  split at h
  · next es =>
    obtain ⟨e, he, howns, hnode⟩ := mem_drawnEntries h
    rw [hincoming]
    exact List.mem_map.mpr ⟨(c, e.property),
      mem_claims.mpr ⟨g, hg, .inr ⟨hfits.isMixed, howns, e, he, rfl, hnode⟩⟩, rfl⟩
  · exact List.takeWhile_subset _ h

/-- Overwriting the slot with the value frees the children `lost` and draws in those of `taken`. -/
def Redraws (f : Forest) (n : NodeId) (p : PropertyId) (v : Value) (lost taken : List NodeId) :
    Prop :=
  ∃ s outgoing incoming, f.slot n p = .ok s ∧ f.owned n p s.value = .ok outgoing ∧
    f.owned n p v = .ok incoming ∧ lost = outgoing.filter (!incoming.contains ·) ∧
    (∀ c ∈ lost, f.contains c = true) ∧ taken = f.drawn n v incoming

/-- **The value encloses the node**: one of the children that come in with it has the node below
itself, or is it. -/
def Encloses (f : Forest) (n : NodeId) (p : PropertyId) (v : Value) : Prop :=
  ∃ lost taken, f.Redraws n p v lost taken ∧ ∃ c ∈ taken, (f.free lost).Within n c

theorem encloses_iff {outgoing incoming : List NodeId} (hs : f.slot n p = .ok s)
    (hout : f.owned n p s.value = .ok outgoing) (hin : f.owned n p v = .ok incoming) :
    f.Encloses n p v ↔
      (∀ c ∈ outgoing.filter (!incoming.contains ·), f.contains c = true) ∧
        ∃ c ∈ f.drawn n v incoming,
          (f.free (outgoing.filter (!incoming.contains ·))).Within n c := by
  constructor
  · rintro ⟨_, _, ⟨s', out', in', hs', hout', hin', rfl, hall, rfl⟩, hc⟩
    obtain rfl := ok_unique hs hs'
    obtain rfl := ok_unique hout hout'
    obtain rfl := ok_unique hin hin'
    exact ⟨hall, hc⟩
  · rintro ⟨hall, hc⟩
    exact ⟨_, _, ⟨s, outgoing, incoming, hs, hout, hin, rfl, hall, rfl⟩, hc⟩

/-- A value that was admitted encloses nothing, and no less so once places were lost. -/
theorem Sheds.not_encloses {cs : List NodeId} (h : f.Sheds f') (ha : f.Acyclic)
    (hadmitted : f.admitValue n p v = .ok cs) : ¬ f'.Encloses n p v := by
  obtain ⟨g, hg, -, hfits, hcs, -, hnot⟩ := admitValue_eq_ok.mp hadmitted
  -- What comes in is among the children that were asked about when the value was admitted.
  rintro ⟨lost, taken, ⟨s, outgoing, incoming, -, -, hincoming, -, -, rfl⟩, c, hc, hw⟩
  rw [h.owned] at hincoming
  rw [drawn_congr h.schema h.types] at hc
  have hmem := mem_incoming_of_drawn hg hfits (owned_eq_claims hincoming) hc
  rw [owned_eq_claims hincoming, ← hcs] at hmem
  exact (h.trans (sheds_free lost)).not_within ha (hnot c hmem) hw

end TrackedGraph.Forest
