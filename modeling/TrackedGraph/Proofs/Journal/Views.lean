/-
What the views of a journal say, and that memos say the same.

A memo is taken for the revision of the journal and the generation of the document at which
it was asked for. Whatever adds to the journal raises the revision, and a slot is written only
with the generation raised. So a memo of the present moment holds what would be computed now
(`Journal.Current`); only the creation of a node goes by both counts, and a node that was just
created is in no view.

The prior places are what the first of the earliest states says that lists the node
(`Journal.priorPlace_eq`).
-/
import TrackedGraph.Proofs.Recording.Noting

set_option autoImplicit false

namespace TrackedGraph

variable {f f' : Forest} {n root : NodeId} {x : PriorState} {xs : List PriorState} {j j' : Journal}
  {generation generation' : Nat} {c : NodeId}

/-! ## Prior places -/

/-- The places that a state gives to the children that it lists. -/
def Forest.given (f : Forest) (x : PriorState) : List (NodeId × Place) :=
  (f.listed x).map fun c => (c.1, ⟨x.node, c.2⟩)

/-- Whether a state lists the node as a child. -/
def Forest.lists (f : Forest) (n : NodeId) (x : PriorState) : Bool :=
  (f.listed x).any (·.1 == n)

/-- **The first of the earliest states that lists the node.** -/
def Journal.lister (j : Journal) (f : Forest) (n : NodeId) : Option PriorState :=
  j.allEarliest.find? (f.lists n)

/-- The entries of a recorded sequence are of properties that exist. -/
theorem Forest.Recordable.feature_of_entry {g : Feature} {e : Entry Value} (h : f.Recordable x)
    (hg : f.feature x.node x.property = .ok g) (hm : g.isMixed = true) (he : e ∈ x.value.entries) :
    ∃ k, f.feature x.node e.property = .ok k := by
  obtain ⟨g', hg', -, hfits, -⟩ := h
  obtain rfl := ok_unique hg hg'
  cases hset : x.isSet with
  | false =>
    have hrest : x.value = g.restValue := hfits.rest hset
    rw [hrest, Property.restValue, if_pos hm] at he
    exact absurd he (by simp [Value.entries, Value.mixed?])
  | true =>
    obtain ⟨entries, hv, hall⟩ := (Forest.fits_mixed hm).mp (hfits.fits hset)
    have hv : x.value = .mixed entries := hv
    rw [hv] at he
    obtain ⟨⟨k, hk, -⟩, -⟩ := hall e he
    exact ⟨k, hk⟩

namespace Journal

/-- **The places of a state** are those of the children that it lists. -/
theorem placesIn_eq (h : f.Recordable x) : placesIn f x = .ok (f.given x) := by
  obtain ⟨g, hg, -⟩ := id h
  obtain ⟨t, ht, hgt⟩ := Forest.feature_eq_ok.mp hg
  unfold Forest.given Forest.listed
  simp only [placesIn, ht, hgt, bind_ok]
  cases hr : g.role with
  | containment =>
    rw [Forest.claims_of_containment hg (by simp [Property.owns, hr]), List.map_map]
    rfl
  | mixed =>
    have hm : g.isMixed = true := by simp [Property.isMixed, hr]
    rw [Forest.claims_of_mixed hg hm, List.map_filterMap]
    -- No lookup of a member fails, because recorded entries are of properties that exist.
    have hall : x.value.entries.mapM (fun e => do
        let member ← f.schema.feature t e.property
        return if member.owns
          then e.value.node?.map fun child => (child, (⟨x.node, e.property⟩ : Place))
          else none) = .ok (x.value.entries.map fun e =>
            (f.entryClaim x.node e).map fun c => (c.1, (⟨x.node, c.2⟩ : Place))) := by
      apply mapM_eq_map
      intro e he
      obtain ⟨k, hk⟩ := h.feature_of_entry hg hm he
      obtain ⟨u, hu, hku⟩ := Forest.feature_eq_ok.mp hk
      obtain rfl := ok_unique ht hu
      rw [Forest.entryClaim_of_feature hk]
      simp only [hku, bind_ok, pure_eq_ok]
      cases k.owns with
      | false => rfl
      | true =>
        cases e.value.node? with
        | none => rfl
        | some c => rfl
    refine bind_eq_ok.mpr ⟨_, hall, ?_⟩
    rw [List.filterMap_map]
    rfl
  | _ =>
    rw [Forest.claims_of_plain hg (by simp [Property.owns, hr]) (by simp [Property.isMixed, hr])]
    rfl

/-- What is noted already is not noted again. -/
theorem lookup_notePlace {places rest : List (NodeId × Place)} {entry : NodeId × Place} :
    (notePlace places entry ++ rest).lookup n = (places ++ entry :: rest).lookup n := by
  unfold notePlace
  split_ifs with h
  · rw [List.lookup_append, List.lookup_append, List.lookup_cons]
    by_cases hn : n = entry.1
    · have hsome : (places.lookup n).isSome = true := by
        obtain ⟨y, hy, heq⟩ := List.any_eq_true.mp h
        refine List.lookup_isSome_iff.mpr ⟨y, hy, ?_⟩
        rw [hn, eq_of_beq heq]
        exact BEq.rfl
      obtain ⟨place, hplace⟩ := Option.isSome_iff_exists.mp hsome
      rw [hplace]
      rfl
    · rw [show (n == entry.1) = false by simpa using hn]
  · rw [List.append_assoc]
    rfl

theorem lookup_foldl_notePlace (places rest : List (NodeId × Place)) :
    (rest.foldl notePlace places).lookup n = (places ++ rest).lookup n := by
  induction rest generalizing places with
  | nil => rw [List.append_nil]; rfl
  | cons entry rest ih => rw [List.foldl_cons, ih, lookup_notePlace]

/-- Where a state lists the node. -/
theorem lookup_given : ∃ q, f.lists n x = true ∧ (n, q) ∈ f.listed x ∧
      (f.given x).lookup n = some ⟨x.node, q⟩ ∨
    f.lists n x = false ∧ (f.given x).lookup n = none := by
  unfold Forest.lists Forest.given
  induction f.listed x with
  | nil => exact ⟨default, .inr ⟨rfl, rfl⟩⟩
  | cons c cs ih =>
    rw [List.any_cons, List.map_cons, List.lookup_cons]
    by_cases hn : n = c.1
    · subst hn
      refine ⟨c.2, .inl ⟨by simp, List.mem_cons_self, ?_⟩⟩
      simp
    · have hne : (n == c.1) = false := by simpa using hn
      have hne' : (c.1 == n) = false := by simpa using fun h => hn h.symm
      simp only [hne, hne', Bool.false_or]
      obtain ⟨q, ⟨hany, hq, hlookup⟩ | hnone⟩ := ih
      · exact ⟨q, .inl ⟨hany, List.mem_cons_of_mem _ hq, hlookup⟩⟩
      · exact ⟨q, .inr hnone⟩

/-- The first state that lists the node says where it sat. -/
theorem lookup_flatMap_given (xs : List PriorState) : match xs.find? (f.lists n) with
    | some x => ∃ q, (n, q) ∈ f.listed x ∧ (xs.flatMap f.given).lookup n = some ⟨x.node, q⟩
    | none => (xs.flatMap f.given).lookup n = none := by
  induction xs with
  | nil => rfl
  | cons x xs ih =>
    rw [List.find?_cons, List.flatMap_cons, List.lookup_append]
    obtain ⟨q, ⟨hlists, hq, hlookup⟩ | ⟨hlists, hlookup⟩⟩ := lookup_given (f := f) (n := n) (x := x)
    · rw [hlists, hlookup]
      exact ⟨q, hq, rfl⟩
    · rw [hlists, hlookup]
      exact ih

theorem findPriorPlaces_eq (h : ∀ x ∈ j.allEarliest, f.Recordable x) :
    findPriorPlaces f j = .ok ((j.allEarliest.flatMap f.given).foldl notePlace []) := by
  unfold findPriorPlaces
  rw [mapM_eq_map fun x hx => placesIn_eq (h x hx), bind_ok, ← List.flatMap_def]
  rfl

/-- **The prior places depend on the journal alone**, as long as the nodes keep their types. -/
theorem findPriorPlaces_congr (h : ∀ x ∈ j.allEarliest, f.Recordable x)
    (hs : f'.schema = f.schema) (ht : ∀ m u, f.typeOf m = .ok u → f'.typeOf m = .ok u) :
    findPriorPlaces f' j = findPriorPlaces f j := by
  have hgiven : ∀ x ∈ j.allEarliest, f'.given x = f.given x := by
    intro x hx
    obtain ⟨g, hg, -⟩ := h x hx
    obtain ⟨t, htx, -⟩ := Forest.feature_eq_ok.mp hg
    have hlisted : f'.listed x = f.listed x :=
      Forest.claims_congr (Forest.feature_congr hs ((ht _ _ htx).trans htx.symm))
    unfold Forest.given
    rw [hlisted]
  rw [findPriorPlaces_eq h, findPriorPlaces_eq fun x hx => (h x hx).of_types hs ht,
    List.flatMap_congr hgiven]

/-! ## Deleted nodes -/

theorem mem_findDeleted (hf : f.Sound True) : n ∈ findDeleted f j ↔
    (∃ c, (c ∈ j.left ∨ c ∈ j.entered) ∧ f.contains c = true ∧ f.Within n c) ∧
      ∀ root ∈ j.roots, ¬ f.Within n root := by
  have hout : (!f.isWithinAny n j.roots) = true ↔ ∀ root ∈ j.roots, ¬ f.Within n root := by
    rw [Bool.not_eq_true', ← Bool.not_eq_true, Forest.isWithinAny_iff hf.acyclic]
    simp only [not_exists, not_and]
  rw [findDeleted, FirstSeen.mem_ofList, List.mem_filter, hout, List.mem_flatMap]
  simp only [Forest.mem_contents hf, List.mem_append]

/-- **A creation is in no view**: the deleted nodes are found as before, one by one. -/
theorem findDeleted_create {t : TypeId} {m : NodeId} (hf : f.Sound True)
    (hexist : ∀ c, c ∈ j.left ∨ c ∈ j.entered → f.contains c = true)
    (h : f.create t = .ok (m, f')) : findDeleted f' j = findDeleted f j := by
  have hcontents : ∀ c ∈ j.left ++ j.entered, f'.contents c = f.contents c := fun c hc =>
    Forest.contents_create hf h (hexist c (List.mem_append.mp hc))
  unfold findDeleted
  rw [List.flatMap_congr hcontents]
  simp only [Forest.isWithinAny_create hf h]

/-! ## Memos -/

theorem current?_eq_some {α : Type} {memo : Option (Memo α)} {revision : Nat} {v : α} :
    Memo.current? memo revision generation = some v ↔
      ∃ m, memo = some m ∧ m.revision = revision ∧ m.generation = generation ∧ m.view = v := by
  unfold Memo.current?
  cases memo with
  | none => simp
  | some m => simp [and_assoc]

/-- No memo was taken at a revision that the journal has not reached yet. -/
structure Dated (j : Journal) : Prop where
  deleted : ∀ m, j.deletedMemo = some m → m.revision ≤ j.revision
  priorPlaces : ∀ m, j.priorPlacesMemo = some m → m.revision ≤ j.revision

/-- **A memo of the present moment** holds what would be computed now. The prior places depend
on the journal alone. -/
structure Current (j : Journal) (f : Forest) (generation : Nat) : Prop extends j.Dated where
  deletedNow : ∀ m, j.deletedMemo = some m → m.revision = j.revision → m.generation ≤ generation ∧
    (m.generation = generation → m.view = findDeleted f j)
  priorPlacesNow : ∀ m, j.priorPlacesMemo = some m → m.revision = j.revision →
    findPriorPlaces f j = .ok m.view

theorem Current.deleted_eq (h : j.Current f generation) :
    (j.deleted f generation).1 = findDeleted f j := by
  unfold deleted
  split
  · next view hview =>
    obtain ⟨m, hm, hrevision, hgeneration, rfl⟩ := current?_eq_some.mp hview
    exact (h.deletedNow m hm hrevision).2 hgeneration
  · rfl

theorem Current.mem_deleted (h : j.Current f generation) :
    n ∈ (j.deleted f generation).1 ↔ n ∈ findDeleted f j := by
  rw [h.deleted_eq]

theorem Current.priorPlaces_eq (h : j.Current f generation) :
    (j.priorPlaces f generation).1 = findPriorPlaces f j := by
  unfold Journal.priorPlaces
  split
  · next view hview =>
    obtain ⟨m, hm, hrevision, -, rfl⟩ := current?_eq_some.mp hview
    exact (h.priorPlacesNow m hm hrevision).symm
  · split <;> next heq => exact heq.symm

theorem Dated.answered (h : j.Dated) (question : Question) :
    (question.answered f generation j).Dated := by
  obtain ⟨deletedMemo, placesMemo, expansions, expansionsAt, hj, hd, hp⟩ :=
    question.answered_frame f generation j
  rw [hj]
  refine ⟨fun m hm => ?_, fun m hm => ?_⟩
  · rcases hd with hd | hd
    · exact h.deleted m (hd.symm.trans hm)
    · obtain rfl := Option.some.inj (hd.symm.trans hm)
      exact Nat.le_refl _
  · rcases hp with hp | ⟨view, -, hp⟩
    · exact h.priorPlaces m (hp.symm.trans hm)
    · obtain rfl := Option.some.inj (hp.symm.trans hm)
      exact Nat.le_refl _

/-- **What is asked for** is remembered as it is at that moment. -/
theorem Current.answered (h : j.Current f generation) (question : Question) :
    (question.answered f generation j).Current f generation := by
  have hdated : (question.answered f generation j).Dated := h.toDated.answered question
  obtain ⟨deletedMemo, placesMemo, expansions, expansionsAt, hj, hd, hp⟩ :=
    question.answered_frame f generation j
  rw [hj] at hdated ⊢
  refine ⟨hdated, fun m hm hrevision => ?_, fun m hm hrevision => ?_⟩
  · rcases hd with hd | hd
    · exact h.deletedNow m (hd.symm.trans hm) hrevision
    · obtain rfl := Option.some.inj (hd.symm.trans hm)
      exact ⟨Nat.le_refl _, fun _ => rfl⟩
  · rcases hp with hp | ⟨view, hview, hp⟩
    · exact h.priorPlacesNow m (hp.symm.trans hm) hrevision
    · obtain rfl := Option.some.inj (hp.symm.trans hm)
      exact hview

/-- **Once the revision is raised** no memo is of the present moment. -/
theorem Dated.current (h : j.Dated) (hr : j.revision < j'.revision)
    (hd : j'.deletedMemo = j.deletedMemo) (hp : j'.priorPlacesMemo = j.priorPlacesMemo) :
    j'.Current f generation := by
  -- Both memos are older than the revision, so what they would have to say is not asked.
  have hdeleted : ∀ m, j'.deletedMemo = some m → m.revision < j'.revision := by
    intro m hm
    rw [hd] at hm
    exact Nat.lt_of_le_of_lt (h.deleted m hm) hr
  have hplaces : ∀ m, j'.priorPlacesMemo = some m → m.revision < j'.revision := by
    intro m hm
    rw [hp] at hm
    exact Nat.lt_of_le_of_lt (h.priorPlaces m hm) hr
  exact ⟨⟨fun m hm => Nat.le_of_lt (hdeleted m hm), fun m hm => Nat.le_of_lt (hplaces m hm)⟩,
    fun m hm heq => absurd heq (Nat.ne_of_lt (hdeleted m hm)),
    fun m hm heq => absurd heq (Nat.ne_of_lt (hplaces m hm))⟩

/-- The forest may change with the generation raised, or where it shows in no view. -/
theorem Current.of_forest (h : j.Current f generation) (hg : generation ≤ generation')
    (hd : generation = generation' → findDeleted f' j = findDeleted f j)
    (hp : findPriorPlaces f' j = findPriorPlaces f j) : j.Current f' generation' := by
  refine ⟨h.toDated, fun m hm hrevision => ?_, fun m hm hrevision => ?_⟩
  · obtain ⟨hle, hview⟩ := h.deletedNow m hm hrevision
    refine ⟨Nat.le_trans hle hg, fun heq => ?_⟩
    have hsame : generation = generation' := by omega
    rw [hd hsame]
    exact hview (by omega)
  · rw [hp]
    exact h.priorPlacesNow m hm hrevision

/-! ## Answers -/

theorem query_bind_of_ok {α β : Type} {y : ExceptT Fault (StateM Journal) α} {a : α}
    {k : α → ExceptT Fault (StateM Journal) β} (h : y j = (.ok a, j')) : (y >>= k) j = k a j' := by
  show ExceptT.bindCont k (y j).1 (y j).2 = _
  rw [h]
  rfl

theorem query_bind_of_error {α β : Type} {y : ExceptT Fault (StateM Journal) α} {e : Fault}
    {k : α → ExceptT Fault (StateM Journal) β} (h : y j = (.error e, j')) :
    (y >>= k) j = (.error e, j') := by
  show ExceptT.bindCont k (y j).1 (y j).2 = _
  rw [h]
  rfl

/-- **The prior place** is what the first of the earliest states says that lists the node, and
the present place if there is none. -/
theorem Current.priorPlace_eq (h : j.Current f generation)
    (hx : ∀ x ∈ j.allEarliest, f.Recordable x) (hn : j.isCreated n = false) :
    match j.lister f n with
    | some x => ∃ q, (n, q) ∈ f.listed x ∧
        (j.priorPlace f generation n).1 = .ok (some ⟨x.node, q⟩)
    | none => (j.priorPlace f generation n).1 = .ok (f.place? n) := by
  -- The memo of prior places is of this moment or is renewed, and lists all that was recorded.
  obtain ⟨j', hplaces⟩ : ∃ j', j.priorPlaces f generation =
      (.ok ((j.allEarliest.flatMap f.given).foldl notePlace []), j') :=
    ⟨_, Prod.ext (h.priorPlaces_eq.trans (findPriorPlaces_eq hx)) rfl⟩
  have hget : (get : ExceptT Fault (StateM Journal) Journal) j = (.ok j, j) := rfl
  have hlookup := lookup_flatMap_given (f := f) (n := n) j.allEarliest
  unfold priorPlace lister
  rw [query_bind_of_ok hget, if_neg (by simp [hn]), query_bind_of_ok hplaces,
    lookup_foldl_notePlace, List.nil_append]
  cases hlister : j.allEarliest.find? (f.lists n) with
  | some x =>
    rw [hlister] at hlookup
    obtain ⟨q, hq, hplace⟩ := hlookup
    refine ⟨q, hq, ?_⟩
    rw [hplace]
    rfl
  | none =>
    rw [hlister] at hlookup
    rw [show _ = _ from hlookup]
    rfl

theorem isDeleted_eq : (j.isDeleted f generation n).1 = (j.deleted f generation).1.contains n := rfl

end Journal

end TrackedGraph
