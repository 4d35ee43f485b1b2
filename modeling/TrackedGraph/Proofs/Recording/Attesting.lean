/-
What the records of a journal attest, however a recording goes.

A session may be suspended, ended and resumed, and its recorder may be told of some changes
and not of others. What the journal attests at any time is this: every state that it holds
was the state of its property at some moment since the session was started. So if a slot
owned a child at the start and no change has taken the child out since, then that slot owns
it still, the states of the slot all list it, and no other state does
(`Journal.Attests.lists`).
-/
import TrackedGraph.Proofs.Recording.Noting

set_option autoImplicit false

namespace TrackedGraph

variable {τ : Type} {d d' d₁ : Document τ} {f f' f₀ : Forest} {n a : NodeId} {p : PropertyId}
  {N : Notice} {s : Bool} {q : Tracking.Plan} {j j' : Journal} {r : Recording}
  {initial roots : List NodeId} {l l' : List Announcement}
  {stays stays' : NodeId → NodeId → PropertyId → Prop}

/-! ## Children that stay -/

/-- The slot of a property owns the child. -/
def Forest.SlotOwns (f : Forest) (a : NodeId) (p : PropertyId) (n : NodeId) : Prop :=
  ∃ s, f.slot a p = .ok s ∧ n ∈ (f.claims a p s.value).map Prod.fst

theorem Forest.Sound.under_of_slotOwns (hf : f.Sound True) (h : f.SlotOwns a p n) : f.Under n a := by
  obtain ⟨s, hs, hn⟩ := h
  obtain ⟨⟨_, q⟩, hq, rfl⟩ := List.mem_map.mp hn
  exact ⟨q, (hf.linked trivial).placed _ _ _ _ _ hs hq⟩

theorem Forest.Sound.exists_slotOwns (hf : f.Sound True) (h : f.Under n a) :
    ∃ p, f.SlotOwns a p n := by
  obtain ⟨q, hq⟩ := h
  obtain ⟨p, s, hs, hn⟩ := (hf.linked trivial).listed _ _ _ hq
  exact ⟨p, s, hs, List.mem_map_of_mem hn⟩

/-- A child is owned by one slot. -/
theorem Forest.Sound.slotOwns_unique {b : NodeId} {p' : PropertyId} (hf : f.Sound True)
    (h : f.SlotOwns a p n) (h' : f.SlotOwns b p' n) : b = a ∧ p' = p := by
  obtain ⟨s, hs, hn⟩ := h
  obtain ⟨s', hs', hn'⟩ := h'
  exact (hf.linked trivial).slot_unique hf.toTyped.shaped hs hn hs' hn'

/-- A change takes no more out of a slot than the children that leave. -/
theorem Forest.SlotOwns.write {g : Feature} {old new : Slot} {freed : List NodeId}
    {taken : List (NodeId × PropertyId)} {m : NodeId} {q : PropertyId} (h : f.SlotOwns a p n)
    (hw : f.Rewrite True m q g old new freed taken) (hn : n ∉ freed) :
    (f.write m q new freed taken).SlotOwns a p n := by
  obtain ⟨s, hs, hc⟩ := h
  by_cases heq : (m, q) = (a, p)
  · obtain ⟨rfl, rfl⟩ := Prod.mk.injEq .. ▸ heq
    obtain rfl := ok_unique hw.slot hs
    refine ⟨new, Forest.slot_write_self hw.slot, ?_⟩
    rw [Forest.claims_write]
    by_contra hnew
    exact hn ((hw.lost trivial n).mpr ⟨hc, hnew⟩)
  · refine ⟨s, (Forest.slot_write_of_ne heq).trans hs, ?_⟩
    rw [Forest.claims_write]
    exact hc

theorem Forest.SlotOwns.create {t : TypeId} {m : NodeId} (h : f.SlotOwns a p n)
    (hc : f.create t = .ok (m, f')) : f'.SlotOwns a p n := by
  obtain ⟨s, hs, hn⟩ := h
  refine ⟨s, Forest.slot_create_of_ok hc hs, ?_⟩
  rw [Forest.claims_congr fun q => Forest.feature_create hc (Forest.contains_of_slot hs) q]
  exact hn

/-- The slot owned the child, and none of the changes has taken it out. -/
def Forest.Stays (f₀ : Forest) (l : List Announcement) (n a : NodeId) (p : PropertyId) : Prop :=
  f₀.SlotOwns a p n ∧ ∀ e ∈ l, n ∉ e.leaving

/-! ## Attested states -/

/-- The journal is one of a session over the given roots, and its states list no child that
stays but those of the slot in which the child stays. -/
structure Journal.Attests (j : Journal) (f : Forest) (initial roots : List NodeId)
    (stays : NodeId → NodeId → PropertyId → Prop) : Prop where
  session : ∃ id, j.session = some ⟨id, roots⟩
  initial : ∀ n ∈ initial, n ∈ j.initial
  indexed : Indexed j.records
  recordable : ∀ y ∈ j.records, ∀ x ∈ y.2, f.Recordable x
  lists : ∀ n a p, stays n a p → ∀ y ∈ j.records, ∀ x ∈ y.2,
    (n ∈ (f.listed x).map Prod.fst ↔ x.node = a ∧ x.property = p)

namespace Journal

theorem Attests.congr (h : j.Attests f initial roots stays) (hs : j'.session = j.session)
    (hi : ∀ n ∈ j.initial, n ∈ j'.initial) (hr : j'.records = j.records) :
    j'.Attests f initial roots stays :=
  ⟨by rw [hs]; exact h.session, fun n hn => hi n (h.initial n hn), by rw [hr]; exact h.indexed,
    by rw [hr]; exact h.recordable, by rw [hr]; exact h.lists⟩

theorem Attests.of_types (h : j.Attests f initial roots stays) (hs : f'.schema = f.schema)
    (ht : ∀ m u, f.typeOf m = .ok u → f'.typeOf m = .ok u)
    (hstays : ∀ n a p, stays' n a p → stays n a p) : j.Attests f' initial roots stays' := by
  refine ⟨h.session, h.initial, h.indexed,
    fun y hy x hx => (h.recordable y hy x hx).of_types hs ht, fun n a p hn y hy x hx => ?_⟩
  obtain ⟨g, hg, -⟩ := h.recordable y hy x hx
  obtain ⟨t, htn, -⟩ := Forest.feature_eq_ok.mp hg
  have hlisted : f'.listed x = f.listed x :=
    Forest.claims_congr (Forest.feature_congr hs ((ht _ _ htn).trans htn.symm))
  rw [hlisted]
  exact h.lists n a p (hstays n a p hn) y hy x hx

/-- **Recording a change** of a property as it is at present. -/
theorem Attests.record {g : Feature} (h : j.Attests f initial roots stays) (hf : f.Sound True)
    (hg : f.feature N.node N.property = .ok g) (ho : g.owner = none)
    (hstays : ∀ n a p, stays n a p → f.SlotOwns a p n) (hq : Tracking.plan s f N = .ok q) :
    (Tracking.record N q j).Attests f initial roots stays := by
  cases hj : j.suspended with
  | true =>
    unfold Tracking.record
    rw [if_pos hj]
    exact h
  | false =>
    obtain ⟨⟨-, -, -, hsession, hinitial⟩, hr⟩ := record_plan (N := N) (q := q) hj
    have hs := (Tracking.plan_eq_ok hq).2
    refine ⟨by rw [hsession]; exact h.session, by rw [hinitial]; exact h.initial,
      by rw [hr]; exact h.indexed.append _, ?_, fun n a p hn => ?_⟩
    · rw [hr]
      exact forall_appendRecord (P := fun _ x => f.Recordable x) h.recordable
        (hf.recordable hg ho hs)
    · rw [hr]
      -- The slot as it is at present lists the child exactly if the child stays in it.
      refine forall_appendRecord (P := fun _ x => n ∈ (f.listed x).map Prod.fst ↔
        x.node = a ∧ x.property = p) (h.lists n a p hn) ⟨fun hlists => ?_, ?_⟩
      · exact hf.slotOwns_unique (hstays n a p hn) ⟨q.prior, hs, hlists⟩
      · rintro ⟨rfl, rfl⟩
        obtain ⟨s, hs', hown⟩ := hstays n _ _ hn
        obtain rfl := ok_unique hs hs'
        exact hown

/-- **Reducing** loses states but adds none. -/
theorem Attests.kept {prune : Bool} (h : j.Attests f initial roots stays)
    (hs : j'.session = j.session) (hi : j'.initial = j.initial)
    (hr : j'.records = Journal.kept f prune j.records) : j'.Attests f initial roots stays := by
  have hmem : ∀ y ∈ j'.records, ∃ z ∈ j.records, ∀ x ∈ y.2, x ∈ z.2 := by
    intro y hy
    rw [hr] at hy
    obtain ⟨z, hz, rfl⟩ := List.mem_map.mp (List.mem_filter.mp hy).1
    exact ⟨z, hz, fun x hx => mem_of_mem_earliest (List.mem_filter.mp hx).1⟩
  refine ⟨by rw [hs]; exact h.session, by rw [hi]; exact h.initial,
    by rw [hr]; exact h.indexed.kept, fun y hy x hx => ?_, fun n a p hn y hy x hx => ?_⟩
  · obtain ⟨z, hz, hyz⟩ := hmem y hy
    exact h.recordable z hz x (hyz x hx)
  · obtain ⟨z, hz, hyz⟩ := hmem y hy
    exact h.lists n a p hn z hz x (hyz x hx)

end Journal

/-! ## A recording under way -/

/-- A recording whose journal attests what has happened since a session over the roots was
started in the forest `f₀`. -/
structure Recording.Attested (r : Recording) (f₀ : Forest) (roots : List NodeId)
    (l : List Announcement) (d : Document τ) : Prop where
  sound : d.forest.Sound True
  schema : d.forest.schema = f₀.schema
  types : ∀ n t, f₀.typeOf n = .ok t → d.forest.typeOf n = .ok t
  journal : (d.audience.journal r.journal).Attests d.forest (f₀.closure roots) roots (f₀.Stays l)
  stays : ∀ n a p, f₀.Stays l n a p → d.forest.SlotOwns a p n

theorem Forest.Stays.of_append (h : f₀.Stays (l ++ l') n a p) : f₀.Stays l n a p :=
  ⟨h.1, fun e he => h.2 e (List.mem_append_left _ he)⟩

/-- The recording has a journal. -/
theorem Recording.Attested.exist (hd : r.Attested f₀ roots l d) :
    r.journal < d.audience.journals.length := by
  obtain ⟨id, hs⟩ := hd.journal.session
  by_contra hle
  rw [Audience.journal_of_le (Nat.le_of_not_lt hle)] at hs
  exact absurd hs (by simp)

/-- The audience may be changed in any way that leaves what the journal records. -/
theorem Recording.Attested.congr (hd : r.Attested f₀ roots l d) (hf : d'.forest = d.forest)
    (hs : (d'.audience.journal r.journal).session = (d.audience.journal r.journal).session)
    (hi : ∀ n ∈ (d.audience.journal r.journal).initial,
      n ∈ (d'.audience.journal r.journal).initial)
    (hr : (d'.audience.journal r.journal).records = (d.audience.journal r.journal).records) :
    r.Attested f₀ roots l d' := by
  refine ⟨by rw [hf]; exact hd.sound, by rw [hf]; exact hd.schema, by rw [hf]; exact hd.types, ?_,
    by rw [hf]; exact hd.stays⟩
  rw [hf]
  exact hd.journal.congr hs hi hr

/-- **A step of an edit**, with the change it adds to the history. -/
theorem Step.attested (h : Step True d d') (hd : r.Attested f₀ roots l d)
    (hl : d'.history = d.history ++ l') : r.Attested f₀ roots (l ++ l') d' := by
  have hsound := h.sound hd.sound
  have hschema := h.schema.trans hd.schema
  have htypes : ∀ n t, f₀.typeOf n = .ok t → d'.forest.typeOf n = .ok t :=
    fun n t hn => h.typeOf (hd.types n t hn)
  -- What is announced is recorded in the forest that it was announced in.
  have hannounce : ∀ N g, d.forest.feature N.node N.property = .ok g → g.owner = none →
      ((Edit.announce N d).2.audience.journal r.journal).Attests d.forest (f₀.closure roots) roots
        (f₀.Stays l) := fun N g hg ho =>
    journal_announced (P := fun j => j.Attests d.forest (f₀.closure roots) roots (f₀.Stays l))
      (fun s q j hq hj => hj.record hd.sound hg ho hd.stays hq) hd.journal
  -- Steps that write no slot leave the children where they are.
  have quiet : d'.forest = d.forest → (d'.audience.journal r.journal).Attests d.forest
      (f₀.closure roots) roots (f₀.Stays l) → r.Attested f₀ roots (l ++ l') d' := by
    intro hf hj
    refine ⟨hsound, hschema, htypes, ?_, fun n a p hn => ?_⟩
    · rw [hf]
      exact hj.of_types rfl (fun _ _ => id) fun _ _ _ => Forest.Stays.of_append
    · rw [hf]
      exact hd.stays n a p hn.of_append
  cases h with
  | asked N => exact quiet (forest_poll N) (by rw [journal_poll]; exact hd.journal)
  | refused N e h => exact quiet (forest_announce N) (by rw [journal_refused h]; exact hd.journal)
  | unwritten N g h hn hg ho hm => exact quiet (forest_announce N) (hannounce N g hg ho)
  | counted k => exact quiet rfl hd.journal
  | created t m f h =>
    exact ⟨hsound, hschema, htypes,
      hd.journal.of_types (Forest.schema_create h) (fun _ _ => Forest.typeOf_create_of_ok h)
        fun _ _ _ => Forest.Stays.of_append,
      fun n a p hn => (hd.stays n a p hn.of_append).create h⟩
  | changed N g old new freed taken h hc hw hm =>
    refine ⟨hsound, hschema, htypes, ?_, fun n a p hn => ?_⟩
    · exact (hannounce N g hw.feature hw.direct).of_types Forest.schema_write
        (fun _ _ => Forest.typeOf_write.trans) fun _ _ _ => Forest.Stays.of_append
    · have hmem := List.mem_append_right l (mem_of_announced h hl)
      obtain ⟨leaving, entering, hmove, hleaving, -⟩ := hm trivial
      -- What the write frees is what the announcement says leaves, and this child does not.
      refine (hd.stays n a p hn.of_append).write hw fun hfreed => hn.2 _ hmem ?_
      rw [Announcement.leaving_eq hmove]
      exact (hleaving n).mpr hfreed

theorem Chain.attested (h : Chain True d d') (hd : r.Attested f₀ roots l d)
    (hl : d'.history = d.history ++ l') : r.Attested f₀ roots (l ++ l') d' := by
  refine Chain.history_induction (P := fun l' d' => r.Attested f₀ roots (l ++ l') d') h hl ?_ ?_
  · rw [List.append_nil]
    exact hd
  · intro l₁ d₁ l₂ d₂ _ hs hl₂ ih
    rw [← List.append_assoc]
    exact hs.attested ih hl₂

end TrackedGraph
