/-
What a running session answers.

While a session over the whole tree runs, three kinds of questions are asked of its journal:
the states that the properties had at the start, the places that the nodes had, and which
nodes are deleted or created. States and classifications are right as long as no node of the
tree at the start is written while it is outside of the tree (`Recording.Runs.states_at_start`,
`Recording.Runs.isDeleted_iff`). Places are read off the states in the order in which their
nodes were touched, so they are right if the first state that lists the node is one of the
tree, and only then (`Recording.Runs.priorPlace_at_start`): a node that came into the tree with
a child is recorded with that child as well.

Places and classifications are answered with memos, so the journal must not have a memo that is
ahead of it when the session is started; it never has (`Recording.Runs.dated`).
-/
import TrackedGraph.Proofs.Recording.Dating
import TrackedGraph.Proofs.Recording.Watching

set_option autoImplicit false

namespace TrackedGraph

variable {τ : Type} {d d₀ d₁ : Document τ} {o : ObserverId} {n root : NodeId} {p : PropertyId}
  {r : Recording} {j j' : Journal} {f f₀ : Forest} {s : Slot} {loose : Bool}
  {tree : NodeId → Prop} {declarations : List TypeDeclaration} {schema : Schema}

/-! ## States at the start -/

namespace Journal

/-- **What the journal says of a property**: its record, if there is one, is of the state that
the property had, and the property is in that state still if there is none. -/
theorem Covers.of_earliestOf (h : j.Covers f loose f₀ tree) (hn : tree n)
    (hs : f₀.slot n p = .ok s) :
    (∀ x ∈ j.earliestOf n, x.property = p → x.slot.Matches loose s) ∧
      ((∀ x ∈ j.earliestOf n, x.property ≠ p) →
        ∃ now, f.slot n p = .ok now ∧ now.Matches loose s) := by
  simp only [h.indexed.mem_earliestOf]
  rcases h.remembered n p s hn hs with ⟨y, hy, hyn, hyp, hm⟩ | ⟨hnone, now, hnow, hm⟩
  · refine ⟨fun x hx hxp => ?_, fun hnone => absurd hyp (hnone y ⟨hy, hyn⟩)⟩
    obtain rfl : x = y := h.indexed.eq_of_sameSlot hx.1 hy
      ⟨hx.2.trans hyn.symm, hxp.trans hyp.symm⟩
    exact hm
  · exact ⟨fun x hx hxp => absurd ⟨hx.2, hxp⟩ (hnone x hx.1), fun _ => ⟨now, hnow, hm⟩⟩

/-- A state that agrees with another one is superfluous if the property is in the other one. -/
theorem superfluous_iff_agrees {x : PriorState} {now : Slot}
    (hnow : f.slot x.node x.property = .ok now) (hx : x.slot.Agrees s) :
    superfluous f true x = true ↔ now.Agrees s := by
  rw [superfluous_iff]
  constructor
  · rintro ⟨-, now', hnow', hset, hv⟩
    obtain rfl := ok_unique hnow hnow'
    exact Slot.Agrees.trans (b := x.slot) ⟨hset, hv⟩ hx
  · intro hagrees
    obtain ⟨hset, hv⟩ := hagrees.trans hx.symm
    exact ⟨rfl, now, hnow, hset, hv⟩

/-- **After pruning** exactly the properties have a record that are in another state. -/
theorem Covers.exists_kept_iff (h : j.Covers f true f₀ tree) (ht : f.Typed) (hn : tree n)
    (hs : f₀.slot n p = .ok s) (hnan : s.value.holdsNaN = false)
    (hr : j'.records = Journal.kept f true j.records) :
    (∃ x ∈ j'.earliestOf n, x.property = p) ↔
      ∃ now, f.slot n p = .ok now ∧ ¬ now.Agrees s := by
  have hkept : ∀ x, x ∈ j'.earliestOf n ↔
      (x ∈ j.allEarliest ∧ ¬ superfluous f true x = true) ∧ x.node = n := by
    intro x
    rw [(h.kept hr).indexed.mem_earliestOf, allEarliest_of_kept hr]
    simp
  rcases h.remembered n p s hn hs with ⟨y, hy, rfl, rfl, hm⟩ | ⟨hnone, now, hnow, hm⟩
  · -- There is one record of the property, and it goes if the property is back in its state.
    obtain ⟨now, hnow⟩ := (h.of_allEarliest hy).exists_slot ht
    have hiff := superfluous_iff_agrees hnow (hm.agrees hnan)
    constructor
    · rintro ⟨x, hx, hxp⟩
      obtain ⟨⟨hx, hkeep⟩, hxn⟩ := (hkept x).mp hx
      obtain rfl : x = y := h.indexed.eq_of_sameSlot hx hy ⟨hxn, hxp⟩
      exact ⟨now, hnow, fun hagrees => hkeep (hiff.mpr hagrees)⟩
    · rintro ⟨now', hnow', hdiffers⟩
      obtain rfl := ok_unique hnow hnow'
      exact ⟨y, (hkept y).mpr ⟨⟨hy, fun hsup => hdiffers (hiff.mp hsup)⟩, rfl⟩, rfl⟩
  · constructor
    · rintro ⟨x, hx, hxp⟩
      obtain ⟨⟨hx, -⟩, hxn⟩ := (hkept x).mp hx
      exact absurd ⟨hxn, hxp⟩ (hnone x hx)
    · rintro ⟨now', hnow', hdiffers⟩
      obtain rfl := ok_unique hnow hnow'
      exact absurd (hm.agrees hnan) hdiffers

end Journal

/-- **The journal of a running session says what was there at the start**: of every property of
the tree the record, if there is one, is of the state at the start, and the property is in that
state if there is none. Reducing succeeds, and if it prunes then exactly the properties have a
record that are in another state than at the start. -/
theorem Recording.Runs.states_at_start (hb : Schema.build declarations = .ok schema)
    (hn : schema.NullContainment) (hp : schema.PlainDefaults) (ho : schema.OwningMembers)
    (h₀ : d₀.Reachable schema fun _ _ => True) (hbegins : r.Begins o d₀ d₁)
    (h : r.Runs Recording.Call.Reduces d₁ d)
    (hin : ∀ a ∈ d.history.drop d₁.history.length, a.WritesInside d₀.forest d₀.root)
    (hmem : n ∈ d₀.forest.contents d₀.root) (hs : d₀.forest.slot n p = .ok s)
    (hnan : s.value.holdsNaN = false) :
    (∀ x ∈ (d.audience.journal r.journal).earliestOf n, x.property = p → x.slot.Agrees s) ∧
      ((∀ x ∈ (d.audience.journal r.journal).earliestOf n, x.property ≠ p) →
        ∃ now, d.forest.slot n p = .ok now ∧ now.Agrees s) ∧
      (∃ report, (r.reduce d).1 = .ok report) ∧
      (r.policy.prune = true →
        ((∃ x ∈ ((r.reduce d).2.audience.journal r.journal).earliestOf n, x.property = p) ↔
          ∃ now, d.forest.slot n p = .ok now ∧ ¬ now.Agrees s)) := by
  obtain ⟨hf₀, ho₀⟩ := h₀.sound_of_owning hb hn hp ho
  obtain ⟨hd, -⟩ := hbegins.watches hf₀ ho₀ h hin
  obtain ⟨hrecord, hnone⟩ := hd.covers.of_earliestOf hmem hs
  have ht := hd.follows.sound.toTyped
  obtain ⟨report, hreport, hreduced⟩ := Journal.reduce_eq_ok d.forest r.policy.prune
    (hd.covers.exists_slot ht)
  have hreduce := hd.reduce_apply
  refine ⟨fun x hx hxp => (hrecord x hx hxp).agrees hnan, fun hno => ?_, ⟨report, ?_⟩, fun hprune => ?_⟩
  · obtain ⟨now, hnow, hm⟩ := hnone hno
    exact ⟨now, hnow, hm.agrees hnan⟩
  · rw [hreduce]
    exact hreport
  · have hcovers := hd.covers
    rw [hprune] at hcovers hreduced hreduce
    rw [hreduce]
    show (∃ x ∈ ((d.audience.setJournal r.journal _).journal r.journal).earliestOf n, _) ↔ _
    rw [hd.journal_set, hreduced]
    exact hcovers.exists_kept_iff ht hmem hs hnan rfl

/-- A title that was set has a record, and the entries that were taken out and put back have
none. -/
theorem Recording.Runs.states_at_start_spare :
    let d := (Outline.recording.start Outline.spare).2.after [.set ⟨0⟩ Outline.title (.str "A"),
      .remove ⟨0⟩ Outline.entries 0, .add ⟨0⟩ Outline.entries (.node ⟨1⟩)]
    let records := ((Outline.recording.reduce d).2.audience.journal 0).earliestOf ⟨0⟩
    (∃ x ∈ records, x.property = Outline.title) ∧ ¬ ∃ x ∈ records, x.property = Outline.entries := by
  intro d records
  have hrun : Outline.recording.Runs Recording.Call.Reduces
      (Outline.recording.start Outline.spare).2 d := .edit _ _ (.edit _ _ (.edit _ _ .start))
  have hinside : ∀ a ∈ d.history.drop (Outline.recording.start Outline.spare).2.history.length,
      a.notice.node ∈ Outline.spare.forest.contents ⟨0⟩ →
        a.notice.node ∈ a.forest.contents ⟨0⟩ := by decide +kernel
  have hmem : ⟨0⟩ ∈ Outline.spare.forest.contents ⟨0⟩ := by decide +kernel
  have hstates := fun (p : PropertyId) (s : Slot) (hs : Outline.spare.forest.slot ⟨0⟩ p = .ok s)
      (hnan : s.value.holdsNaN = false) =>
    (states_at_start Outline.build_types (by decide) (by decide) (by decide)
      Outline.spare_reachable Outline.spare_begins hrun (fun a ha _ => hinside a ha) hmem hs
      hnan).2.2.2 rfl
  constructor
  · have hset : d.forest.slot ⟨0⟩ Outline.title = .ok ⟨.str "A", true⟩ := rfl
    exact (hstates Outline.title ⟨.null, false⟩ rfl rfl).mpr ⟨_, hset, by decide +kernel⟩
  · have hback : d.forest.slot ⟨0⟩ Outline.entries = .ok ⟨.list [.node ⟨1⟩], true⟩ := rfl
    intro hrecord
    obtain ⟨now, hnow, hdiffers⟩ :=
      (hstates Outline.entries ⟨.list [.node ⟨1⟩], true⟩ rfl rfl).mp hrecord
    obtain rfl := ok_unique hback hnow
    exact hdiffers (by decide +kernel)

/-! ## Places at the start -/

namespace Journal

section places

variable (h : j.Covers f loose f₀ (· ∈ f₀.contents root)) (hf₀ : f₀.Sound True)
  (hfeature : ∀ n ∈ f₀.contents root, ∀ q, f.feature n q = f₀.feature n q)
  (hmem : n ∈ f₀.contents root) (hne : n ≠ root)

include h hf₀ hfeature hmem hne

/-- The first state that lists the node tells its place exactly if it is of a node of the tree:
the container of a node of the tree is in the tree as well, unless the node is the root. -/
theorem Covers.place_of_lister {x : PriorState} {q : PropertyId} (hx : j.lister f n = some x)
    (hq : (n, q) ∈ f.listed x) :
    some ⟨x.node, q⟩ = f₀.place? n ↔ x.node ∈ f₀.contents root := by
  constructor
  · intro hplace
    obtain ⟨hroot, hwithin⟩ := (Forest.mem_contents hf₀).mp hmem
    have hunder : f₀.Under n x.node := ⟨q, hplace.symm⟩
    exact (Forest.mem_contents hf₀).mpr ⟨hroot, hwithin.of_under_left hunder hne⟩
  · intro hin
    exact (h.place?_of_listed hf₀ hfeature (List.mem_of_find?_eq_some hx) hin hq).symm

/-- A node that no state lists sits where it sat. -/
theorem Covers.place?_of_no_lister (hf : f.Sound True) (hnone : j.lister f n = none) :
    f.place? n = f₀.place? n := by
  have hlists : ∀ x ∈ j.allEarliest, n ∉ (f.listed x).map Prod.fst := by
    intro x hx hin
    obtain ⟨c, hc, rfl⟩ := List.mem_map.mp hin
    exact List.find?_eq_none.mp hnone x hx (List.any_eq_true.mpr ⟨c, hc, BEq.rfl⟩)
  obtain ⟨m, q, hm, hq⟩ := Forest.exists_place_of_mem_contents hf₀ hmem hne
  obtain ⟨p, now, hnow, hclaim, -⟩ := h.exists_slot_of_not_listed hf₀ hfeature hq hm hlists
  rw [hq]
  exact (hf.linked trivial).placed _ _ _ _ _ hnow hclaim

end places

end Journal

/-- **Of a node of the tree the journal tells the place at the start** exactly if the first
state that lists it is of a node of the tree, or no state does. -/
theorem Recording.Runs.priorPlace_at_start (hb : Schema.build declarations = .ok schema)
    (hn : schema.NullContainment) (hp : schema.PlainDefaults) (ho : schema.OwningMembers)
    (h₀ : d₀.Reachable schema fun _ _ => True) (hbegins : r.Begins o d₀ d₁)
    (hdated : (d₀.audience.journal r.journal).Dated) (h : r.Runs Recording.Call.Reduces d₁ d)
    (hin : ∀ a ∈ d.history.drop d₁.history.length, a.WritesInside d₀.forest d₀.root)
    (hmem : n ∈ d₀.forest.contents d₀.root) (hne : n ≠ d₀.root) :
    ∃ place, ((d.audience.journal r.journal).priorPlace d.forest d.generation n).1 = .ok place ∧
      (place = d₀.forest.place? n ↔
        ∀ x ∈ (d.audience.journal r.journal).lister d.forest n,
          x.node ∈ d₀.forest.contents d₀.root) := by
  obtain ⟨hf₀, ho₀⟩ := h₀.sound_of_owning hb hn hp ho
  obtain ⟨hd, hcurrent⟩ := hbegins.watches hf₀ ho₀ h hin
  have hfeature := @Forest.feature_of_mem_contents d₀.root _ _ hf₀ hd.schema hd.types
  have hinitial : (d.audience.journal r.journal).isCreated n = false := by
    rw [Journal.isCreated, (hd.wasInitial_iff hf₀ hbegins.contains_root).mpr hmem]
    simp
  have hplace := (hcurrent hdated).priorPlace_eq (fun x => hd.covers.of_allEarliest) hinitial
  cases hlister : (d.audience.journal r.journal).lister d.forest n with
  | some x =>
    rw [hlister] at hplace
    obtain ⟨q, hq, hplace⟩ := hplace
    refine ⟨_, hplace, ?_⟩
    rw [hd.covers.place_of_lister hf₀ hfeature hmem hne hlister hq]
    simp
  | none =>
    rw [hlister] at hplace
    refine ⟨_, hplace, iff_of_true ?_ (by simp)⟩
    exact hd.covers.place?_of_no_lister hf₀ hfeature hmem hne hd.follows.sound hlister

/-- An entry moves to the spare one, which comes into the tree and is emptied there. Its place at
the start is told until the journal is reduced: then the state of the first entry is dropped,
because the entry is back, and the state of the spare one is the first that lists it. -/
theorem Recording.Runs.priorPlace_at_start_spare :
    let d := (Outline.recording.start Outline.spare).2.after [.remove ⟨0⟩ Outline.entries 0,
      .add ⟨2⟩ Outline.entries (.node ⟨1⟩), .add ⟨0⟩ Outline.entries (.node ⟨2⟩),
      .remove ⟨2⟩ Outline.entries 0, .remove ⟨0⟩ Outline.entries 0,
      .add ⟨0⟩ Outline.entries (.node ⟨1⟩)]
    let d' := (Outline.recording.perform .reduceRunning d).2
    ((d.audience.journal 0).priorPlace d.forest d.generation ⟨1⟩).1 =
        .ok (Outline.spare.forest.place? ⟨1⟩) ∧
      ((d'.audience.journal 0).priorPlace d'.forest d'.generation ⟨1⟩).1 ≠
        .ok (Outline.spare.forest.place? ⟨1⟩) := by
  intro d d'
  have hrun : Outline.recording.Runs Recording.Call.Reduces
      (Outline.recording.start Outline.spare).2 d :=
    .edit _ _ (.edit _ _ (.edit _ _ (.edit _ _ (.edit _ _ (.edit _ _ .start)))))
  have hinside : ∀ a ∈ d.history.drop (Outline.recording.start Outline.spare).2.history.length,
      a.notice.node ∈ Outline.spare.forest.contents ⟨0⟩ →
        a.notice.node ∈ a.forest.contents ⟨0⟩ := by decide +kernel
  have hinside' : ∀ a ∈ d'.history.drop (Outline.recording.start Outline.spare).2.history.length,
      a.notice.node ∈ Outline.spare.forest.contents ⟨0⟩ →
        a.notice.node ∈ a.forest.contents ⟨0⟩ := by decide +kernel
  have hmem : ⟨1⟩ ∈ Outline.spare.forest.contents ⟨0⟩ := by decide +kernel
  have hdated : (Outline.spare.audience.journal 0).Dated := Journal.dated_new
  constructor
  · obtain ⟨place, hplace, hiff⟩ := priorPlace_at_start Outline.build_types (by decide) (by decide)
      (by decide) Outline.spare_reachable Outline.spare_begins hdated hrun
      (fun a ha _ => hinside a ha) hmem (by decide)
    rw [← hiff.mpr (by decide +kernel)]
    exact hplace
  · obtain ⟨place, hplace, hiff⟩ := priorPlace_at_start Outline.build_types (by decide) (by decide)
      (by decide) Outline.spare_reachable Outline.spare_begins hdated (.call d .reduceRunning trivial hrun)
      (fun a ha _ => hinside' a ha) hmem (by decide)
    intro heq
    have htold : place = Outline.spare.forest.place? ⟨1⟩ :=
      ok_unique hplace heq
    exact absurd (hiff.mp htold) (by decide +kernel)

/-! ## Deleted and created nodes -/

/-- **A node of the tree at the start, or a created one, is deleted** exactly if it is not in
the tree. What is in the tree and was not there at the start is created or below a node that
is. -/
theorem Recording.Runs.isDeleted_iff (hb : Schema.build declarations = .ok schema)
    (hn : schema.NullContainment) (hp : schema.PlainDefaults) (ho : schema.OwningMembers)
    (h₀ : d₀.Reachable schema fun _ _ => True) (hbegins : r.Begins o d₀ d₁)
    (hdated : (d₀.audience.journal r.journal).Dated) (h : r.Runs Recording.Call.Reduces d₁ d)
    (hin : ∀ a ∈ d.history.drop d₁.history.length, a.WritesInside d₀.forest d₀.root) :
    (∀ n, n ∈ d₀.forest.contents d₀.root ∨ (d.audience.journal r.journal).isCreated n = true →
        (((d.audience.journal r.journal).isDeleted d.forest d.generation n).1 = true ↔
          d.isInTree n = false)) ∧
      ∀ n, d.isInTree n = true → n ∉ d₀.forest.contents d₀.root →
        ∃ c, (d.audience.journal r.journal).isCreated c = true ∧ d.forest.Within n c := by
  obtain ⟨hf₀, ho₀⟩ := h₀.sound_of_owning hb hn hp ho
  obtain ⟨hd, hcurrent⟩ := hbegins.watches hf₀ ho₀ h hin
  have hroot := hbegins.contains_root
  have htree : ∀ n, d.isInTree n = true ↔ d.forest.Within n d₀.root := by
    intro n
    rw [Document.isInTree, hd.rooted, Forest.isWithinAny_iff hd.follows.sound.acyclic]
    simp
  constructor
  · intro n hor
    have hknown : n ∈ d₀.forest.contents d₀.root ∨ n ∈ (d.audience.journal r.journal).entered := by
      refine hor.imp_right fun hcreated => ?_
      rw [Journal.isCreated, Bool.and_eq_true] at hcreated
      exact List.contains_iff_mem.mp hcreated.1
    rw [Journal.isDeleted_eq, List.contains_iff_mem, (hcurrent hdated).mem_deleted,
      hd.notes.mem_findDeleted hf₀ hd.follows.sound hd.running.roots hknown, ← htree, Bool.not_eq_true]
  · intro n hin hnot
    obtain ⟨c, hc, hcnot, hwithin⟩ := hd.notes.below_entered hf₀ hroot ((htree n).mp hin) hnot
    refine ⟨c, ?_, hwithin⟩
    rw [Journal.isCreated, List.contains_iff_mem.mpr hc, Bool.true_and, Bool.not_eq_true',
      ← Bool.not_eq_true, hd.wasInitial_iff hf₀ hroot]
    exact hcnot

/-- An entry is replaced by the spare one: the former is deleted, the latter is not. -/
theorem Recording.Runs.isDeleted_iff_spare :
    let d := (Outline.recording.start Outline.spare).2.after [.remove ⟨0⟩ Outline.entries 0,
      .add ⟨0⟩ Outline.entries (.node ⟨2⟩)]
    let j := d.audience.journal 0
    (j.isDeleted d.forest d.generation ⟨1⟩).1 = true ∧
      ¬ (j.isDeleted d.forest d.generation ⟨2⟩).1 = true ∧
      ∃ c, j.isCreated c = true ∧ d.forest.Within ⟨2⟩ c := by
  intro d j
  have hrun : Outline.recording.Runs Recording.Call.Reduces
      (Outline.recording.start Outline.spare).2 d := .edit _ _ (.edit _ _ .start)
  have hinside : ∀ a ∈ d.history.drop (Outline.recording.start Outline.spare).2.history.length,
      a.notice.node ∈ Outline.spare.forest.contents ⟨0⟩ →
        a.notice.node ∈ a.forest.contents ⟨0⟩ := by decide +kernel
  obtain ⟨hdeleted, hcreated⟩ := isDeleted_iff Outline.build_types (by decide) (by decide)
    (by decide) Outline.spare_reachable Outline.spare_begins Journal.dated_new
    hrun fun a ha _ => hinside a ha
  refine ⟨(hdeleted ⟨1⟩ (.inl ?_)).mpr ?_, fun h => ?_, hcreated ⟨2⟩ ?_ ?_⟩
  · decide +kernel
  · decide +kernel
  · exact absurd ((hdeleted ⟨2⟩ (.inr (by decide +kernel))).mp h) (by decide +kernel)
  · decide +kernel
  · decide +kernel

end TrackedGraph
