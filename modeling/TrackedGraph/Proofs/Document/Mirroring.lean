/-
A mirror of the slots.

Whoever keeps the changes that are announced and accepted, in order, can keep a copy of
every slot as well: a notice carries all that the change does to its slot, so it can be
replayed on the copy without a look at the forest. This is shown of one step
(`Step.mirrors`) and holds of every edit by composition (`Forest.Mirrors.trans`). It holds
however the edit ends and whatever it took to get there: children that were released
first, a change that was refused in between, children that were put back.

One accepted change is not written. An `unset` whose default names a property that does
not exist fails after it was announced, and the mirror has to skip it.
-/
import TrackedGraph.Proofs.Document.Restoring

set_option autoImplicit false

namespace TrackedGraph

variable {τ : Type} {strict : Prop} {schema : Schema} {d d' : Document τ} {f f' f'' : Forest}
  {n : NodeId} {p : PropertyId} {l l' : List Announcement}

/-- What the mirror of one slot makes of an accepted change: changes of other slots, and
those that cannot be written, leave it alone. -/
def Announcement.mirror (n : NodeId) (p : PropertyId) (s : Slot) (a : Announcement) : Slot :=
  if a.notice.node = n ∧ a.notice.property = p ∧ a.forest.CanWrite a.notice then
    a.notice.replay s
  else s

/-- **The mirror of one slot** after a series of accepted changes. -/
def Slot.mirrored (n : NodeId) (p : PropertyId) (l : List Announcement) (s : Slot) : Slot :=
  l.foldl (Announcement.mirror n p) s

theorem Slot.mirrored_append (s : Slot) :
    s.mirrored n p (l ++ l') = (s.mirrored n p l).mirrored n p l' := List.foldl_append

namespace Forest

/-- **The changes tell how the slots of `f` become those of `f'`.** A mirror agrees with the
forest at the moment of every announcement and at the end, and each notice reports its
slot as it is when the change is announced. -/
structure Mirrors (f : Forest) (l : List Announcement) (f' : Forest) : Prop where
  final : ∀ n p, f.contains n = true → f'.slot n p = (f.slot n p).map (·.mirrored n p l)
  moment : ∀ i a, l[i]? = some a → ∀ n p, f.contains n = true →
    a.forest.slot n p = (f.slot n p).map (·.mirrored n p (l.take i))
  truthful : ∀ a ∈ l, ∃ s, a.forest.slot a.notice.node a.notice.property = .ok s ∧
    a.notice.Truthful s

theorem map_mirrored_nil : (f.slot n p).map (·.mirrored n p []) = f.slot n p := by
  cases f.slot n p <;> rfl

/-- Nothing was announced, and the slots are as they were. -/
theorem Mirrors.of_slots (h : ∀ n p, f.contains n = true → f'.slot n p = f.slot n p) :
    f.Mirrors [] f' :=
  ⟨fun n p hn => (h n p hn).trans map_mirrored_nil.symm, fun _ _ hi => absurd hi (by simp),
    fun _ ha => absurd ha (by simp)⟩

/-- One change was announced. -/
theorem Mirrors.of_notice {N : Notice} {s : Slot} (hs : f.slot N.node N.property = .ok s)
    (ht : N.Truthful s)
    (h : ∀ n p, f.contains n = true →
      f'.slot n p = (f.slot n p).map (Announcement.mirror n p · ⟨N, f⟩)) :
    f.Mirrors [⟨N, f⟩] f' := by
  refine ⟨h, fun i a hi n p hn => ?_, fun a ha => ?_⟩
  · cases i with
    | zero =>
      obtain rfl : (⟨N, f⟩ : Announcement) = a := Option.some.inj hi
      exact map_mirrored_nil.symm
    | succ i => exact absurd hi (by simp)
  · obtain rfl := List.mem_singleton.mp ha
    exact ⟨s, hs, ht⟩

/-- **One series of changes after another.** -/
theorem Mirrors.trans (hin : ∀ n, f.contains n = true → f'.contains n = true)
    (h : f.Mirrors l f') (h' : f'.Mirrors l' f'') : f.Mirrors (l ++ l') f'' := by
  have hmap : ∀ (n : NodeId) (p : PropertyId) (k : List Announcement),
      ((f.slot n p).map (·.mirrored n p l)).map (·.mirrored n p k) =
        (f.slot n p).map (·.mirrored n p (l ++ k)) := by
    intro n p k
    cases f.slot n p with
    | error e => rfl
    | ok s => exact congrArg Except.ok s.mirrored_append.symm
  refine ⟨fun n p hn => ?_, fun i a hi n p hn => ?_, fun a ha => ?_⟩
  · rw [h'.final n p (hin n hn), h.final n p hn, hmap]
  · by_cases hlt : i < l.length
    · rw [List.getElem?_append_left hlt] at hi
      rw [List.take_append_of_le_length (Nat.le_of_lt hlt)]
      exact h.moment i a hi n p hn
    · rw [List.getElem?_append_right (Nat.le_of_not_lt hlt)] at hi
      rw [List.take_append, List.take_of_length_le (Nat.le_of_not_lt hlt),
        h'.moment _ a hi n p (hin n hn), h.final n p hn, hmap]
  · rcases List.mem_append.mp ha with ha | ha
    · exact h.truthful a ha
    · exact h'.truthful a ha

/-- A creation leaves the slots of all other nodes alone. -/
theorem slot_create_of_contains {t : TypeId} {m : NodeId} (h : f.create t = .ok (m, f'))
    (hn : f.contains n = true) : f'.slot n p = f.slot n p := by
  obtain ⟨type, -, -, rfl⟩ := create_eq_ok.mp h
  have hlt : n.index < f.nodes.length := of_decide_eq_true hn
  unfold slot node
  rw [List.getElem?_append_left hlt]

end Forest

/-- **A step is mirrored.** -/
theorem Step.mirrors (h : Step strict d d') (hl : d'.history = d.history ++ l) :
    d.forest.Mirrors l d'.forest := by
  cases h with
  | asked N =>
    obtain rfl := Document.history_same hl (history_poll N)
    exact .of_slots fun n p _ => by rw [forest_poll]
  | refused N e h =>
    obtain rfl := Document.history_same hl (history_announce_error h)
    exact .of_slots fun n p _ => by rw [forest_announce]
  | changed N g old new freed taken h hc hw hm hd =>
    obtain rfl := Document.history_announced hl h rfl
    refine .of_notice hw.slot hd.1 fun n p _ => ?_
    -- The announcement says what the slot is changed to, and leaves the other slots alone.
    by_cases heq : (N.node, N.property) = (n, p)
    · obtain ⟨rfl, rfl⟩ := Prod.mk.injEq .. ▸ heq
      have hmade : Announcement.mirror N.node N.property old ⟨N, d.forest⟩ = new :=
        (if_pos ⟨rfl, rfl, hc⟩).trans hd.2
      rw [Forest.slot_write_self hw.slot, hw.slot, Except.map, hmade]
    · have hskip : ∀ s, Announcement.mirror n p s ⟨N, d.forest⟩ = s := fun s =>
        if_neg fun hall => heq (Prod.ext hall.1 hall.2.1)
      simp only [Forest.slot_write_of_ne heq, hskip]
      cases d.forest.slot n p <;> rfl
  | unwritten N g h hn hg ho hm ht =>
    obtain rfl := Document.history_announced hl h rfl
    obtain ⟨s, hs, ht⟩ := ht
    refine .of_notice hs ht fun n p _ => ?_
    have hskip : ∀ s, Announcement.mirror n p s ⟨N, d.forest⟩ = s := fun s =>
      if_neg fun hall => hn hall.2.2
    simp only [forest_announce, hskip]
    cases d.forest.slot n p <;> rfl
  | created t m f h =>
    obtain rfl := Document.history_same hl rfl
    exact .of_slots fun n p hn => Forest.slot_create_of_contains h hn
  | counted k =>
    obtain rfl := Document.history_same hl rfl
    exact .of_slots fun _ _ _ => rfl

/-- So is any number of them. -/
theorem Chain.mirrors (h : Chain strict d d') (hl : d'.history = d.history ++ l) :
    d.forest.Mirrors l d'.forest := by
  refine Chain.history_induction (P := fun l d' => d.forest.Mirrors l d'.forest) h hl
    (.of_slots fun _ _ _ => rfl) ?_
  intro l₁ d₁ l₂ d₂ hc hs hl₂ ih
  refine ih.trans (fun n hn => ?_) (hs.mirrors hl₂)
  obtain ⟨t, ht⟩ := Forest.contains_iff.mp hn
  exact Forest.contains_iff.mpr ⟨t, Chain.typeOf hc ht⟩

/-- **Every edit is mirrored** by the changes that were accepted during it, whoever sits in
the audience and however it ends. -/
theorem Document.Reachable.run_mirrored {declarations : List TypeDeclaration}
    (hb : Schema.build declarations = .ok schema) (hn : schema.NullContainment)
    (hp : schema.PlainDefaults) (h : d.Reachable schema fun _ _ => True) (m : Mutation) :
    ∃ l, (m.run d).2.history = d.history ++ l ∧ d.forest.Mirrors l (m.run d).2.forest := by
  have hf : d.forest.Sound False :=
    h.sound ⟨Schema.coherent_of_build hb, hn, hp⟩ fun hs => absurd hs id
  have hchain : Chain False d (m.run d).2 := m.chain hf fun hs => absurd hs id
  obtain ⟨l, hl⟩ := hchain.history_le
  exact ⟨l, hl, hchain.mirrors hl⟩

/-- A page that is to move is taken out and put back when the gate refuses it. Both changes
are in the stream. -/
theorem Document.Reachable.run_mirrored_gate :
    let m : Mutation := .add ⟨2⟩ Notebook.pages (.node ⟨1⟩)
    ∃ l, (m.run Notebook.gated).2.history = Notebook.gated.history ++ l ∧ l.length = 2 ∧
      Notebook.gated.forest.Mirrors l (m.run Notebook.gated).2.forest := by
  intro m
  have hshelf : Notebook.shelf.Reachable Notebook.schema fun _ _ => True :=
    .edit _ _ (.edit _ _ (.edit _ _ (.new "Page" 0 _ (Notebook.new_eq_blank 0)) trivial) trivial)
      trivial
  obtain ⟨l, hl, hmirrors⟩ := Document.Reachable.run_mirrored (d := Notebook.gated)
    Notebook.build_types (by decide) (by decide) (.other _ _ hshelf rfl rfl) m
  refine ⟨l, hl, ?_, hmirrors⟩
  have hlength := congrArg List.length hl
  rw [List.length_append] at hlength
  have hbefore : Notebook.gated.history.length = 1 := rfl
  have hafter : (m.run Notebook.gated).2.history.length = 3 := by decide +kernel
  omega

end TrackedGraph
