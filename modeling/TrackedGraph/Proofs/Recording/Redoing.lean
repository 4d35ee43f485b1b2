/-
Undoing an undo.

Reverting a recording is a run of edits, so a second recording that is running meanwhile logs it,
and undoing the second one brings back what the first one took away. What stands in the way is
that reverting empties all properties with children before it fills one again. Whole branches
leave the tree for a while, and the second recorder does not hear what is written in them then.
No harm is done if the first change of every property found its node in the tree
(`FirstInside`): the state before it is recalled, and later changes need not be heard. Then the
tree is restored under the same condition as after any other session
(`Recording.redo_restores_iff`).

How reverting goes about it is not opened here. All that is used of it is that it edits the
forest and writes its own journal.
-/
import TrackedGraph.Proofs.Recording.Using
import Mathlib.Data.List.Infix

set_option autoImplicit false

namespace TrackedGraph

open Edit (Keeps)

variable {τ : Type} {d d' d₀ d₁ : Document τ} {o : ObserverId} {root : NodeId} {r : Recording}
  {f₀ : Forest} {l l' : List Announcement} {k : Nat}

/-! ## First changes -/

/-- **The first change of every property of the earlier tree found its node in the tree**: so did
a change among those up to any other one that could be written. -/
def FirstInside (l : List Announcement) (f₀ : Forest) (root : NodeId) : Prop :=
  ∀ seen a, seen ++ [a] <+: l → a.forest.CanWrite a.notice → a.notice.node ∈ f₀.contents root →
    ∃ b ∈ seen ++ [a], b.notice.node = a.notice.node ∧ b.notice.property = a.notice.property ∧
      b.notice.node ∈ b.forest.contents root

theorem firstInside_iff : FirstInside l f₀ root ↔ ∀ seen ∈ l.inits, ∀ a ∈ seen.getLast?,
    a.forest.CanWrite a.notice → a.notice.node ∈ f₀.contents root →
      ∃ b ∈ seen, b.notice.node = a.notice.node ∧ b.notice.property = a.notice.property ∧
        b.notice.node ∈ b.forest.contents root := by
  constructor
  · intro h seen hseen a ha
    obtain ⟨before, rfl⟩ := List.getLast?_eq_some_iff.mp ha
    exact h before a ((List.mem_inits _ _).mp hseen)
  · intro h seen a hseen
    exact h _ ((List.mem_inits _ _).mpr hseen) a List.getLast?_concat

instance : Decidable (FirstInside l f₀ root) := decidable_of_iff _ firstInside_iff.symm

theorem FirstInside.of_append (h : FirstInside (l ++ l') f₀ root) : FirstInside l f₀ root :=
  fun seen a hseen => h seen a (hseen.trans (List.prefix_append l l'))

/-- The last change finds its node in the tree, or an earlier change of the property did. -/
theorem FirstInside.last {a : Announcement} (h : FirstInside (l ++ [a]) f₀ root) :
    a.WritesInside f₀ root ∨ ∃ b ∈ l, b.notice.node = a.notice.node ∧
      b.notice.property = a.notice.property ∧ b.notice.node ∈ b.forest.contents root := by
  by_cases hwrites : a.WritesInside f₀ root
  · exact .inl hwrites
  · unfold Announcement.WritesInside at hwrites
    push Not at hwrites
    obtain ⟨hc, hn, hout⟩ := hwrites
    obtain ⟨b, hb, hnode, hproperty, hin⟩ := h l a (List.prefix_rfl) hc hn
    refine .inr ⟨b, ?_, hnode, hproperty, hin⟩
    rcases List.mem_append.mp hb with hb | hb
    · exact hb
    · obtain rfl := List.mem_singleton.mp hb
      exact absurd hin hout

/-! ## Logging what is first changed in the tree -/

/-- The session logs, and its journal recalls what was changed in the tree. -/
def Recording.LogsAll (r : Recording) (o : ObserverId) (f₀ : Forest) (root : NodeId)
    (l : List Announcement) (d : Document τ) : Prop :=
  r.Logs o f₀ root d ∧ ∀ a ∈ l, a.notice.node ∈ a.forest.contents root →
    (d.audience.journal r.journal).Recalls a.notice.node a.notice.property

/-- **A step of an edit** keeps the session logging, and recalling all that is changed in the
tree. -/
theorem Step.logsAll (h : Step True d d') (hd : r.LogsAll o f₀ root l d)
    (hl : d'.history = d.history ++ l') (hfirst : FirstInside (l ++ l') f₀ root) :
    r.LogsAll o f₀ root (l ++ l') d' := by
  have hin : ∀ a ∈ l', a.WritesInside f₀ root ∨
      (d.audience.journal r.journal).Recalls a.notice.node a.notice.property := by
    rcases h.history_cases with hsame | ⟨a, hone⟩
    · obtain rfl := Document.history_same hl hsame
      exact List.forall_mem_nil _
    · obtain rfl := List.append_cancel_left (hl.symm.trans hone)
      -- A change outside of the tree does no harm if one inside came before it: the state of
      -- the property is recalled since then.
      refine List.forall_mem_singleton.mpr (hfirst.last.imp_right ?_)
      rintro ⟨b, hb, hnode, hproperty, hn⟩
      rw [← hnode, ← hproperty]
      exact hd.2 b hb hn
  obtain ⟨hlogs, hrecalled⟩ := h.logs_recalls hd.1 hl hin
  refine ⟨hlogs, List.forall_mem_append.mpr ⟨fun a ha hn => ?_, hrecalled.changed⟩⟩
  exact hrecalled.kept _ _ (hd.2 a ha hn)

theorem Chain.logsAll (h : Chain True d d') (hd : r.LogsAll o f₀ root l d)
    (hl : d'.history = d.history ++ l') (hfirst : FirstInside (l ++ l') f₀ root) :
    r.LogsAll o f₀ root (l ++ l') d' := by
  refine Chain.history_induction (P := fun l' d' => FirstInside (l ++ l') f₀ root →
    r.LogsAll o f₀ root (l ++ l') d') h hl ?_ ?_ hfirst
  · intro _
    rw [List.append_nil]
    exact hd
  · intro l₁ d₁ l₂ d₂ _ hs hl₂ ih hfirst
    rw [← List.append_assoc] at hfirst ⊢
    exact hs.logsAll (ih hfirst.of_append) hl₂ hfirst

/-! ## Reverting meanwhile -/

/-- A document that edits lead to from one with the forest `f₀`, while the session runs: since
its history was `h₀` the session logs, as long as no first change was made outside of the tree. -/
structure Recording.Attends (r : Recording) (o : ObserverId) (f₀ : Forest) (root : NodeId)
    (h₀ : List Announcement) (d : Document τ) : Prop where
  sound : d.forest.Sound True
  schema : d.forest.schema = f₀.schema
  types : ∀ n t, f₀.typeOf n = .ok t → d.forest.typeOf n = .ok t
  logs : ∃ l, d.history = h₀ ++ l ∧ (FirstInside l f₀ root → r.LogsAll o f₀ root l d)

section attending

variable {h₀ : List Announcement}

/-- **Edits keep the session attending.** -/
theorem Recording.keepsAttends_mutation (ho : f₀.schema.OwningMembers) (m : Mutation) :
    Keeps (r.Attends o f₀ root h₀) (m.run : Edit τ Mutation.Outcome) := by
  intro d hd
  have hchain : Chain True d (m.run d).2 := m.chain hd.sound fun _ _ =>
    m.not_overlooks hd.sound.toTyped (by rw [hd.schema]; exact ho)
  obtain ⟨l, hl, hlogs⟩ := hd.logs
  obtain ⟨l', hl'⟩ := hchain.history_le
  refine ⟨hchain.sound hd.sound, hchain.schema.trans hd.schema,
    fun n t hn => hchain.typeOf (hd.types n t hn), l ++ l', ?_, fun hfirst => ?_⟩
  · rw [hl', hl, List.append_assoc]
  · exact hchain.logsAll (hlogs hfirst.of_append) hl' hfirst

/-- What is written to another journal is nothing to the session. -/
theorem Recording.LogsAll.other_journal {j : Journal} (hd : r.LogsAll o f₀ root l d)
    (hk : k ≠ r.journal) :
    r.LogsAll o f₀ root l { d with audience := d.audience.setJournal k j } := by
  have hj : (d.audience.setJournal k j).journal r.journal = d.audience.journal r.journal := by
    rw [Audience.journal_setJournal, if_neg fun h => hk h.1]
  obtain ⟨hlogs, hall⟩ := hd
  refine ⟨⟨⟨hlogs.follows.sound, hlogs.follows.seated, hlogs.follows.tracks⟩, hlogs.hears,
    hlogs.alone, ?_, ?_, ?_⟩, ?_⟩
  · rw [Audience.length_setJournal]
    exact hlogs.exist
  · rw [hj]
    exact hlogs.running
  · rw [hj]
    exact hlogs.covers
  · rw [hj]
    exact hall

theorem Recording.Attends.other_journal {j : Journal} (hd : r.Attends o f₀ root h₀ d)
    (hk : k ≠ r.journal) :
    r.Attends o f₀ root h₀ { d with audience := d.audience.setJournal k j } := by
  obtain ⟨l, hl, hlogs⟩ := hd.logs
  exact ⟨hd.sound, hd.schema, hd.types, l, hl, fun hfirst => (hlogs hfirst).other_journal hk⟩

/-- **Reverting another recording** keeps it attending like any run of edits. -/
theorem Recording.keepsAttends_revert {a : Recording} (ho : f₀.schema.OwningMembers)
    (hne : a.journal ≠ r.journal) :
    Keeps (r.Attends o f₀ root h₀) (a.revert : Edit τ Revert.Report) :=
  Recording.keeps_revert (Recording.keepsAttends_mutation ho) (fun _ hd => hd.other_journal hne)
    fun _ hd => hd.other_journal hne

end attending

/-- **Undoing a session during which another recording was reverted** restores the tree that was
there at its start exactly if the recorded states can be resettled and the nodes of the tree get
their places back, if the first change of every property found its node in the tree and nobody
refuses. This is so if no node that came into the tree has a recorded state that lists
children. -/
theorem Recording.redo_restores_iff {declarations : List TypeDeclaration} {schema : Schema}
    {a b : Recording} {report : Revert.Report} (hb : Schema.build declarations = .ok schema)
    (hn : schema.NullContainment) (hp : schema.PlainDefaults) (ho : schema.OwningMembers)
    (h₀ : d₀.Reachable schema fun _ _ => True) (hne : a.journal ≠ b.journal)
    (hstart : b.start d₀ = (.ok (), d₁))
    (hseat : (d₁.audience.journal b.journal).seat = some o) (hclean : ∀ n, ¬ d₀.Hears o n)
    (halone : ∀ o' s, d₀.audience.member? o' ≠ some (.recorder b.journal s))
    (hrevert : a.revert d₁ = (.ok report, d))
    (hfirst : FirstInside (d.history.drop d₁.history.length) d₀.forest d₀.root)
    (hquiet : (b.undo d).2.refusals = d.refusals) :
    (b.Undoes d d₀.forest d₀.root ↔ ∃ f', d.forest.Resettles (b.toRestore d) f' ∧
        ∀ n ∈ d₀.forest.contents d₀.root, n ≠ d₀.root → f'.place? n = d₀.forest.place? n) ∧
      ((∀ x ∈ b.toRestore d, d.forest.CanRestore x ∧
          (x.node ∉ d₀.forest.contents d₀.root → d.forest.listed x = [])) →
        b.Undoes d d₀.forest d₀.root) := by
  obtain ⟨hf₀, ho₀⟩ := Document.Reachable.sound_of_owning hb hn hp ho h₀
  rw [Recording.start_apply] at hstart
  have hroot : d₀.forest.contains d₀.root = true :=
    (Recording.of_startFrom_ok (congrArg Prod.fst hstart)).2 _ (List.mem_singleton_self _)
  obtain ⟨hf₁, -, hd₁⟩ := Recording.startFrom_logs hstart hf₀ hseat hclean halone
  have hattends₁ : b.Attends o d₀.forest d₀.root d₁.history d₁ :=
    ⟨hd₁.follows.sound, congrArg Forest.schema hf₁, fun n t hn => by rw [hf₁]; exact hn, [],
      (List.append_nil _).symm, fun _ => ⟨hd₁, List.forall_mem_nil _⟩⟩
  have hattends : b.Attends o d₀.forest d₀.root d₁.history d := by
    have hkept := Recording.keepsAttends_revert ho₀ hne d₁ hattends₁
    rw [hrevert] at hkept
    exact hkept
  obtain ⟨l, hl, hlogs⟩ := hattends.logs
  rw [hl, List.drop_left] at hfirst
  -- From here on it does not matter what the changes were: they were logged.
  have hd : b.Logs o d₀.forest d₀.root d := (hlogs hfirst).1
  have hiff := hd.undoes_iff hf₀ hattends.schema hattends.types hroot hquiet
  exact ⟨hiff, fun hstates => hiff.mpr (hd.resettles hf₀ hattends.schema hattends.types hstates)⟩

/-- An outline with two journals. -/
def Outline.shared : Document Unit :=
  { blank with audience := { journals := [{}, {}], memory := () } }

/-- An entry of the outline was given a title and another one was put below the root, in a session
that has ended. -/
def Outline.revised : Document Unit :=
  recording.acted shared [.edit (.create "Entry"), .edit (.create "Entry"),
    .edit (.add ⟨0⟩ entries (.node ⟨1⟩)), .call .start, .edit (.set ⟨1⟩ title (.str "A")),
    .edit (.add ⟨0⟩ entries (.node ⟨2⟩)), .call .stop]

/-- The session is reverted while another one is running: both entries leave the tree, one comes
back and loses its title. Undoing the other session brings all of that back. -/
theorem Recording.redo_restores_iff_revised :
    let other : Recording := ⟨1, {}⟩
    let d := (Outline.recording.revert (other.start Outline.revised).2).2
    d.forest.slot ⟨1⟩ Outline.title = .ok ⟨.null, false⟩ ∧
      other.Undoes d Outline.revised.forest ⟨0⟩ := by
  intro other d
  have hreach : Outline.revised.Reachable Outline.schema fun _ _ => True :=
    ((Document.Used.other _ Outline.shared Outline.blank_used rfl rfl rfl fun k => by
      rcases k with _ | _ | k <;> rfl).acted _).reachable
  have hstart : other.start Outline.revised = (.ok (), (other.start Outline.revised).2) :=
    Prod.ext rfl rfl
  have hseat : ((other.start Outline.revised).2.audience.journal 1).seat = some ⟨0⟩ := by
    decide +kernel
  have hnobody : Outline.revised.audience.subscriptions = {} := by decide +kernel
  have hclean : ∀ n, ¬ Outline.revised.Hears ⟨0⟩ n := fun n h => by
    rw [Document.Hears, hnobody] at h
    exact absurd h (by simp [Subscriptions.has])
  have hseats : Outline.revised.audience.seats = [none] := rfl
  have halone : ∀ o s, Outline.revised.audience.member? o ≠ some (.recorder 1 s) := by
    intro o s h
    rw [Audience.member?, hseats] at h
    rcases o with ⟨_ | _⟩ <;> exact absurd h (by simp)
  obtain ⟨report, hreport⟩ : ∃ report,
      (Outline.recording.revert (other.start Outline.revised).2).1 = .ok report :=
    toOption_isSome_iff.mp (by decide +kernel)
  have hrevert : Outline.recording.revert (other.start Outline.revised).2 = (.ok report, d) :=
    (Prod.eta _).symm.trans (congrArg (·, d) hreport)
  have hfirst : FirstInside (d.history.drop (other.start Outline.revised).2.history.length)
      Outline.revised.forest ⟨0⟩ := by
    decide +kernel
  have hquiet : (other.undo d).2.refusals = d.refusals := by decide +kernel
  have hstates : ∀ x ∈ other.toRestore d, d.forest.CanRestore x ∧
      (x.node ∉ Outline.revised.forest.contents ⟨0⟩ → d.forest.listed x = []) := by
    decide +kernel
  exact ⟨by decide +kernel, (redo_restores_iff Outline.build_types (by decide) (by decide)
    (by decide) hreach (by decide) hstart hseat hclean halone hrevert hfirst hquiet).2 hstates⟩

end TrackedGraph
