/-
A document in use.

A document is edited, recordings of it are started, ended, reduced and reverted, several at a
time if need be, and their journals are asked in between. Journals remember some answers. In a
document in use what they remember is what would be computed now (`Document.Used.views_eq`):
whoever writes a journal raises its revision, and whoever changes the forest raises the
generation or creates a node that is in no view.

That edits raise the generation whenever places change rests on defaults that list no child. An
`unset` whose default does so may write places and fail before it marks the change as done.
-/
import TrackedGraph.Proofs.Journal.Reliable
import TrackedGraph.Proofs.Recording.Calling
import TrackedGraph.Proofs.Recording.Watching

set_option autoImplicit false

namespace TrackedGraph

open Edit (Keeps)

variable {τ : Type} {d d' : Document τ} {j : Journal} {k : Nat} {r : Recording} {schema : Schema}

/-- **A document in use**: edits, calls on recordings, questions to their journals, and whatever
else the audience does that leaves the journals as they are. -/
inductive Document.Used (schema : Schema) : Document τ → Prop
  | new (rootType : String) (memory : τ) (d : Document τ)
      (h : Document.new schema rootType memory = .ok d) : Used schema d
  | edit (d : Document τ) (m : Mutation) (h : Used schema d) : Used schema (m.run d).2
  | call (d : Document τ) (r : Recording) (c : Recording.Call) (h : Used schema d) :
      Used schema (r.perform c d).2
  | ask (d : Document τ) (r : Recording) (question : Journal.Question) (h : Used schema d) :
      Used schema (r.ask question d).2
  | other (d d' : Document τ) (h : Used schema d) (hf : d'.forest = d.forest)
      (hr : d'.root = d.root) (hg : d'.generation = d.generation)
      (hj : ∀ k, d'.audience.journal k = d.audience.journal k) : Used schema d'

/-! ## Calls are edits, to the forest -/

/-- A call does nothing to the forest that edits do not do. -/
theorem Recording.upholds_reachable :
    r.Upholds (Document.Reachable schema fun _ _ => True : Document τ → Prop) where
  edits := fun m _ h => .edit _ m h trivial
  audience := fun _ _ d h => .other d _ h rfl rfl
  sessions := fun d _ h => .other d _ h rfl rfl
  writes := fun _ _ d h => .other d _ h rfl rfl
  reduces := fun d h => .other d _ h rfl rfl

/-- Documents in use are reached by edits. -/
theorem Document.Used.reachable (h : d.Used schema) : d.Reachable schema fun _ _ => True := by
  induction h with
  | new rootType memory d h => exact .new rootType memory d h
  | edit d m _ ih => exact .edit d m ih trivial
  | call d r c _ ih => exact Recording.upholds_reachable.perform c d ih
  | ask d r question _ ih => exact .other d _ ih rfl rfl
  | other d d' _ hf hr _ _ ih => exact .other d d' ih hf hr

/-! ## Journals that can be relied on -/

/-- All journals of the document can be relied on at this moment. -/
structure Document.Relies (d : Document τ) : Prop where
  sound : d.forest.Sound True
  owning : d.forest.schema.OwningMembers
  journals : ∀ k, (d.audience.journal k).Reliable d.forest d.generation

namespace Document.Relies

theorem congr (hd : d.Relies) (hf : d'.forest = d.forest) (hg : d'.generation = d.generation)
    (hj : ∀ k, d'.audience.journal k = d.audience.journal k) : d'.Relies :=
  ⟨hf ▸ hd.sound, hf ▸ hd.owning, fun k => by rw [hj, hf, hg]; exact hd.journals k⟩

/-- A journal may be written so that it can be relied on. -/
theorem setJournal (hd : d.Relies) (hj : j.Reliable d.forest d.generation) :
    Relies { d with audience := d.audience.setJournal k j } := by
  refine ⟨hd.sound, hd.owning, fun i => ?_⟩
  show ((d.audience.setJournal k j).journal i).Reliable d.forest d.generation
  rw [Audience.journal_setJournal]
  split
  · exact hj
  · exact hd.journals i

end Document.Relies

theorem Step.relies (h : Step True d d') (hd : d.Relies) : d'.Relies :=
  ⟨h.sound hd.sound, by rw [h.schema]; exact hd.owning,
    fun k => h.reliable hd.sound (hd.journals k)⟩

/-- **Edits keep all journals reliable**, whoever is told of the changes. -/
theorem Document.Relies.mutation (m : Mutation) :
    Keeps Relies (m.run : Edit τ Mutation.Outcome) := by
  intro d hd
  have hchain := m.chain hd.sound fun _ _ => m.not_overlooks hd.sound.toTyped hd.owning
  generalize (m.run d).2 = d' at hchain
  induction hchain with
  | refl => exact hd
  | tail _ hstep ih => exact hstep.relies ih

theorem Recording.Writes.reliable {g : Journal → Journal} {f : Forest} {generation : Nat}
    (hg : Writes g) (hj : j.Reliable f generation) : (g j).Reliable f generation := by
  cases hg with
  | start session initial => exact hj.startSession session initial
  | extendInitial nodes =>
    exact hj.aged.reliable (Nat.lt_succ_self _) rfl rfl rfl hj.indexed hj.recordable hj.exist
  | forget => exact hj.forget
  | mark seat recording suspended => exact hj.congr rfl rfl rfl rfl rfl rfl rfl rfl rfl

/-- **Whatever calls are made of** keeps all journals reliable. -/
theorem Recording.upholds_relies : r.Upholds (Document.Relies : Document τ → Prop) where
  edits := Document.Relies.mutation
  audience := fun g hg d hd => hd.congr rfl rfl fun k => by
    show (g d.audience).2.journal k = d.audience.journal k
    unfold Audience.journal
    rw [hg]
  sessions := fun _ _ hd => hd.congr rfl rfl fun _ => rfl
  writes := fun _ hg _ hd => hd.setJournal (hg.reliable (hd.journals _))
  reduces := fun _ hd => hd.setJournal ((hd.journals _).reduce hd.sound.toTyped).2

/-! ## Documents in use -/

/-- The journals of a new document were never written. -/
theorem Document.journal_new {rootType : String} {memory : τ}
    (h : Document.new schema rootType memory = .ok d) (k : Nat) : d.audience.journal k = {} := by
  rw [audience_new h]
  exact Audience.journal_of_le (Nat.zero_le k)

section used

variable {declarations : List TypeDeclaration} (hb : Schema.build declarations = .ok schema)
  (hn : schema.NullContainment) (hp : schema.PlainDefaults) (ho : schema.OwningMembers)

include hb hn hp ho

theorem Document.Used.relies (h : d.Used schema) : d.Relies := by
  induction h with
  | new rootType memory d h =>
    obtain ⟨hsound, howning⟩ := Document.Reachable.sound_of_owning hb hn hp ho
      (.new rootType memory d h)
    exact ⟨hsound, howning, fun k => by rw [journal_new h]; exact Journal.reliable_new⟩
  | edit d m _ ih => exact Document.Relies.mutation m d ih
  | call d r c _ ih => exact Recording.upholds_relies.perform c d ih
  | ask d r question _ ih =>
    -- An answer writes memos, and what it writes is what it has just computed.
    exact ih.setJournal ((ih.journals _).answered question)
  | other d d' _ hf _ hg hj ih => exact ih.congr hf hg hj

/-- **What a journal of a document in use answers** is what would be computed from its records
and the forest as they are: the deleted nodes, in order, the prior places, and the prior states
of every node. -/
theorem Document.Used.views_eq (h : d.Used schema) (k : Nat) :
    let j := d.audience.journal k
    (j.deleted d.forest d.generation).1 = j.findDeleted d.forest ∧
      (j.priorPlaces d.forest d.generation).1 = j.findPriorPlaces d.forest ∧
      ∀ n, (j.priorStates d.forest n).1 = j.recollect d.forest n := by
  have hj := (h.relies hb hn hp ho).journals k
  exact ⟨hj.deleted_eq, hj.priorPlaces_eq, fun n => hj.priorStates.1⟩

end used

/-- Acts of a recording are a use of the document. -/
theorem Document.Used.acted (h : d.Used schema) (acts : List Recording.Act) :
    (r.acted d acts).Used schema := by
  induction acts generalizing d with
  | nil => exact h
  | cons act acts ih =>
    cases act with
    | edit m => exact ih (.edit d m h)
    | call c => exact ih (.call d r c h)
    | ask question => exact ih (.ask d r question h)

theorem Outline.blank_used : Outline.blank.Used Outline.schema :=
  .other { Outline.blank with audience := { memory := () } } _ (.new "Entry" () _ rfl) rfl rfl rfl
    fun k => by cases k <;> rfl

/-- The only entry is taken out of an outline, the deleted nodes are asked for, and an entry is
created. The creation raises no count, so what is remembered counts after it, and it is what
would be found. -/
theorem Document.Used.views_eq_created :
    let d := Outline.recording.acted Outline.blank [.edit (.create "Entry"),
      .edit (.add ⟨0⟩ Outline.entries (.node ⟨1⟩)), .call .start,
      .edit (.remove ⟨0⟩ Outline.entries 0), .ask .deleted, .edit (.create "Entry")]
    let j := d.audience.journal 0
    Journal.Memo.current? j.deletedMemo j.revision d.generation = some [⟨1⟩] ∧
      j.findDeleted d.forest = [⟨1⟩] := by
  intro d j
  have hmemo : Journal.Memo.current? j.deletedMemo j.revision d.generation = some [⟨1⟩] := by
    decide +kernel
  obtain ⟨hdeleted, -, -⟩ := views_eq Outline.build_types (by decide) (by decide) (by decide)
    (Outline.blank_used.acted _ : d.Used Outline.schema) 0
  refine ⟨hmemo, hdeleted.symm.trans ?_⟩
  unfold Journal.deleted
  rw [hmemo]

end TrackedGraph
