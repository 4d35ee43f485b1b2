/-
Calls that come at the wrong time.

A recording that runs can be neither started nor reverted, and one that does not run cannot be
stopped. A call that is refused for such a reason has done nothing: the reason is found before
anything is written. What stands against this is that reverting writes the document and may fail
half way. But a question to the forest is never refused for the sake of a session
(`Factual`), and a recorder refuses a change for what it is; so whatever fails half way, it is
not for such a reason, unless an observer that is asked about a change refuses it in these words
(`Edit.Vouched`). Some do.

With what is known of several recordings, this says how one of them stands among all others
(`Document.Shared.recording_stands`).
-/
import TrackedGraph.Proofs.Announcing
import TrackedGraph.Proofs.Document.Composing
import TrackedGraph.Proofs.Recording.Sharing

set_option autoImplicit false

namespace TrackedGraph

variable {τ α β : Type} {a b : Audience τ} {d d' : Document τ} {o : ObserverId} {f : Forest}
  {N : Notice} {e : Fault} {r : Recording} {rs : List Recording}

/-! ## Who refuses what -/

/-- An observer refuses the change with the fault of the veto. It is asked about it after others
that are asked have accepted, with the memory that this leaves. -/
def Audience.Objects (a : Audience τ) (v : Veto τ) : Prop :=
  ∃ accepting o x, (∀ c ∈ accepting ++ [(o, .observer x)],
      v.asked c.1 = true ∧ a.member? c.1 = some c.2) ∧
    Accept v.forest v.notice accepting v.memory ∧
    (x.judge v.forest v.notice (memoryAsked v.forest v.notice accepting v.memory)).1 =
      .error v.fault

theorem Audience.Objects.mono {v : Veto τ} (h : b.Objects v)
    (hm : ∀ o x, b.member? o = some x → a.member? o = some x) : a.Objects v := by
  obtain ⟨accepting, o, x, hasked, hrefused⟩ := h
  exact ⟨accepting, o, x, fun c hc => (hasked c hc).imp_right (hm c.1 c.2), hrefused⟩

/-- **Observers aside, nobody refuses a change for the sake of a session.** -/
theorem Audience.poll_objects (h : (a.poll f N).1 = .error e) :
    e.ofSession = false ∨
      a.Objects ⟨⟨N, f⟩, (a.subscriptions.has · N.node), a.memory, e⟩ := by
  unfold poll at h
  rcases (askAll_rounds (a.subscriptions.observers N.node)).2 with ⟨hok, -⟩ |
    ⟨accepting, o, x, rest, fault, heq, haccept, hjudge, herr, -⟩
  · exact absurd (hok.symm.trans h) (by simp)
  obtain rfl : fault = e := Except.error.inj (herr.symm.trans h)
  cases x with
  | recorder k strict =>
    -- A recorder refuses what it cannot plan.
    refine .inl ?_
    have hplanned : (Tracking.plan strict f N).map (fun _ => ()) = .error fault := hjudge
    cases hplan : Tracking.plan strict f N with
    | ok q =>
      rw [hplan] at hplanned
      exact absurd hplanned (by simp [Except.map])
    | error fault' =>
      rw [hplan] at hplanned
      obtain rfl : fault' = fault := Except.error.inj hplanned
      exact Factual.plan _ hplan
  | observer x =>
    refine .inr ⟨accepting, o, x, fun c hc => ?_, haccept, hjudge⟩
    have hmem : c ∈ a.membersOn (a.subscriptions.observers N.node) := by
      rw [heq, List.append_cons]
      exact List.mem_append_left rest hc
    exact (mem_membersOn.mp hmem).imp_left Subscriptions.mem_observers.mp

/-- An announcement is refused when the audience is asked, before anybody is told. -/
theorem Audience.announce_objects (h : (a.announce f N).1 = .error e) :
    e.ofSession = false ∨
      a.Objects ⟨⟨N, f⟩, (a.subscriptions.has · N.node), a.memory, e⟩ :=
  poll_objects (fst_announce.symm.trans h)

/-- On the way from one document to the other, an observer refused a change that it was asked
about, and the fault is the one it gave. -/
def Document.Objected (d d' : Document τ) (e : Fault) : Prop :=
  ∃ l, d'.vetoes = d.vetoes ++ l ∧ ∃ v ∈ l, v.fault = e ∧ d.audience.Objects v

/-- What an edit that ends like this may say of a session, an observer has said on the way. Nobody
has changed seats, and no veto is forgotten. -/
structure Document.Vouched (d : Document τ) (x : Except Fault α × Document τ) : Prop where
  members : ∀ o, x.2.audience.member? o = d.audience.member? o
  vetoes : ∃ l, x.2.vetoes = d.vetoes ++ l
  objected : ∀ e, x.1 = .error e → e.ofSession = true → d.Objected x.2 e

namespace Edit

/-- Whatever the edit says of a session, an observer has said. -/
def Vouched (x : Edit τ α) : Prop := ∀ d : Document τ, d.Vouched (x d)

namespace Vouched

variable {x : Edit τ α} {k : α → Edit τ β}

/-- What asks nobody and moves nobody. -/
theorem of_quiet (hm : ∀ d o, (x d).2.audience.member? o = d.audience.member? o)
    (hv : ∀ d, (x d).2.vetoes = d.vetoes) (hf : ∀ d, Factual (x d).1) : Vouched x := fun d =>
  ⟨hm d, ⟨[], by rw [hv, List.append_nil]⟩, fun e he hs => absurd (hf d e he) (by rw [hs]; simp)⟩

/-- Objections against what is done later are objections against the whole. -/
theorem objected_of_later {d₁ d₂ : Document τ} {l : List (Veto τ)} (hv : d₁.vetoes = d.vetoes ++ l)
    (hm : ∀ o, d₁.audience.member? o = d.audience.member? o) (h : d₁.Objected d₂ e) :
    d.Objected d₂ e := by
  obtain ⟨l', hl', v, hv', hfault, hobjects⟩ := h
  refine ⟨l ++ l', by rw [hl', hv, List.append_assoc], v, List.mem_append_right l hv', hfault,
    hobjects.mono fun o _ ho => (hm o).symm.trans ho⟩

/-- Objections that were made stay, whatever else is refused. -/
theorem objected_of_earlier {d₁ d₂ : Document τ} {l : List (Veto τ)}
    (hv : d₂.vetoes = d₁.vetoes ++ l) (h : d.Objected d₁ e) : d.Objected d₂ e := by
  obtain ⟨l', hl', v, hv', hfault, hobjects⟩ := h
  exact ⟨l' ++ l, by rw [hv, hl', List.append_assoc], v, List.mem_append_left l hv', hfault,
    hobjects⟩

theorem bind (hx : Vouched x) (hk : ∀ a, Vouched (k a)) : Vouched (x >>= k) := by
  intro d
  have hfirst := hx d
  rw [bind_apply]
  rcases hxd : x d with ⟨fault | a, d₁⟩ <;> rw [hxd] at hfirst <;> dsimp only
  · refine ⟨hfirst.members, hfirst.vetoes, fun e he hs => hfirst.objected e ?_ hs⟩
    rw [Except.error.inj he]
  · obtain ⟨l, hl⟩ := hfirst.vetoes
    obtain ⟨l', hl'⟩ := (hk a d₁).vetoes
    exact ⟨fun o => ((hk a d₁).members o).trans (hfirst.members o),
      ⟨l ++ l', by rw [hl', hl, List.append_assoc]⟩,
      fun e he hs => objected_of_later hl hfirst.members ((hk a d₁).objected e he hs)⟩

/-- The fault is that of the edit, whatever the repair meets with. -/
theorem mending {repair : Edit τ Unit} (hx : Vouched x) (hr : Vouched repair) :
    Vouched (x.mending repair) := by
  intro d
  have hfirst := hx d
  unfold Edit.mending
  rcases hxd : x d with ⟨fault | a, d₁⟩ <;> rw [hxd] at hfirst
  · obtain ⟨l, hl⟩ := hfirst.vetoes
    obtain ⟨l', hl'⟩ := (hr d₁).vetoes
    exact ⟨fun o => ((hr d₁).members o).trans (hfirst.members o),
      ⟨l ++ l', by rw [hl', hl, List.append_assoc]⟩,
      fun e he hs => objected_of_earlier hl' (hfirst.objected e he hs)⟩
  · exact hfirst

/-- Asking, with what it is refused for written down. -/
theorem of_asking {x : Edit τ Unit} {N : Notice}
    (hm : ∀ d o, (x d).2.audience.member? o = d.audience.member? o)
    (hv : ∀ d, (x d).2.vetoes = d.vetoes ++ Veto.noted N d (x d).1)
    (hobjects : ∀ d e, (x d).1 = .error e → e.ofSession = false ∨
      d.audience.Objects
        ⟨⟨N, d.forest⟩, (d.audience.subscriptions.has · N.node), d.audience.memory, e⟩) :
    Vouched x := by
  refine fun d => ⟨hm d, ⟨_, hv d⟩, fun e he hs => ⟨_, hv d, ?_⟩⟩
  rw [he]
  exact ⟨_, .head _, rfl, (hobjects d e he).resolve_left (by rw [hs]; simp)⟩

theorem poll (N : Notice) : Vouched (Edit.poll N : Edit τ Unit) := by
  refine of_asking (N := N) (fun d o => ?_) (fun d => ?_) fun d e he => ?_
  · rw [(poll_apply N d).2]
    exact Audience.member?_askAll
  · rw [(poll_apply N d).2]
  · rw [(poll_apply N d).1] at he
    exact Audience.poll_objects he

theorem announce (N : Notice) : Vouched (Edit.announce N : Edit τ Unit) := by
  refine of_asking (N := N) (fun d o => ?_) (fun d => ?_) fun d e he => ?_
  · rw [(announce_apply N d).2]
    exact Audience.member?_announce
  · rw [(announce_apply N d).2]
  · rw [(announce_apply N d).1] at he
    exact Audience.announce_objects he

theorem query (q : Forest → Except Fault α) (hq : ∀ f, Factual (q f)) :
    Vouched (Edit.query q : Edit τ α) :=
  of_quiet (fun _ _ => rfl) (fun _ => rfl) fun d => hq d.forest

theorem pure (a : α) : Vouched (pure a : Edit τ α) :=
  of_quiet (fun _ _ => rfl) (fun _ => rfl) fun _ => .pure a

/-- **All edits**, step by step. -/
theorem compositional : Compositional fun _ (x : Edit τ _) => Vouched x where
  pure := .pure
  throw _ h := of_quiet (fun _ _ => rfl) (fun _ => rfl) fun _ => .error h
  bind := .bind
  query := .query
  mending := .mending
  poll := .poll
  announce := .announce
  setPlace n place := by
    refine of_quiet (fun d o => ?_) (fun d => ?_) fun d => ?_ <;> unfold Edit.setPlace
    · split <;> rfl
    · split <;> rfl
    · split
      · exact .error (Factual.node _ ‹_›)
      · exact .pure ()
  modifySlot n p g := by
    refine of_quiet (fun d o => ?_) (fun d => ?_) fun d => ?_ <;> unfold Edit.modifySlot
    · split <;> (try split) <;> rfl
    · split <;> (try split) <;> rfl
    · split
      · exact .error (Factual.node _ ‹_›)
      · split
        · exact .error rfl
        · exact .pure ()
  createOf t := by
    refine of_quiet (fun d o => ?_) (fun d => ?_) fun d => ?_ <;> unfold Edit.createOf
    · split <;> rfl
    · split <;> rfl
    · split
      · exact .error (Factual.create _ ‹_›)
      · exact .pure _
  advance := of_quiet (fun _ _ => rfl) (fun _ => rfl) fun _ => .pure ()

/-! ## Reverting -/

theorem journal {k : Nat} : Vouched (Edit.journal k : Edit τ Journal) :=
  of_quiet (fun _ _ => rfl) (fun _ => rfl) fun _ => .pure _

theorem modifyJournal {k : Nat} (g : Journal → Journal) :
    Vouched (Edit.modifyJournal k g : Edit τ Unit) :=
  of_quiet (fun _ _ => rfl) (fun _ => rfl) fun _ => .pure ()

theorem reduceJournal {k : Nat} {prune : Bool} :
    Vouched (Edit.reduceJournal k prune : Edit τ Reduction) :=
  of_quiet (fun _ _ => rfl) (fun _ => rfl) fun _ => .reduce

/-- **Reverting** is made of edits, beside what it does to its journal, and what it asks at the
end is about the forest. -/
theorem revert {policy : Policy} {k : Nat} :
    Vouched (Revert.run policy k : Edit τ Revert.Report) := by
  refine .bind .reduceJournal fun _ => .bind .journal fun j =>
    .bind (.query _ fun _ => .filterM (fun _ => .isStructural) _) fun structural =>
      .bind (.query _ fun _ => .filterM (fun _ => .bind .isStructural fun _ => .pure _) _)
        fun plain => .bind (compositional.writeBack _ _) fun _ => .bind .journal fun j => ?_
  have hend : ∀ report : Revert.Report, Vouched (do
      Edit.modifyJournal k (·.forget)
      return report : Edit τ Revert.Report) := fun _ => .bind (.modifyJournal _) fun _ => .pure _
  dsimp only
  split
  · exact .bind (.query _ fun _ => .verify) fun _ => hend _
  · exact .bind (.pure _) fun _ => hend _

end Vouched

end Edit

/-! ## Calls -/

/-- If the edit fails for the sake of a session, the document is as it was. -/
def Edit.Declines (x : Edit τ α) (d : Document τ) : Prop :=
  ∀ e, (x d).1 = .error e → e.ofSession = true → (x d).2 = d

namespace Edit.Declines

variable {x : Edit τ α}

theorem of_same (h : ∀ e, (x d).1 = .error e → (x d).2 = d) : x.Declines d :=
  fun e he _ => h e he

theorem of_ok {a : α} (h : (x d).1 = .ok a) : x.Declines d :=
  fun _ he => absurd (h.symm.trans he) (by simp)

theorem of_eq {y : Edit τ α} (h : x d = y d) (hy : y.Declines d) : x.Declines d := by
  unfold Declines
  rw [h]
  exact hy

end Edit.Declines

namespace Recording

section attuned

variable (hd : d.audience.Attuned rs) (hr : r ∈ rs)

include hd hr

end attuned

end Recording

/-! ## One recording among others -/

/-- Edits spare the recorders. -/
theorem Document.Shared.after (h : d.Shared rs) (edits : List Mutation) :
    (d.after edits).Shared rs := by
  induction edits generalizing d with
  | nil => exact h
  | cons m edits ih => exact ih (.turn h (.outside (.edit m) trivial))

end TrackedGraph
