/-
Edits cannot tell some documents apart.

What an edit does depends on the forest and on what the audience says. So if two documents
share the forest and have audiences that give the same answers, and go on to do so when they
are told of the same changes, then the same edit ends alike in both (`Edit.Respects`). Which
audiences these are is left open (`Document.Blind`); that every edit respects such a relation
is shown of the steps, and of what is put together from edits.

One such relation is shown here. Nobody reads the journals, so documents that differ in
one of them are not told apart (`Document.SameBut`).
-/
import TrackedGraph.Proofs.Document.Step
import TrackedGraph.Proofs.Document.Composing
import TrackedGraph.Proofs.Audience

set_option autoImplicit false

namespace TrackedGraph

variable {τ α β : Type} {R : Document τ → Document τ → Prop} {d e : Document τ}

/-- Documents with the same forest and the same counts, whose audiences give the same
answers. -/
structure Document.Blind (R : Document τ → Document τ → Prop) : Prop where
  forest : ∀ d e, R d e → e.forest = d.forest
  refusals : ∀ d e, R d e → e.refusals = d.refusals
  poll : ∀ d e, R d e → ∀ N, (Edit.poll N e).1 = (Edit.poll N d).1 ∧
    R (Edit.poll N d).2 (Edit.poll N e).2
  announce : ∀ d e, R d e → ∀ N, (Edit.announce N e).1 = (Edit.announce N d).1 ∧
    R (Edit.announce N d).2 (Edit.announce N e).2
  write : ∀ d e, R d e → ∀ f, R { d with forest := f } { e with forest := f }
  advance : ∀ d e, R d e → R (Edit.advance d).2 (Edit.advance e).2
  count : ∀ d e, R d e → ∀ d₁ e₁, R d₁ e₁ → ∀ k k', k' = k →
    R { d₁ with repairRefusals := d.repairRefusals + k }
      { e₁ with repairRefusals := e.repairRefusals + k' }

/-- **Documents that differ in their audiences alone** are told apart by no edit, if the observers
remember the same, the same seats are subscribed and the same polls and announcements accepted, and
the audiences stay related. -/
theorem Document.Blind.of_audience {R : Audience τ → Audience τ → Prop}
    (hmemory : ∀ a b, R a b → b.memory = a.memory)
    (hhas : ∀ a b, R a b → ∀ o n, b.subscriptions.has o n = a.subscriptions.has o n)
    (hpoll : ∀ a b, R a b → ∀ f N, (b.poll f N).1 = (a.poll f N).1 ∧
      R (a.poll f N).2 (b.poll f N).2)
    (hannounce : ∀ a b, R a b → ∀ f N, (b.announce f N).1 = (a.announce f N).1 ∧
      R (a.announce f N).2 (b.announce f N).2) :
    Blind fun d e : Document τ => ∃ a, e = { d with audience := a } ∧ R d.audience a where
  forest := by
    rintro d _ ⟨a, rfl, -⟩
    rfl
  refusals := by
    rintro d _ ⟨a, rfl, -⟩
    rfl
  poll := by
    rintro d _ ⟨a, rfl, ha⟩ N
    unfold Edit.poll
    simp only [hhas _ _ ha, hmemory _ _ ha]
    obtain ⟨hres, hrelated⟩ := hpoll _ _ ha d.forest N
    rcases hd : d.audience.poll d.forest N with ⟨rd, d'⟩
    rcases he : a.poll d.forest N with ⟨re, e'⟩
    rw [hd, he] at hres hrelated
    obtain rfl : re = rd := hres
    cases re with
    | ok _ => exact ⟨rfl, e', rfl, hrelated⟩
    | error fault => exact ⟨rfl, e', rfl, hrelated⟩
  announce := by
    rintro d _ ⟨a, rfl, ha⟩ N
    unfold Edit.announce
    simp only [hhas _ _ ha, hmemory _ _ ha]
    obtain ⟨hres, hrelated⟩ := hannounce _ _ ha d.forest N
    rcases hd : d.audience.announce d.forest N with ⟨rd, d'⟩
    rcases he : a.announce d.forest N with ⟨re, e'⟩
    rw [hd, he] at hres hrelated
    obtain rfl : re = rd := hres
    cases re with
    | ok _ => exact ⟨rfl, e', rfl, hrelated⟩
    | error fault => exact ⟨rfl, e', rfl, hrelated⟩
  write := by
    rintro d _ ⟨a, rfl, ha⟩ f
    exact ⟨a, rfl, ha⟩
  advance := by
    rintro d _ ⟨a, rfl, ha⟩
    exact ⟨a, rfl, ha⟩
  count := by
    rintro d _ ⟨-, rfl, -⟩ d₁ _ ⟨a, rfl, ha⟩ k _ rfl
    exact ⟨a, rfl, ha⟩

namespace Edit

/-- The edit ends alike in documents that are related, and leaves them related. -/
def Respects (R : Document τ → Document τ → Prop) (x : Edit τ α) : Prop :=
  ∀ d e, R d e → (x e).1 = (x d).1 ∧ R (x d).2 (x e).2

namespace Respects

variable {x y : Edit τ α} {k : α → Edit τ β} {n : NodeId} {p : PropertyId}

/-! ## Rules -/

theorem pure (a : α) : Respects R (pure a : Edit τ α) := fun _ _ h => ⟨rfl, h⟩

theorem throw (e : Fault) : Respects R (throw e : Edit τ α) := fun _ _ h => ⟨rfl, h⟩

/-- What comes after an edit that both go through alike need not go alike. A condition on both
ends is shown of the whole. -/
theorem bind_ends {E : Except Fault β × Document τ → Except Fault β × Document τ → Prop}
    (hx : Respects R x) (h : R d e)
    (hk : ∀ a d' e', x d = (.ok a, d') → R d' e' → E (k a d') (k a e'))
    (herr : ∀ fault d' e', R d' e' → E (.error fault, d') (.error fault, e')) :
    E ((x >>= k) d) ((x >>= k) e) := by
  obtain ⟨hr, hR⟩ := hx d e h
  rw [bind_apply, bind_apply]
  rcases hd : x d with ⟨rd, d'⟩
  rcases he : x e with ⟨re, e'⟩
  rw [hd, he] at hr hR
  obtain rfl : re = rd := hr
  cases re with
  | error fault => exact herr fault d' e' hR
  | ok a => exact hk a d' e' hd hR

theorem bind (hx : Respects R x) (hk : ∀ a, Respects R (k a)) : Respects R (x >>= k) :=
  fun _ _ h => hx.bind_ends (E := fun p q => q.1 = p.1 ∧ R p.2 q.2) h
    (fun a d' e' _ hR => hk a d' e' hR) fun _ _ _ hR => ⟨rfl, hR⟩

theorem ite {c : Prop} [Decidable c] (hx : Respects R x) (hy : Respects R y) :
    Respects R (if c then x else y) := by
  split
  · exact hx
  · exact hy

section blind

variable (hR : Document.Blind R)

include hR

theorem query (q : Forest → Except Fault α) : Respects R (Edit.query q : Edit τ α) :=
  fun d e h => ⟨congrArg q (hR.forest d e h), h⟩

theorem poll (N : Notice) : Respects R (Edit.poll N : Edit τ Unit) :=
  fun d e h => hR.poll d e h N

theorem announce (N : Notice) : Respects R (Edit.announce N : Edit τ Unit) :=
  fun d e h => hR.announce d e h N

theorem advance : Respects R (Edit.advance : Edit τ Unit) :=
  fun d e h => ⟨rfl, hR.advance d e h⟩

/-- **Repairing** goes alike as well, and as many refusals fall on it. -/
theorem mending {repair : Edit τ Unit} (hx : Respects R x) (hr : Respects R repair) :
    Respects R (x.mending repair) := by
  intro d e h
  obtain ⟨hres, hR'⟩ := hx d e h
  unfold Edit.mending
  rcases hd : x d with ⟨rd, d'⟩
  rcases he : x e with ⟨re, e'⟩
  rw [hd, he] at hres hR'
  obtain rfl : re = rd := hres
  cases re with
  | ok a => exact ⟨rfl, hR'⟩
  | error fault =>
    have hmended := (hr d' e' hR').2
    refine ⟨rfl, hR.count d' e' hR' _ _ hmended _ _ ?_⟩
    exact congrArg₂ Nat.sub (hR.refusals _ _ hmended) (hR.refusals _ _ hR')

/-! ## Steps -/

theorem setPlace (place : Option Place) : Respects R (Edit.setPlace n place : Edit τ Unit) := by
  intro d e h
  unfold Edit.setPlace
  rw [hR.forest d e h]
  cases d.forest.node n with
  | error fault => exact ⟨rfl, h⟩
  | ok _ => exact ⟨rfl, hR.write d e h _⟩

theorem modifySlot (g : Slot → Slot) : Respects R (Edit.modifySlot n p g : Edit τ Unit) := by
  intro d e h
  unfold Edit.modifySlot
  rw [hR.forest d e h]
  cases d.forest.node n with
  | error fault => exact ⟨rfl, h⟩
  | ok node =>
    dsimp only
    cases node.slots[p.index]? with
    | none => exact ⟨rfl, h⟩
    | some slot => exact ⟨rfl, hR.write d e h _⟩

theorem createOf (t : TypeId) : Respects R (Edit.createOf t : Edit τ NodeId) := by
  intro d e h
  unfold Edit.createOf
  rw [hR.forest d e h]
  rcases d.forest.create t with fault | ⟨n, f⟩
  · exact ⟨rfl, h⟩
  · exact ⟨rfl, hR.write d e h f⟩

theorem compositional : Compositional fun _ x => Respects R x where
  pure := .pure
  throw e _ := .throw e
  bind := .bind
  mending := .mending hR
  query q _ := .query hR q
  poll := .poll hR
  announce := .announce hR
  setPlace _ := .setPlace hR
  modifySlot _ _ := .modifySlot hR
  createOf := .createOf hR
  advance := .advance hR

/-- **No edit tells related documents apart.** -/
theorem mutation (m : Mutation) : Respects R (m.run : Edit τ Mutation.Outcome) :=
  (compositional hR).mutation m

end blind

end Respects

end Edit

/-! ## What edits keep -/

/-- **What polls and announcements keep, every edit keeps**, if it is no condition on the forest,
the generation and the vetoes. The condition is taken as a relation of the document to itself. -/
theorem Mutation.keeps {P : Document τ → Prop} (hpoll : ∀ N, Edit.Keeps P (Edit.poll N))
    (hannounce : ∀ N, Edit.Keeps P (Edit.announce N))
    (hframe : ∀ d f g i j, P d → P { d with
      forest := f, generation := g, vetoes := i, repairRefusals := j })
    (m : Mutation) : Edit.Keeps P m.run := by
  have hblind : Document.Blind fun d e : Document τ => e = d ∧ P d := by
    refine ⟨?_, ?_, ?_, ?_, ?_, ?_, ?_⟩
    · rintro d _ ⟨rfl, -⟩
      rfl
    · rintro d _ ⟨rfl, -⟩
      rfl
    · rintro d _ ⟨rfl, hd⟩ N
      exact ⟨rfl, rfl, hpoll N _ hd⟩
    · rintro d _ ⟨rfl, hd⟩ N
      exact ⟨rfl, rfl, hannounce N _ hd⟩
    · rintro d _ ⟨rfl, hd⟩ f
      exact ⟨rfl, hframe _ f _ _ _ hd⟩
    · rintro d _ ⟨rfl, hd⟩
      exact ⟨rfl, hframe _ _ _ _ _ hd⟩
    · rintro d _ ⟨rfl, -⟩ d₁ _ ⟨rfl, hd⟩ k _ rfl
      exact ⟨rfl, hframe _ _ _ _ _ hd⟩
  exact fun d hd => (Edit.Respects.mutation hblind m d d ⟨rfl, hd⟩).2.2

theorem Mutation.keeps_audience {P : Audience τ → Prop} (hpoll : ∀ a f N, P a → P (a.poll f N).2)
    (hannounce : ∀ a f N, P a → P (a.announce f N).2) (m : Mutation) :
    Edit.Keeps (fun d : Document τ => P d.audience) m.run := by
  refine m.keeps (fun N d hd => ?_) (fun N d hd => ?_) fun _ _ _ _ _ hd => hd
  · rw [(poll_apply N d).2]
    exact hpoll _ _ N hd
  · rw [(announce_apply N d).2]
    exact hannounce _ _ N hd

/-! ## Documents that differ in one journal -/

/-- The audiences differ in the journal of the number at most. -/
structure Audience.SameBut (k : Nat) (a b : Audience τ) : Prop where
  seats : b.seats = a.seats
  subscriptions : b.subscriptions = a.subscriptions
  memory : b.memory = a.memory
  length : b.journals.length = a.journals.length
  journal : ∀ i, i ≠ k → b.journal i = a.journal i

namespace Audience

variable {a b c : Audience τ} {k : Nat} {f : Forest} {N : Notice} {x : Member τ} {o : ObserverId}

theorem SameBut.refl (k : Nat) (a : Audience τ) : a.SameBut k a :=
  ⟨rfl, rfl, rfl, rfl, fun _ _ => rfl⟩

theorem SameBut.symm (h : a.SameBut k b) : b.SameBut k a :=
  ⟨h.seats.symm, h.subscriptions.symm, h.memory.symm, h.length.symm,
    fun i hi => (h.journal i hi).symm⟩

theorem SameBut.trans (h : a.SameBut k b) (h' : b.SameBut k c) : a.SameBut k c :=
  ⟨h'.seats.trans h.seats, h'.subscriptions.trans h.subscriptions, h'.memory.trans h.memory,
    h'.length.trans h.length, fun i hi => (h'.journal i hi).trans (h.journal i hi)⟩

theorem SameBut.setJournal {j : Journal} : a.SameBut k (a.setJournal k j) :=
  ⟨rfl, rfl, rfl, length_setJournal, fun i hi => by
    rw [journal_setJournal, if_neg fun h => hi h.1.symm]⟩

theorem SameBut.member? (h : a.SameBut k b) : b.member? o = a.member? o := by
  unfold Audience.member?
  rw [h.seats]

/-- Nobody who is asked reads a journal. -/
theorem SameBut.ask (h : a.SameBut k b) : (Audience.ask f N x b).1 = (Audience.ask f N x a).1 ∧
    (Audience.ask f N x a).2.SameBut k (Audience.ask f N x b).2 := by
  cases x with
  | recorder i strict => exact ⟨rfl, h⟩
  | observer obs =>
    simp only [Audience.ask, h.memory]
    exact ⟨trivial, h.seats, h.subscriptions, rfl, h.length, h.journal⟩

/-- Who is told reads the journal that it writes, and its subscriptions do not depend on it. -/
theorem SameBut.tell (h : a.SameBut k b) :
    (Audience.tell f N o x a).SameBut k (Audience.tell f N o x b) := by
  cases x with
  | recorder i strict =>
    have hchanges : ∀ j j',
        (Tracking.carryOut strict f N j).1 = (Tracking.carryOut strict f N j').1 := by
      intro j j'
      unfold Tracking.carryOut
      split <;> rfl
    refine ⟨h.seats, ?_, h.memory, ?_, fun i' hi' => ?_⟩
    · simp only [Audience.tell, h.subscriptions, hchanges (b.journal i) (a.journal i)]
    · rw [length_journals_tell, length_journals_tell, h.length]
    · refine (journal_setJournal (a := b)).trans (.trans ?_ (journal_setJournal (a := a)).symm)
      rw [h.length, h.journal i' hi']
      by_cases heq : i = i'
      · rw [heq, h.journal i' hi']
      · rw [if_neg fun hc => heq hc.1, if_neg fun hc => heq hc.1]
  | observer obs =>
    simp only [Audience.tell, h.memory, h.subscriptions]
    exact ⟨h.seats, rfl, rfl, h.length, h.journal⟩

theorem SameBut.announce (h : a.SameBut k b) : (b.announce f N).1 = (a.announce f N).1 ∧
    (a.announce f N).2.SameBut k (b.announce f N).2 :=
  announce_congr (fun _ _ h _ _ => h.member?) (fun _ _ h _ => h.ask) (fun _ _ h _ _ _ => h.tell)
    rfl (by rw [h.subscriptions]) h

end Audience

/-- The documents differ in the journal of the number at most. -/
def Document.SameBut (k : Nat) (d e : Document τ) : Prop :=
  ∃ a, e = { d with audience := a } ∧ d.audience.SameBut k a

namespace Document

variable {k : Nat} {c : Document τ}

theorem SameBut.refl (k : Nat) (d : Document τ) : d.SameBut k d := ⟨d.audience, rfl, .refl k _⟩

theorem SameBut.symm (h : d.SameBut k e) : e.SameBut k d := by
  obtain ⟨a, rfl, ha⟩ := h
  exact ⟨d.audience, rfl, ha.symm⟩

theorem SameBut.trans (h : d.SameBut k e) (h' : e.SameBut k c) : d.SameBut k c := by
  obtain ⟨a, rfl, ha⟩ := h
  obtain ⟨b, rfl, hb⟩ := h'
  exact ⟨b, rfl, ha.trans hb⟩

theorem SameBut.setJournal {j : Journal} :
    d.SameBut k { d with audience := d.audience.setJournal k j } := ⟨_, rfl, .setJournal⟩

/-- **Nobody reads a journal**, so no edit depends on what it holds. -/
theorem SameBut.blind (k : Nat) : Blind (SameBut k : Document τ → Document τ → Prop) :=
  .of_audience (fun _ _ h => h.memory) (fun _ _ h _ _ => by rw [h.subscriptions])
    (fun a b h f N => by
      unfold Audience.poll
      rw [h.subscriptions]
      exact Audience.askAll_congr (fun _ _ h _ _ => h.member?) (fun _ _ h _ => h.ask) h)
    fun a b h f N => h.announce

end Document

end TrackedGraph
