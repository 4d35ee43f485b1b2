/-
Logs that lead back.

Undoing a session rests on what its recorder heard. Here a log may come from anywhere: what is
asked of it is that its first states are those of the slots that are different by now, and that
of a newer node it knows nothing but that it was at rest (`Journal.LeadsBack`). Then it does not
matter in which order the states are brought back, nor that nodes have changed the roles of parent
and child in the meantime: all properties of the states are emptied first, and after that what
sits in an earlier node sat there before (`Journal.Covers.settled`).

One thing such a log does not see. A newer node that no state is of may hold a node that sat
nowhere, and nothing takes it out again (`Journal.Strays`). Every other earlier node gets back to
its place, and all slots of earlier nodes are what they were (`Document.Becomes.run_rewinds`).
-/
import TrackedGraph.Proofs.Document.Consenting
import TrackedGraph.Proofs.Recording.Refusing
import TrackedGraph.Proofs.Recording.Verifying

set_option autoImplicit false

namespace TrackedGraph

open Forest (GrownFrom)

variable {τ : Type} {schema : Schema} {d d' d₀ : Document τ} {n c : NodeId} {p q : PropertyId}
  {j j' : Journal} {f f' f₀ : Forest} {s : Slot} {x : PriorState} {loose : Bool} {k : Nat}
  {policy : Policy}

/-! ## Earlier and later documents -/

/-- The document becomes the other one by edits. The audience, the journals and the counts may be
changed in between in any way. -/
inductive Document.Becomes (d₀ : Document τ) : Document τ → Prop
  | start : Becomes d₀ d₀
  | edit (d : Document τ) (m : Mutation) (h : Becomes d₀ d) : Becomes d₀ (m.run d).2
  | other (d d' : Document τ) (h : Becomes d₀ d) (hf : d'.forest = d.forest)
      (hr : d'.root = d.root) : Becomes d₀ d'

theorem Document.Becomes.reachable (h : d₀.Becomes d)
    (h₀ : d₀.Reachable schema fun _ _ => True) : d.Reachable schema fun _ _ => True := by
  induction h with
  | start => exact h₀
  | edit d m _ ih => exact .edit d m ih trivial
  | other d d' _ hf hr ih => exact .other d d' ih hf hr

theorem Document.Becomes.after (h : d₀.Becomes d) (ms : List Mutation) :
    d₀.Becomes (d.after ms) := by
  induction ms generalizing d with
  | nil => exact h
  | cons m ms ih => exact ih (.edit d m h)

/-- Nodes keep their types, and the schema stays. -/
theorem Document.Becomes.grownFrom (h : d₀.Becomes d) (hr : schema.Regular)
    (h₀ : d₀.Reachable schema fun _ _ => True) : GrownFrom d₀.forest d.forest := by
  induction h with
  | start => exact .refl _
  | edit d m h ih =>
    have hf : d.forest.Sound False := (h.reachable h₀).sound hr fun hs => absurd hs id
    have hc := m.chain hf fun hs => absurd hs id
    exact ih.trans ⟨hc.schema, fun _ _ => hc.typeOf⟩
  | other d d' _ hf _ ih =>
    rw [hf]
    exact ih

/-! ## What is asked of a log -/

/-- The state is of a property that has a slot of its own. If it is of an earlier node, it is what
the slot held, and if it is of a newer one, it is at rest. -/
structure PriorState.LeadsBack (x : PriorState) (f f₀ : Forest) : Prop where
  direct : ∃ g, f.feature x.node x.property = .ok g ∧ g.owner = none
  earlier : f₀.contains x.node = true → f₀.slot x.node x.property = .ok x.slot
  newer : f₀.contains x.node = false →
    ∃ g, f.feature x.node x.property = .ok g ∧ x.slot = ⟨g.restValue, false⟩

/-- The log has a state of every earlier slot that is different now. -/
def Journal.Complete (j : Journal) (f f₀ : Forest) : Prop :=
  ∀ n p s, f₀.slot n p = .ok s → f.slot n p ≠ .ok s → j.Recalls n p

/-- **The log leads back** from a forest to an earlier one: its first states do, and there is one
of every slot of an earlier node that is different now. -/
structure Journal.LeadsBack (j : Journal) (f f₀ : Forest) : Prop where
  indexed : Journal.Indexed j.records
  states : ∀ x ∈ j.allEarliest, x.LeadsBack f f₀
  complete : j.Complete f f₀

/-- The node sat nowhere, and by now it sits in a newer node, in a slot that the log has no state
of. -/
def Journal.Strays (j : Journal) (f f₀ : Forest) (c : NodeId) : Prop :=
  f₀.place? c = none ∧ ∃ n p q s, f₀.contains n = false ∧ f.slot n p = .ok s ∧
    (c, q) ∈ f.claims n p s.value ∧ ¬ j.Recalls n p

namespace Journal.LeadsBack

/-! ### The condition computed -/

/-- It is enough to look at the slots that there were. -/
theorem complete_iff : j.Complete f f₀ ↔
    ∀ i, ∀ hi : i < f₀.nodes.length, ∀ l < f₀.nodes[i].slots.length,
      f.slot ⟨i⟩ ⟨l⟩ = f₀.slot ⟨i⟩ ⟨l⟩ ∨ j.Recalls ⟨i⟩ ⟨l⟩ := by
  constructor
  · intro h i hi l hl
    have hs : f₀.slot ⟨i⟩ ⟨l⟩ = .ok f₀.nodes[i].slots[l] :=
      Forest.slot_eq_ok.mpr ⟨f₀.nodes[i], List.getElem?_eq_getElem hi, List.getElem?_eq_getElem hl⟩
    rw [hs]
    by_cases hsame : f.slot ⟨i⟩ ⟨l⟩ = .ok f₀.nodes[i].slots[l]
    · exact .inl hsame
    · exact .inr (h _ _ _ hs hsame)
  · intro h n p s hs hne
    obtain ⟨x, hx, hl⟩ := Forest.slot_eq_ok.mp hs
    obtain ⟨hi, rfl⟩ := List.getElem?_eq_some_iff.mp hx
    obtain ⟨hlt, -⟩ := List.getElem?_eq_some_iff.mp hl
    exact (h n.index hi p.index hlt).resolve_left fun hsame => hne (hsame.trans hs)

instance decidableOk {ε α : Type} (e : Except ε α) (P : α → Prop) [∀ a, Decidable (P a)] :
    Decidable (∃ a, e = .ok a ∧ P a) :=
  match e with
  | .ok a => decidable_of_iff (P a) (by simp)
  | .error _ => .isFalse (by simp)

instance (x : PriorState) (f f₀ : Forest) : Decidable (x.LeadsBack f f₀) :=
  decidable_of_iff ((∃ g, f.feature x.node x.property = .ok g ∧ g.owner = none) ∧
    (f₀.contains x.node = true → f₀.slot x.node x.property = .ok x.slot) ∧
    (f₀.contains x.node = false →
      ∃ g, f.feature x.node x.property = .ok g ∧ x.slot = ⟨g.restValue, false⟩))
    ⟨fun ⟨hd, he, hn⟩ => ⟨hd, he, hn⟩, fun ⟨hd, he, hn⟩ => ⟨hd, he, hn⟩⟩

instance (j : Journal) (n : NodeId) (p : PropertyId) : Decidable (j.Recalls n p) :=
  inferInstanceAs (Decidable (∃ x ∈ j.allEarliest, x.node = n ∧ x.property = p))

instance (j : Journal) (f f₀ : Forest) : Decidable (j.Complete f f₀) :=
  decidable_of_iff _ complete_iff.symm

instance (j : Journal) (f f₀ : Forest) : Decidable (j.LeadsBack f f₀) :=
  decidable_of_iff (Journal.Indexed j.records ∧ (∀ x ∈ j.allEarliest, x.LeadsBack f f₀) ∧
    j.Complete f f₀) ⟨fun ⟨hi, hx, hc⟩ => ⟨hi, hx, hc⟩, fun ⟨hi, hx, hc⟩ => ⟨hi, hx, hc⟩⟩

/-! ### What follows from it -/

variable (h : j.LeadsBack f f₀)

include h

/-- An earlier slot that the log has a state of held just that. -/
theorem remembers (hs : f₀.slot n p = .ok s) : j.Remembers f loose n p s := by
  by_cases hrecalls : j.Recalls n p
  · obtain ⟨x, hx, rfl, rfl⟩ := hrecalls
    have hslot := (h.states x hx).earlier (Forest.contains_of_slot hs)
    rw [hs, Except.ok.injEq] at hslot
    rw [hslot]
    exact .inl ⟨x, hx, rfl, rfl, .refl _⟩
  · have hsame : f.slot n p = .ok s := by
      by_contra hne
      exact hrecalls (h.complete n p s hs hne)
    exact .inr ⟨fun x hx heq => hrecalls ⟨x, hx, heq⟩, s, hsame, .refl _⟩

/-- A state of a newer node lists nothing. -/
theorem listed_of_newer (hf : f.Sound True) (hx : x ∈ j.allEarliest)
    (hc : ¬ f₀.contains x.node = true) : f.listed x = [] := by
  obtain ⟨g, hfeature, hslot⟩ := (h.states x hx).newer (Bool.eq_false_iff.mpr hc)
  have hvalue : x.value = g.restValue := congrArg Slot.value hslot
  unfold Forest.listed
  rw [hvalue]
  exact Forest.claims_restValue hf.regular hfeature

section forests

variable (hf₀ : f₀.Sound True) (hf : f.Sound True) (hg : GrownFrom f₀ f)

include hf₀ hf hg

theorem recordable (hx : x ∈ j.allEarliest) : f.Recordable x := by
  obtain ⟨g, hfeature, ho⟩ := (h.states x hx).direct
  cases hc : f₀.contains x.node with
  | true =>
    -- The slot fitted its property then, and types have not changed.
    have hslot := (h.states x hx).earlier hc
    obtain ⟨g₀, hg₀⟩ := hf₀.feature_of_slot _ _ _ hslot
    obtain rfl : g₀ = g := Except.ok.inj ((hg.feature hg₀).symm.trans hfeature)
    exact (hf₀.recordable hg₀ ho hslot).of_types hg.schema hg.typeOf
  | false =>
    obtain ⟨g', hfeature', hslot⟩ := (h.states x hx).newer hc
    obtain rfl : g = g' := ok_unique hfeature hfeature'
    have hvalue : x.value = g.restValue := congrArg Slot.value hslot
    refine ⟨g, hfeature, ho, ?_, ?_⟩
    · rw [hslot]
      exact ⟨fun _ => rfl, fun hset => absurd hset (by simp), fun hset => absurd hset (by simp)⟩
    · rw [hvalue, Forest.claims_restValue hf.regular hfeature]
      exact List.nodup_nil

/-- **What is left of the log once it is reduced** covers all earlier nodes. -/
theorem covers (hr : j'.records = kept f loose j.records) :
    j'.Covers f loose f₀ (f₀.contains · = true) :=
  .of_kept h.indexed (fun _ => h.recordable hf₀ hf hg) (fun _ _ _ _ hs => h.remembers hs) hr

/-- A slot that claims a node which sat nowhere is emptied, unless the node strays. -/
theorem recalls_of_not_strays (hr : j'.records = kept f loose j.records)
    (hs : f.slot n p = .ok s) (hc : (c, q) ∈ f.claims n p s.value) (hnone : f₀.place? c = none)
    (hstrays : ¬ j.Strays f f₀ c) : j'.Recalls n p := by
  by_contra hno
  have hno' : ∀ x ∈ j'.allEarliest, ¬ (x.node = n ∧ x.property = p) :=
    fun x hx heq => hno ⟨x, hx, heq⟩
  cases hn : f₀.contains n with
  | true =>
    -- The slot of an earlier node would have claimed the child all along.
    obtain ⟨s₀, hs₀, hclaims⟩ := (h.covers hf₀ hf hg hr).claims_of_not_recalled hf₀ hf
      (fun m hm => hg.feature_eq hm) hn hno' hs
    rw [hclaims] at hc
    have hplace := (hf₀.linked trivial).placed _ _ _ _ _ hs₀ hc
    rw [hnone] at hplace
    exact absurd hplace (by simp)
  | false =>
    -- A state of a newer node is at rest, so it is not pruned while the slot claims a child.
    refine hstrays ⟨hnone, n, p, q, s, hn, hs, hc, ?_⟩
    rintro ⟨x, hx, rfl, rfl⟩
    obtain ⟨g, hfeature, hslot⟩ := (h.states x hx).newer hn
    have hvalue : x.value = g.restValue := congrArg Slot.value hslot
    refine hno' x ?_ ⟨rfl, rfl⟩
    rw [allEarliest_of_kept hr]
    refine List.mem_filter.mpr ⟨hx, ?_⟩
    rw [Bool.not_eq_true', Bool.eq_false_iff]
    intro hsup
    obtain ⟨-, s', hs', -, hagrees⟩ := superfluous_iff.mp hsup
    obtain rfl := ok_unique hs hs'
    rw [Forest.claims_of_agrees hagrees, hvalue,
      Forest.claims_restValue hf.regular hfeature] at hc
    exact absurd hc List.not_mem_nil

/-- **The states can be resettled**: what sat somewhere gets its place back, and what sat nowhere
ends up nowhere, unless it strays. -/
theorem resettle (hr : j'.records = kept f loose j.records) :
    ∃ f', f.resettle j'.allEarliest = some f' ∧
      (∀ c, ¬ j.Strays f f₀ c → f₀.contains c = true → f'.place? c = f₀.place? c) ∧
      ∀ c, j.Strays f f₀ c → f'.place? c = f.place? c := by
  have hcovers := h.covers hf₀ hf hg hr
  have hsub : ∀ x ∈ j'.allEarliest, x ∈ j.allEarliest :=
    fun x => mem_of_mem_allEarliest_of_kept hr
  obtain ⟨f', hf', hback, hrest⟩ := hcovers.resettle hf₀ hf (fun m hm => hg.feature_eq hm)
    (fun _ _ hu _ => hu.contains) fun x hx => h.listed_of_newer hf (hsub x hx)
  refine ⟨f', hf', fun c hstrays hc => ?_, fun c hstrays => ?_⟩
  · cases hplace : f₀.place? c with
    | some place =>
      obtain ⟨p, s, hs, -⟩ := (hf₀.linked trivial).listed _ _ _ hplace
      exact hback c place.container place.property (Forest.contains_of_slot hs) hplace
    | none =>
      -- Nothing puts it anywhere, so it ends up where emptying leaves it.
      rw [hrest c fun n q _ hq => by rw [hplace] at hq; exact absurd hq (by simp)]
      cases hnow : f.place? c with
      | none => rw [Forest.emptied, Forest.place?_free, hnow, ite_self]
      | some place =>
        obtain ⟨p, s, hs, hclaim⟩ := (hf.linked trivial).listed _ _ _ hnow
        obtain ⟨x, hx, hxn, rfl⟩ :=
          h.recalls_of_not_strays hf₀ hf hg hr hs hclaim hplace hstrays
        rw [← hxn] at hs hclaim
        exact Forest.place?_emptied_of_mem hx hs hclaim
  · obtain ⟨hplace, n, p, q, s, -, hs, hclaim, hno⟩ := hstrays
    rw [hrest c fun n q _ hq => by rw [hplace] at hq; exact absurd hq (by simp)]
    exact hf.place?_emptied hs hclaim fun x hx heq => hno ⟨x, hsub x hx, heq⟩

end forests

end Journal.LeadsBack

/-! ## Reverting where all consent -/

namespace Edit.Alike

variable {a : Audience τ} {m : Nat}

theorem modifyJournal (g : Journal → Journal) :
    Alike (Document.Unopposed a m) f₀ (Edit.modifyJournal k g : Edit τ Unit) := by
  rintro d _ ⟨rfl, h⟩ hf hg
  exact ⟨⟨rfl, rfl, h⟩, hf, hg⟩

theorem journal : Alike (Document.Unopposed a m) f₀ (Edit.journal k : Edit τ Journal) := by
  rintro d _ ⟨rfl, h⟩ hf hg
  exact ⟨⟨rfl, rfl, h⟩, hf, hg⟩

theorem reduceJournal {prune : Bool} :
    Alike (Document.Unopposed a m) f₀ (Edit.reduceJournal k prune : Edit τ Reduction) := by
  rintro d _ ⟨rfl, h⟩ hf hg
  exact ⟨⟨rfl, rfl, h⟩, hf, hg⟩

/-- **Reverting** is made of edits, beside what it does to its journal. -/
theorem revert (ha : a.Consents) :
    Alike (Document.Unopposed a m) f₀ (Revert.run policy k : Edit τ Revert.Report) := by
  have hR := Document.unison_unopposed ha m
  refine .bind .reduceJournal fun _ => .bind .journal fun j =>
    .bind (.query hR _) fun structural => .bind (.query hR _) fun plain =>
      .bind (.writeBack hR _ _) fun _ => .bind .journal fun j => ?_
  have hend : ∀ report : Revert.Report, Alike (Document.Unopposed a m) f₀ (do
      Edit.modifyJournal k (·.forget)
      return report : Edit τ Revert.Report) := fun _ => .bind (.modifyJournal _) fun _ => .pure _
  dsimp only
  exact .ite (.bind (.query hR _) fun _ => hend _) (.bind (.pure _) fun _ => hend _)

end Edit.Alike

/-- **Where all consent, reverting is refused nothing**, however it ends. -/
theorem Revert.refusals_run_of_consents (ha : d.audience.Consents) (hf : d.forest.Aligned) :
    (run policy k d).2.refusals = d.refusals := by
  obtain ⟨⟨-, -, -, hquiet⟩, -⟩ :=
    Edit.Alike.revert (m := d.refusals) ha d d ⟨rfl, fun _ => rfl, rfl⟩ hf (.refl _)
  exact hquiet

/-! ## Writing a log back -/

/-- **The nodes of an earlier forest are as they were**: their slots match what they held, and they
sit where they sat. Only those that stray have stayed where they were in between. -/
structure Forest.Rewound (f' : Forest) (loose : Bool) (j : Journal) (f f₀ : Forest) : Prop where
  slots : ∀ n p s, f₀.slot n p = .ok s → ∃ s', f'.slot n p = .ok s' ∧ s'.Matches loose s
  places : ∀ n, ¬ j.Strays f f₀ n → f₀.contains n = true → f'.place? n = f₀.place? n
  strays : ∀ n, j.Strays f f₀ n → f'.place? n = f.place? n

/-- **Reverting by a log that leads back**, without a check at the end and with nobody refusing. -/
theorem Revert.run_leads_back (hf₀ : f₀.Sound True) (hf : d.forest.Sound True)
    (hg : GrownFrom f₀ d.forest) (hk : k < d.audience.journals.length)
    (h : (d.audience.journal k).LeadsBack d.forest f₀)
    (hmay : ∀ x ∈ (d.audience.journal k).allEarliest, d.forest.CanRestore x)
    (hv : policy.verify = false) :
    (run policy k).Ends d fun res d' => d'.refusals = d.refusals → (∃ report, res = .ok report) ∧
      d'.forest.Rewound policy.prune (d.audience.journal k) d.forest f₀ := by
  obtain ⟨-, -, hreduced⟩ := Journal.reduce_eq_ok d.forest policy.prune
    fun x hx => (h.recordable hf₀ hf hg hx).exists_slot hf.toTyped
  generalize hj : ((d.audience.journal k).reduce d.forest policy.prune).2 = j at hreduced
  have hr : j.records =
      Journal.kept d.forest policy.prune (d.audience.journal k).records := by rw [hreduced]
  have hcovers := h.covers hf₀ hf hg hr
  obtain ⟨f', hf', hplaces, hstrays⟩ := h.resettle hf₀ hf hg hr
  have hresettles : d.forest.Resettles j.allEarliest f' :=
    ⟨fun x hx => hmay x (Journal.mem_of_mem_allEarliest_of_kept hr hx), hf'⟩
  refine run_ends_of hf hk (fun x => h.recordable hf₀ hf hg) hj ?_
  refine (writeBack_ends (d := { d with audience := d.audience.setJournal k j }) hf
    (fun x => hcovers.of_allEarliest) hcovers.indexed.pairwise_recalled).mono ?_
  rintro res d₁ ⟨hc, hends⟩
  refine ⟨?_, ?_⟩
  · -- What can be resettled is written back, unless somebody refuses.
    rintro e rfl hquiet
    rcases hends hquiet with ⟨_, -, he, -⟩ | ⟨hnone, -⟩
    · exact absurd he (by simp)
    · exact absurd hresettles (hnone f')
  · rintro rfl
    refine ⟨fun e hv' => absurd (hv.symm.trans hv') (by simp), ?_⟩
    intro report d' hforest hrefusals _ hquiet
    refine ⟨⟨report, rfl⟩, ?_⟩
    obtain ⟨f'', hf'', -, hsame, hreverted⟩ | ⟨hnone, -⟩ := hends (hrefusals.symm.trans hquiet)
    swap
    · exact absurd hresettles (hnone f')
    obtain rfl : f' = f'' := Option.some.inj (hf'.symm.trans hf''.2)
    rw [hforest]
    have hplace : ∀ n, d₁.forest.place? n = f'.place? n := fun n => (hsame.place? n).symm
    refine ⟨fun n p s hs => ?_, fun n hno hn => (hplace n).trans (hplaces n hno hn),
      fun n hin => (hplace n).trans (hstrays n hin)⟩
    have hg₁ : GrownFrom f₀ d₁.forest := hg.trans ⟨hc.schema, fun _ _ => hc.typeOf⟩
    refine hcovers.slots_match hreverted hf₀ (fun m hm => hg₁.feature_eq hm) (fun c m q _ hq => ?_)
      (Forest.contains_of_slot hs) hs
    -- What sat somewhere does not stray.
    have hno : ¬ (d.audience.journal k).Strays d.forest f₀ c := by
      rintro ⟨hnone, -⟩
      rw [hq] at hnone
      exact absurd hnone (by simp)
    rw [hplace, hplaces c hno (Forest.contains_of_place hq), hq]

/-- **Reverting by a log that leads back** to an earlier document goes through and leaves the
earlier nodes as they were, unless somebody refuses, which nobody does where all consent. Only a
node that sat nowhere and was put into a newer node without a record stays there. -/
theorem Document.Becomes.run_rewinds {declarations : List TypeDeclaration}
    (hb : Schema.build declarations = .ok schema) (hn : schema.NullContainment)
    (hp : schema.PlainDefaults) (h₀ : d₀.Reachable schema fun _ _ => True) (h : d₀.Becomes d)
    (ha₀ : d₀.forest.Agrees) (ha : d.forest.Agrees) (hk : k < d.audience.journals.length)
    (hlog : (d.audience.journal k).LeadsBack d.forest d₀.forest)
    (hmay : ∀ x ∈ (d.audience.journal k).allEarliest, d.forest.CanRestore x)
    (hv : policy.verify = false) :
    (d.audience.Consents → (Revert.run policy k d).2.refusals = d.refusals) ∧
      ((Revert.run policy k d).2.refusals = d.refusals →
        (∃ report, (Revert.run policy k d).1 = .ok report) ∧
          (Revert.run policy k d).2.forest.Rewound policy.prune (d.audience.journal k) d.forest
            d₀.forest) := by
  have hr : schema.Regular := ⟨Schema.coherent_of_build hb, hn, hp⟩
  have hsound : ∀ e : Document τ, e.Reachable schema (fun _ _ => True) → e.forest.Agrees →
      e.forest.Sound True := by
    intro e he hagrees
    have hweak : e.forest.Sound False := he.sound hr fun hs => absurd hs id
    exact ⟨hweak.toTyped, fun _ => hweak.toTyped.agrees_iff.mp hagrees⟩
  have hd := h.reachable h₀
  have hf := hsound d hd ha
  refine ⟨fun hconsents => Revert.refusals_run_of_consents hconsents hf.shaped.aligned, ?_⟩
  exact Revert.run_leads_back (hsound d₀ h₀ ha₀) hf (h.grownFrom hr h₀) hk hlog hmay hv

/-- Three entries, one below the other, of which the lower two have changed places. -/
def Outline.swapped : Document Unit :=
  deep.after [.remove ⟨0⟩ entries 0, .remove ⟨1⟩ entries 0, .add ⟨0⟩ entries (.node ⟨2⟩),
    .add ⟨2⟩ entries (.node ⟨1⟩)]

/-- The outline with a log that has a record of each entry, the lowest one first. -/
def Outline.turned : Document Unit :=
  { swapped with audience := { swapped.audience with journals := [{ records :=
    [(⟨2⟩, [⟨⟨2⟩, entries, .list [], false⟩]),
      (⟨1⟩, [⟨⟨1⟩, entries, .list [.node ⟨2⟩], true⟩]),
      (⟨0⟩, [⟨⟨0⟩, entries, .list [.node ⟨1⟩], true⟩])] }] } }

theorem Outline.agrees_of_reachable {d : Document Unit}
    (h : d.Reachable Outline.schema fun _ _ => True) : d.forest.Agrees := by
  have hf := (h.sound_of_owning Outline.build_types (by decide) (by decide) (by decide)).1
  exact hf.toTyped.agrees_iff.mpr (hf.linked trivial)

theorem Outline.deep_reachable : deep.Reachable Outline.schema fun _ _ => True :=
  (Document.Becomes.after .start _).reachable (blank_reachable _)

/-- The two entries change places once more. -/
theorem Document.Becomes.run_rewinds_turned :
    let policy : Policy := { verify := false }
    let d' := (Revert.run policy 0 Outline.turned).2
    (∃ report, (Revert.run policy 0 Outline.turned).1 = .ok report) ∧
      d'.forest.place? ⟨1⟩ = some ⟨⟨0⟩, Outline.entries⟩ ∧
      d'.forest.place? ⟨2⟩ = some ⟨⟨1⟩, Outline.entries⟩ := by
  intro policy d'
  have hbecomes : Outline.deep.Becomes Outline.turned :=
    .other Outline.swapped Outline.turned (.after .start _) rfl rfl
  have hlog : (Outline.turned.audience.journal 0).LeadsBack Outline.turned.forest
      Outline.deep.forest := by decide +kernel
  have hmay : ∀ x ∈ (Outline.turned.audience.journal 0).allEarliest,
      Outline.turned.forest.CanRestore x := by decide +kernel
  have hv : policy.verify = false := rfl
  have hconsents : Outline.turned.audience.Consents := Audience.consents_of_seats_eq_nil rfl
  obtain ⟨hquiet, hrewinds⟩ := Document.Becomes.run_rewinds Outline.build_types
    (by decide) (by decide) Outline.deep_reachable hbecomes
    (Outline.agrees_of_reachable Outline.deep_reachable)
    (Outline.agrees_of_reachable (hbecomes.reachable Outline.deep_reachable)) (by decide +kernel)
    hlog hmay hv
  obtain ⟨hok, hrewound⟩ := hrewinds (hquiet hconsents)
  have hplaces : ∀ n place, Outline.deep.forest.place? n = some place →
      d'.forest.place? n = some place := by
    intro n place hplace
    rw [hrewound.places n ?_ (Forest.contains_of_place hplace), hplace]
    rintro ⟨hnone, -⟩
    rw [hplace] at hnone
    exact absurd hnone (by simp)
  exact ⟨hok, hplaces _ _ rfl, hplaces _ _ rfl⟩

/-- An entry that sat nowhere is put into a newer entry, of which the log has no record. Nothing is
reverted, and it stays there. -/
theorem Outline.adopted_stays :
    let d₀ := Outline.blank.after [.create "Entry"]
    let d := d₀.after [.create "Entry", .add ⟨2⟩ Outline.entries (.node ⟨1⟩)]
    let policy : Policy := { verify := false }
    let j := d.audience.journal 0
    (d₀.Reachable Outline.schema (fun _ _ => True) ∧ d₀.Becomes d ∧ d₀.forest.Agrees ∧
        d.forest.Agrees ∧ j.LeadsBack d.forest d₀.forest ∧ d.audience.Consents ∧
        (∀ x ∈ j.allEarliest, d.forest.CanRestore x)) ∧
      (∃ report, (Revert.run policy 0 d).1 = .ok report) ∧ d₀.forest.contains ⟨1⟩ = true ∧
      (Revert.run policy 0 d).2.forest.place? ⟨1⟩ ≠ d₀.forest.place? ⟨1⟩ := by
  intro d₀ d policy j
  have hreach : d₀.Reachable Outline.schema fun _ _ => True :=
    (Document.Becomes.after .start _).reachable (Outline.blank_reachable _)
  have hbecomes : d₀.Becomes d := .after .start _
  have hseats : d.audience.seats = [] := rfl
  refine ⟨⟨hreach, hbecomes, Outline.agrees_of_reachable hreach,
    Outline.agrees_of_reachable (hbecomes.reachable hreach), by decide +kernel, fun o x ho => ?_,
    by decide +kernel⟩, toOption_isSome_iff.mp (by decide +kernel), by decide +kernel,
    by decide +kernel⟩
  rw [Audience.member?, hseats] at ho
  exact absurd ho (by simp)

end TrackedGraph
