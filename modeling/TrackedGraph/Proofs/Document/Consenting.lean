/-
Audiences that consent.

Where no observer vetoes anything and no recorder minds read-only properties, nobody refuses what
an edit announces (`Document.unison_unopposed`), whatever the edit is and however it ends
(`Edit.refusals_of_consents`). A recorder could still refuse a notice that it cannot read, but
edits announce none (`Edit.Alike`).
-/
import TrackedGraph.Proofs.Document.Alike
import TrackedGraph.Proofs.Document.Unrefused
import TrackedGraph.Proofs.Recording.Following

set_option autoImplicit false

namespace TrackedGraph

variable {τ α : Type} {d : Document τ} {f : Forest}

/-- The member accepts every change that can be made: an observer accepts all, and a recorder minds
no read-only property. -/
def Member.Consents : Member τ → Prop
  | .recorder _ strict => strict = false
  | .observer x => ∀ f N memory, (x.judge f N memory).1 = .ok ()

/-- **Nobody in the audience vetoes anything.** -/
def Audience.Consents (a : Audience τ) : Prop :=
  ∀ o x, a.member? o = some x → x.Consents

theorem Audience.Consents.congr {a b : Audience τ} (h : a.Consents)
    (hm : ∀ o, b.member? o = a.member? o) : b.Consents :=
  fun o x ho => h o x ((hm o).symm.trans ho)

/-- Where nobody listens, nobody vetoes. -/
theorem Audience.consents_of_seats_eq_nil {a : Audience τ} (h : a.seats = []) : a.Consents := by
  intro o x ho
  rw [Audience.member?, h] at ho
  exact absurd ho (by simp)

section consents

variable {a : Audience τ} {N : Notice} (hf : f.Aligned)
  (hbefore : f.Ownable N.node N.property N.before) (hafter : f.Ownable N.node N.property N.after)

include hf hbefore hafter

theorem Audience.Consents.askAll (h : a.Consents) (os : List ObserverId) :
    (askAll f N os a).1 = .ok () := by
  induction os generalizing a with
  | nil => rfl
  | cons o os ih =>
    unfold Audience.askAll
    cases ho : a.member? o with
    | none => exact ih h
    | some x =>
      have hmembers : (ask f N x a).2.Consents := h.congr fun _ => by rw [ask_memory]; rfl
      have hasked : (ask f N x a).1 = .ok () := by
        have hx := h o x ho
        cases x with
        | recorder k strict =>
          obtain rfl : strict = false := hx
          obtain ⟨q, hq⟩ := hf.exists_plan hbefore hafter
          simp only [ask, hq]
          rfl
        | observer x => exact hx f N a.memory
      dsimp only
      rcases hask : ask f N x a with ⟨_ | _, a'⟩ <;> rw [hask] at hasked hmembers
      · exact absurd hasked (by simp)
      · exact ih hmembers

end consents

/-- The document, while nobody has left or joined its audience, and nobody has refused. -/
def Document.Unopposed (a : Audience τ) (k : Nat) (d e : Document τ) : Prop :=
  e = d ∧ (∀ o, d.audience.member? o = a.member? o) ∧ d.refusals = k

/-- **Where all consent**, nobody refuses a notice whose values can be read. -/
theorem Document.unison_unopposed {a : Audience τ} (ha : a.Consents) (k : Nat) :
    Document.Unison (Unopposed a k) where
  forest := by
    rintro d _ ⟨rfl, -⟩
    rfl
  refusals := by
    rintro d _ ⟨rfl, -⟩
    rfl
  poll := by
    rintro _ d ⟨rfl, hm, hquiet⟩ hf N hbefore hafter
    have hconsents := ha.congr hm
    have hok : (Edit.poll N d).1 = .ok () :=
      (poll_apply N d).1.trans (hconsents.askAll hf hbefore hafter _)
    exact ⟨rfl, rfl, fun o => member?_poll.trans (hm o),
      (Edit.Unrefused.poll N d () hok).trans hquiet⟩
  announce := by
    rintro _ d ⟨rfl, hm, hquiet⟩ hf N hbefore hafter
    have hconsents := ha.congr hm
    have hok : (Edit.announce N d).1 = .ok () :=
      (announce_apply N d).1.trans
        (Audience.fst_announce.trans (hconsents.askAll hf hbefore hafter _))
    exact ⟨rfl, rfl, fun o => member?_announced.trans (hm o),
      (Edit.Unrefused.announce N d () hok).trans hquiet⟩
  write := by
    rintro _ d ⟨rfl, h⟩ f
    exact ⟨rfl, h⟩
  advance := by
    rintro _ d ⟨rfl, h⟩
    exact ⟨rfl, h⟩
  count := by
    rintro d _ ⟨rfl, -⟩ d₁ _ ⟨rfl, h⟩ i _ rfl
    exact ⟨rfl, h⟩

/-- **Where all consent, an edit is refused nothing**, however it ends. -/
theorem Edit.refusals_of_consents {x : Edit τ α} (ha : d.audience.Consents) (hf : d.forest.Aligned)
    (hx : ∀ {R : Document τ → Document τ → Prop}, Document.Unison R → Edit.Alike R d.forest x) :
    (x d).2.refusals = d.refusals := by
  obtain ⟨⟨-, -, -, hquiet⟩, -⟩ :=
    hx (Document.unison_unopposed ha d.refusals) d d ⟨rfl, fun _ => rfl, rfl⟩ hf (.refl _)
  exact hquiet

end TrackedGraph
