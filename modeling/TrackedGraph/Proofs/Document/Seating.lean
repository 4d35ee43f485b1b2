/-
Who hears what on a seat that is given away.

Seats are given away again once they are left, and a subscription names a seat and not
whoever sits there. So what a newcomer hears from the start is what was subscribed to on
behalf of its seat while nobody sat there: a seat can be booked. Leaving a seat drops what it
is subscribed to, and members of the audience change their own subscriptions only, so the
bookings of an empty seat are made and given up by calls from outside alone
(`Deed.booked`), and the calls tell whether a newcomer starts with nothing.

A newcomer that does start with nothing takes no part until a call from outside subscribes
it. That is shown of two runs: whoever takes the seat, everything else goes the same
(`Audience.SameBeside`).
-/
import TrackedGraph.Proofs.Recording.Undoing
import TrackedGraph.Proofs.Document.Respecting

set_option autoImplicit false

namespace TrackedGraph

variable {τ : Type} {a b : Audience τ} {d e d₀ : Document τ} {o o' : ObserverId} {n : NodeId}
  {f : Forest} {N : Notice} {x y : Member τ}

/-! ## What is done from outside -/

/-- What is done to a document from outside: an edit, or a call about its audience. -/
inductive Deed (τ : Type) where
  | edit (m : Mutation)
  | seat (x : Member τ)
  | unseat (o : ObserverId)
  | subscribe (o : ObserverId) (n : NodeId)
  | unsubscribe (o : ObserverId) (n : NodeId)

namespace Deed

/-- What comes back. -/
inductive Outcome (τ : Type) where
  | edited (r : Except Fault Mutation.Outcome)
  | seated (o : ObserverId)
  | unseated (x : Option (Member τ))
  | subscribed (isNew : Bool)
  | unsubscribed (wasThere : Bool)

/-- Changes the audience of a document. -/
def onAudience {α : Type} (g : Audience τ → α × Audience τ) (d : Document τ) : α × Document τ :=
  ((g d.audience).1, { d with audience := (g d.audience).2 })

/-- Does it. -/
def run : Deed τ → Document τ → Outcome τ × Document τ
  | .edit m, d => (.edited (m.run d).1, (m.run d).2)
  | .seat x, d => onAudience (fun a => (.seated (a.add x).1, (a.add x).2)) d
  | .unseat o, d => onAudience (fun a => (.unseated (a.remove o).1, (a.remove o).2)) d
  | .subscribe o n, d => onAudience (fun a => (.subscribed (a.subscriptions.subscribe o n).1,
      { a with subscriptions := (a.subscriptions.subscribe o n).2 })) d
  | .unsubscribe o n, d => onAudience (fun a => (.unsubscribed (a.subscriptions.unsubscribe o n).1,
      { a with subscriptions := (a.subscriptions.unsubscribe o n).2 })) d

/-- Does one after another. -/
def runAll : List (Deed τ) → Document τ → List (Outcome τ) × Document τ
  | [], d => ([], d)
  | deed :: deeds, d =>
    let (outcome, d) := deed.run d
    let (outcomes, d) := runAll deeds d
    (outcome :: outcomes, d)

/-- Whether a node is booked on a seat once a deed is done, given whether it was before. A seat
that is left gives its bookings up, and one that nobody ever had cannot be left. -/
def books (o : ObserverId) (n : NodeId) (d : Document τ) (before : Bool) : Deed τ → Bool
  | .subscribe o' n' => before || decide (o = o' ∧ n = n')
  | .unsubscribe o' n' => before && decide (¬ (o = o' ∧ n = n'))
  | .unseat o' => before && decide (¬ (o = o' ∧ o.index < d.audience.seats.length))
  | _ => before

/-- Whether a node is booked on a seat once all deeds are done. -/
def booked (o : ObserverId) (n : NodeId) : Bool → List (Deed τ) → Document τ → Bool
  | before, [], _ => before
  | before, deed :: deeds, d => booked o n (deed.books o n d before) deeds (deed.run d).2

/-! ## Bookings -/

/-- If nobody sits on the seat, then it is subscribed to the node exactly if that is booked. -/
def Tallies (o : ObserverId) (n : NodeId) (before : Bool) (a : Audience τ) : Prop :=
  a.member? o = none → a.subscriptions.has o n = before

variable {before : Bool}

/-- Nobody subscribes an empty seat during an announcement. -/
theorem Tallies.edit (h : Tallies o n before d.audience) (m : Mutation) :
    Tallies o n before (m.run d).2.audience := by
  have hpoll : ∀ (a : Audience τ) f N, Tallies o n before a →
      Tallies o n before (a.poll f N).2 := by
    intro a f N ha hnone
    unfold Audience.poll at hnone ⊢
    rw [Audience.askAll_memory] at hnone ⊢
    exact ha hnone
  have hannounce : ∀ (a : Audience τ) f N,
      Tallies o n before a → Tallies o n before (a.announce f N).2 := by
    intro a f N ha hnone
    rw [Audience.member?_announce] at hnone
    rw [Audience.announce_has_of_none hnone]
    exact ha hnone
  exact m.keeps_audience hpoll hannounce d h

theorem Tallies.seat (h : Tallies o n before a) : Tallies o n before (a.add x).2 := by
  intro hnone
  have hne : o ≠ (a.add x).1 := by
    rintro rfl
    rw [Audience.member?_add] at hnone
    exact absurd hnone (by simp)
  rw [Audience.member?_add_of_ne hne] at hnone
  rw [Audience.subscriptions_add]
  exact h hnone

theorem Tallies.unseat (h : Tallies o n before d.audience) :
    Tallies o n ((Deed.unseat o').books o n d before) (d.audience.remove o').2 := by
  intro hnone
  rw [Audience.member?_remove] at hnone
  unfold Audience.remove books
  by_cases heq : o = o'
  · subst heq
    by_cases hlt : o.index < d.audience.seats.length
    · -- The seat is left, and what it was subscribed to is dropped.
      have hdrop : (d.audience.subscriptions.drop o).2.has o n ≠ true := by
        rw [ne_eq, Subscriptions.has_drop]
        exact fun hc => hc.1 rfl
      simpa [hlt] using hdrop
    · have hvacant : d.audience.member? o = none := by
        unfold Audience.member?
        rw [List.getElem?_eq_none (Nat.le_of_not_lt hlt)]
        rfl
      simpa [hlt] using h hvacant
  · rw [if_neg heq] at hnone
    have hkept : (d.audience.subscriptions.drop o').2.has o n =
        d.audience.subscriptions.has o n := by
      rw [Bool.eq_iff_iff, Subscriptions.has_drop]
      exact and_iff_right heq
    have hbefore := h hnone
    by_cases hlt : o'.index < d.audience.seats.length
    · simpa [heq, hlt, hkept] using hbefore
    · simpa [heq, hlt] using hbefore

/-- **A deed keeps the tally.** -/
theorem Tallies.run (h : Tallies o n before d.audience) (deed : Deed τ) :
    Tallies o n (deed.books o n d before) (deed.run d).2.audience := by
  cases deed with
  | edit m => exact h.edit m
  | seat x => exact h.seat
  | unseat o' => exact h.unseat
  | subscribe o' n' =>
    intro hnone
    rw [Bool.eq_iff_iff]
    refine Subscriptions.has_subscribe.trans ?_
    rw [h hnone]
    simp [books]
  | unsubscribe o' n' =>
    intro hnone
    rw [Bool.eq_iff_iff]
    refine Subscriptions.has_unsubscribe.trans ?_
    rw [h hnone]
    simp only [books, Bool.and_eq_true, decide_eq_true_eq]

theorem Tallies.runAll (h : Tallies o n before d.audience) (deeds : List (Deed τ)) :
    Tallies o n (booked o n before deeds d) (Deed.runAll deeds d).2.audience := by
  induction deeds generalizing d before with
  | nil => exact h
  | cons deed deeds ih => exact ih (h.run deed)

end Deed

/-! ## Whoever sits on a seat that hears nothing -/

/-- The audiences differ in who sits on the seat at most, which is taken in both and subscribed
to nothing. -/
structure Audience.SameBeside (o : ObserverId) (a b : Audience τ) : Prop where
  /-- The same seats are free, so the same seat is given away next. -/
  free : b.seats.map Option.isNone = a.seats.map Option.isNone
  taken : a.isSeated o = true
  others : ∀ o', o' ≠ o → b.member? o' = a.member? o'
  subscriptions : b.subscriptions = a.subscriptions
  journals : b.journals = a.journals
  memory : b.memory = a.memory
  deaf : ∀ n, a.subscriptions.has o n = false

namespace Audience.SameBeside

variable {os : List ObserverId}

theorem ask (h : a.SameBeside o b) : (Audience.ask f N x b).1 = (Audience.ask f N x a).1 ∧
    (Audience.ask f N x a).2.SameBeside o (Audience.ask f N x b).2 := by
  cases x with
  | recorder k strict => exact ⟨rfl, h⟩
  | observer obs =>
    unfold Audience.ask
    dsimp only
    rw [h.memory]
    exact ⟨rfl, h.free, h.taken, h.others, h.subscriptions, h.journals, rfl, h.deaf⟩

/-- Telling somebody on another seat. -/
theorem tell (h : a.SameBeside o b) (ho : o' ≠ o) :
    (Audience.tell f N o' x a).SameBeside o (Audience.tell f N o' x b) := by
  have hdeaf : ∀ n, (Audience.tell f N o' x a).subscriptions.has o n = false := by
    intro n
    rw [Audience.has_tell_of_ne (Ne.symm ho)]
    exact h.deaf n
  have htaken : (Audience.tell f N o' x a).isSeated o = true := by
    unfold Audience.isSeated
    rw [Audience.member?_tell]
    exact h.taken
  have hfree : (Audience.tell f N o' x b).seats.map Option.isNone =
      (Audience.tell f N o' x a).seats.map Option.isNone := by
    rw [Audience.seats_tell, Audience.seats_tell]
    exact h.free
  have hothers : ∀ o'', o'' ≠ o → (Audience.tell f N o' x b).member? o'' =
      (Audience.tell f N o' x a).member? o'' := by
    intro o'' hne
    rw [Audience.member?_tell, Audience.member?_tell]
    exact h.others o'' hne
  cases x with
  | recorder k strict =>
    refine ⟨hfree, htaken, hothers, ?_, ?_, h.memory, hdeaf⟩
    · simp only [Audience.tell, Audience.journal, h.subscriptions, h.journals]
    · simp only [Audience.tell, Audience.journal, Audience.setJournal, h.journals]
  | observer obs =>
    refine ⟨hfree, htaken, hothers, ?_, h.journals, ?_, hdeaf⟩
    · simp only [Audience.tell, h.subscriptions, h.memory]
    · simp only [Audience.tell, h.subscriptions, h.memory]

theorem not_mem_observers (h : a.SameBeside o b) (n : NodeId) :
    o ∉ a.subscriptions.observers n := by
  rw [Subscriptions.mem_observers, h.deaf n]
  simp

/-- Nobody on the seat is asked or told. -/
theorem member? (h : a.SameBeside o b) (ho : o ∉ os) : ∀ o' ∈ os, b.member? o' = a.member? o' :=
  fun o' ho' => h.others o' fun heq => ho (heq ▸ ho')

theorem announce (h : a.SameBeside o b) : (b.announce f N).1 = (a.announce f N).1 ∧
    (a.announce f N).2.SameBeside o (b.announce f N).2 := by
  have ho := h.not_mem_observers N.node
  exact Audience.announce_congr (fun _ _ h => h.member? ho) (fun _ _ h _ => h.ask)
    (fun _ _ h _ ho' _ => h.tell fun heq => ho (heq ▸ ho')) rfl (by rw [h.subscriptions]) h

/-! ### Calls about the audience -/

/-- A newcomer is given the same seat, and it is not the one in question, which is taken. -/
theorem seat (h : a.SameBeside o b) : (b.add x).1 = (a.add x).1 ∧
    (a.add x).2.SameBeside o (b.add x).2 := by
  have hfirst : b.seats.findIdx? Option.isNone = a.seats.findIdx? Option.isNone := by
    have hmap := congrArg (List.findIdx? id) h.free
    rwa [List.findIdx?_map, List.findIdx?_map] at hmap
  have hlength : b.seats.length = a.seats.length := by
    simpa using congrArg List.length h.free
  have hid : (b.add x).1 = (a.add x).1 := by
    unfold Audience.add
    rw [hfirst, hlength]
    split <;> rfl
  -- The seat in question is taken, so it is not the one that is given.
  have hne : o ≠ (a.add x).1 := by
    intro heq
    have htaken := h.taken
    rw [Audience.isSeated, heq, Audience.member?_add_free] at htaken
    exact absurd htaken (by simp)
  refine ⟨hid, ?_, ?_, fun o' ho' => ?_, ?_, ?_, ?_, fun n => ?_⟩
  · unfold Audience.add
    rw [hfirst]
    split
    · simp only [List.map_set, h.free]
    · simp only [List.map_append, h.free]
  · rw [Audience.isSeated, Audience.member?_add_of_ne hne]
    exact h.taken
  · by_cases heq : o' = (a.add x).1
    · rw [heq, Audience.member?_add, ← hid, Audience.member?_add]
    · rw [Audience.member?_add_of_ne heq, Audience.member?_add_of_ne (by rwa [hid]),
        h.others o' ho']
  · rw [Audience.subscriptions_add, Audience.subscriptions_add, h.subscriptions]
  · rw [Audience.journals_add, Audience.journals_add, h.journals]
  · rw [Audience.memory_add, Audience.memory_add, h.memory]
  · rw [Audience.subscriptions_add]
    exact h.deaf n

theorem unseat (h : a.SameBeside o b) (ho : o' ≠ o) : (b.remove o').1 = (a.remove o').1 ∧
    (a.remove o').2.SameBeside o (b.remove o').2 := by
  have hlength : b.seats.length = a.seats.length := by
    simpa using congrArg List.length h.free
  have hothers : ∀ o'', o'' ≠ o → (b.remove o').2.member? o'' = (a.remove o').2.member? o'' := by
    intro o'' hne
    rw [Audience.member?_remove, Audience.member?_remove, h.others o'' hne]
  have htaken : (a.remove o').2.isSeated o = true := by
    rw [Audience.isSeated, Audience.member?_remove, if_neg (Ne.symm ho)]
    exact h.taken
  unfold Audience.remove at hothers htaken ⊢
  rw [hlength] at hothers ⊢
  by_cases hlt : o'.index < a.seats.length
  · simp only [if_pos hlt] at hothers htaken ⊢
    refine ⟨h.others o' ho, ?_, htaken, hothers, ?_, h.journals, h.memory, fun n => ?_⟩
    · simp only [List.map_set, h.free]
    · rw [h.subscriptions]
    · rw [Bool.eq_false_iff, ne_eq, Subscriptions.has_drop, h.deaf n]
      simp
  · simp only [if_neg hlt] at hothers htaken ⊢
    exact ⟨trivial, h⟩

end Audience.SameBeside

/-- The documents differ in who sits on the seat at most, which hears nothing. -/
def Document.SameBeside (o : ObserverId) (d e : Document τ) : Prop :=
  ∃ b, e = { d with audience := b } ∧ d.audience.SameBeside o b

/-- **No edit tells who sits there.** -/
theorem Document.SameBeside.blind (o : ObserverId) :
    Blind (SameBeside o : Document τ → Document τ → Prop) := by
  refine .of_audience (fun _ _ h => h.memory) (fun _ _ h _ _ => by rw [h.subscriptions]) ?_
    fun a b h f N => h.announce
  intro a b h f N
  unfold Audience.poll
  rw [h.subscriptions]
  exact Audience.askAll_congr (fun _ _ hs => hs.member? (h.not_mem_observers N.node))
    (fun _ _ hs _ => hs.ask) h

namespace Deed

/-- What is done from outside goes the same, unless it subscribes the seat or empties it. -/
theorem run_beside (h : d.SameBeside o e) (deed : Deed τ) (hsub : ∀ n, deed ≠ .subscribe o n)
    (hun : deed ≠ .unseat o) :
    (deed.run e).1 = (deed.run d).1 ∧ (deed.run d).2.SameBeside o (deed.run e).2 := by
  cases deed with
  | edit m =>
    obtain ⟨hres, hsame⟩ := Edit.Respects.mutation (Document.SameBeside.blind o) m d e h
    exact ⟨congrArg Outcome.edited hres, hsame⟩
  | seat x =>
    obtain ⟨b, rfl, hb⟩ := h
    obtain ⟨hid, hsame⟩ := hb.seat (x := x)
    exact ⟨congrArg Outcome.seated hid, _, rfl, hsame⟩
  | unseat o' =>
    obtain ⟨b, rfl, hb⟩ := h
    obtain ⟨hmember, hsame⟩ := hb.unseat fun heq => hun (congrArg Deed.unseat heq)
    exact ⟨congrArg Outcome.unseated hmember, _, rfl, hsame⟩
  | subscribe o' n =>
    obtain ⟨b, rfl, hb⟩ := h
    have hne : o ≠ o' := fun heq => hsub n (by rw [heq])
    refine ⟨?_, _, rfl, hb.free, hb.taken, hb.others, ?_, hb.journals, hb.memory, fun n' => ?_⟩
    · simp only [run, onAudience, hb.subscriptions]
    · simp only [run, onAudience, hb.subscriptions]
    · rw [Bool.eq_false_iff, ne_eq]
      refine Subscriptions.has_subscribe.not.mpr ?_
      rw [hb.deaf n']
      simp [hne]
  | unsubscribe o' n =>
    obtain ⟨b, rfl, hb⟩ := h
    refine ⟨?_, _, rfl, hb.free, hb.taken, hb.others, ?_, hb.journals, hb.memory, fun n' => ?_⟩
    · simp only [run, onAudience, hb.subscriptions]
    · simp only [run, onAudience, hb.subscriptions]
    · rw [Bool.eq_false_iff, ne_eq]
      refine Subscriptions.has_unsubscribe.not.mpr ?_
      rw [hb.deaf n']
      simp

theorem runAll_beside (h : d.SameBeside o e) (deeds : List (Deed τ))
    (hsub : ∀ n, .subscribe o n ∉ deeds) (hun : .unseat o ∉ deeds) :
    (runAll deeds e).1 = (runAll deeds d).1 ∧
      (runAll deeds d).2.SameBeside o (runAll deeds e).2 := by
  induction deeds generalizing d e with
  | nil => exact ⟨rfl, h⟩
  | cons deed deeds ih =>
    simp only [List.mem_cons, not_or] at hsub hun
    obtain ⟨hres, hsame⟩ :=
      run_beside h deed (fun n => Ne.symm (hsub n).1) (Ne.symm hun.1)
    obtain ⟨hress, hsames⟩ := ih hsame (fun n => (hsub n).2) hun.2
    exact ⟨congrArg₂ List.cons hres hress, hsames⟩

/-- Two newcomers on a seat that nothing is booked on. -/
theorem seat_beside (h : ∀ n, d.audience.subscriptions.has (d.audience.add x).1 n = false) :
    ((Deed.seat x).run d).2.SameBeside (d.audience.add x).1 ((Deed.seat y).run d).2 := by
  have hid : (d.audience.add y).1 = (d.audience.add x).1 := by
    unfold Audience.add
    split <;> rfl
  refine ⟨(d.audience.add y).2, rfl, ?_, ?_, fun o' hne => ?_, ?_, ?_, ?_, fun n => ?_⟩
  · show (d.audience.add y).2.seats.map Option.isNone = (d.audience.add x).2.seats.map Option.isNone
    unfold Audience.add
    split <;> simp
  · show (d.audience.add x).2.isSeated (d.audience.add x).1 = true
    rw [Audience.isSeated, Audience.member?_add]
    rfl
  · show (d.audience.add y).2.member? o' = (d.audience.add x).2.member? o'
    rw [Audience.member?_add_of_ne hne, Audience.member?_add_of_ne (by rwa [hid])]
  · exact Audience.subscriptions_add.trans Audience.subscriptions_add.symm
  · exact Audience.journals_add.trans Audience.journals_add.symm
  · exact Audience.memory_add.trans Audience.memory_add.symm
  · show (d.audience.add x).2.subscriptions.has (d.audience.add x).1 n = false
    rw [Audience.subscriptions_add]
    exact h n

/-- **What a newcomer hears from the start** is what is booked on the seat that it is given, in a
document that anything was done to from outside. If that is nothing, then whoever takes the seat
takes no part: until it is subscribed from outside, the rest goes the same for any two. -/
theorem newcomer_hears_bookings {schema : Schema} {rootType : String} {memory : τ}
    (hnew : Document.new schema rootType memory = .ok d₀) (deeds : List (Deed τ)) (x : Member τ) :
    let d := (runAll deeds d₀).2
    let o := (d.audience.add x).1
    (∀ n, (d.audience.add x).2.subscriptions.has o n = booked o n false deeds d₀) ∧
      ((∀ n, booked o n false deeds d₀ = false) → ∀ (y : Member τ) (later : List (Deed τ)),
        (∀ n, .subscribe o n ∉ later) → .unseat o ∉ later →
          (runAll later ((Deed.seat y).run d).2).1 = (runAll later ((Deed.seat x).run d).2).1 ∧
            (runAll later ((Deed.seat x).run d).2).2.SameBeside o
              (runAll later ((Deed.seat y).run d).2).2) := by
  intro d o
  have hhears : ∀ n, d.audience.subscriptions.has o n = booked o n false deeds d₀ := by
    intro n
    have hstart : Tallies o n false d₀.audience := by
      rw [Document.audience_new hnew]
      exact fun _ => rfl
    exact hstart.runAll deeds Audience.member?_add_free
  refine ⟨fun n => ?_, fun hnothing y later hsub hun => ?_⟩
  · rw [Audience.subscriptions_add]
    exact hhears n
  · exact runAll_beside (seat_beside fun n => (hhears n).trans (hnothing n)) later hsub hun

/-- A seat that was subscribed and left again has nothing booked on it. Pages are then created and
put below the first one whether the gate takes the seat or somebody who accepts everything. -/
theorem newcomer_hears_bookings_vacated :
    let deeds : List (Deed Nat) :=
      [.seat (.observer (.idle Nat "idle")), .subscribe ⟨0⟩ ⟨0⟩, .unseat ⟨0⟩]
    let later : List (Deed Nat) :=
      [.edit (.create "Page"), .edit (.create "Page"),
        .edit (.add ⟨0⟩ Notebook.pages (.node ⟨1⟩)), .edit (.add ⟨0⟩ Notebook.pages (.node ⟨2⟩))]
    let d := (runAll deeds (Notebook.blank 0)).2
    let gated := ((Deed.seat (.observer Notebook.gate)).run d).2
    let empty := ((Deed.seat (.observer (.idle Nat "idle"))).run d).2
    Document.new Notebook.schema "Page" 0 = .ok (Notebook.blank 0) ∧
      (d.audience.add (.observer Notebook.gate)).1 = ⟨0⟩ ∧
      (∀ n, booked ⟨0⟩ n false deeds (Notebook.blank 0) = false) ∧
      (∀ n, gated.audience.subscriptions.has ⟨0⟩ n = false) ∧
      (runAll later empty).1 = (runAll later gated).1 ∧
      (runAll later gated).2.SameBeside ⟨0⟩ (runAll later empty).2 := by
  intro deeds later d gated empty
  obtain ⟨hhears, hapart⟩ := newcomer_hears_bookings (Notebook.new_eq_blank 0) deeds
    (.observer Notebook.gate)
  have hnothing : ∀ n, booked ⟨0⟩ n false deeds (Notebook.blank 0) = false :=
    fun n => Bool.and_false _
  obtain ⟨hres, hsame⟩ := hapart hnothing (.observer (.idle Nat "idle")) later
    (fun n => by simp [later]) (by simp [later])
  exact ⟨rfl, rfl, hnothing, fun n => (hhears n).trans (hnothing n), hres, hsame⟩

/-- A seat can be booked before anybody ever had it. -/
example : booked ⟨0⟩ ⟨0⟩ false [.subscribe ⟨0⟩ ⟨0⟩] (Notebook.blank 0) = true := rfl

end Deed

end TrackedGraph
