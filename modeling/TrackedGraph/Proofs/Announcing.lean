/-
What goes on during an announcement.

An announcement is a series of calls on the members that are subscribed to the node when it
begins: everybody is asked, and if nobody refuses, everybody is told. So what an audience holds
afterwards comes of two folds over these members, one of what they do when they are asked
(`Member.judge`) and one of what they do when they are told (`Member.follow`, `Member.note`), and
`announce_rounds` says so. The members may change subscriptions of their own when they are told,
but the list is not read again.

A member may be off its seat while it is called, so that nobody else can call it. It has to be
back afterwards, also where it refuses; then nobody can tell the difference (`announceAway_eq`),
since no call looks at the seats.
-/
import TrackedGraph.Proofs.Subscriptions

set_option autoImplicit false

namespace TrackedGraph

variable {τ α : Type}

/-! ## Members -/

/-- What a member says of a change, and the memory after that. A recorder says whether it can plan
the change. -/
def Member.judge (f : Forest) (N : Notice) : Member τ → τ → Except Fault Unit × τ
  | .recorder _ strict, m => ((Tracking.plan strict f N).map fun _ => (), m)
  | .observer y, m => y.judge f N m

/-- What a member that is told wants to be changed of its subscriptions, and the memory after
that. A recorder follows the children that come and go. -/
def Member.follow (f : Forest) (N : Notice) (o : ObserverId) (hears : NodeId → Bool) :
    Member τ → τ → List SubscriptionChange × τ
  | .recorder _ strict, m =>
    (match Tracking.plan strict f N with
      | .ok p => Tracking.subscriptionChanges f p
      | .error _ => [], m)
  | .observer y, m => y.follow f o hears N m

/-- What a member that is told writes into the journals. -/
def Member.note (f : Forest) (N : Notice) : Member τ → List Journal → List Journal
  | .recorder k strict, js => js.set k (Tracking.carryOut strict f N (js[k]?.getD {})).2
  | .observer _, js => js

namespace Audience

variable {a b : Audience τ} {f : Forest} {N : Notice} {o : ObserverId} {os : List ObserverId}
  {n : NodeId} {x : Member τ}

/-! ## Audiences -/

/-- What may happen to an audience. -/
inductive Occasion (τ : Type) where
  | seat (x : Member τ)
  | unseat (o : ObserverId)
  | call (c : Subscriptions.Call)
  | poll (f : Forest) (N : Notice)
  | announce (f : Forest) (N : Notice)
  | addJournal (j : Journal)
  | setJournal (k : Nat) (j : Journal)
  | remember (memory : τ)

def meet (a : Audience τ) : Occasion τ → Audience τ
  | .seat x => (a.add x).2
  | .unseat o => (a.remove o).2
  | .call c => { a with subscriptions := c.make a.subscriptions }
  | .poll f N => (a.poll f N).2
  | .announce f N => (a.announce f N).2
  | .addJournal j => (a.addJournal j).2
  | .setJournal k j => a.setJournal k j
  | .remember memory => { a with memory }

/-- The audience after some occasions, to begin with nobody. -/
def assembled (memory : τ) (occasions : List (Occasion τ)) : Audience τ :=
  occasions.foldl meet { memory }

theorem nodup_meet (h : a.subscriptions.pairs.Nodup) (occasion : Occasion τ) :
    (a.meet occasion).subscriptions.pairs.Nodup := by
  cases occasion with
  | seat x =>
    show (a.add x).2.subscriptions.pairs.Nodup
    unfold add
    cases a.seats.findIdx? Option.isNone <;> exact h
  | unseat o =>
    show (a.remove o).2.subscriptions.pairs.Nodup
    unfold remove
    by_cases ho : o.index < a.seats.length
    · rw [if_pos ho]
      exact h.filter _
    · rw [if_neg ho]
      exact h
  | call c => exact Subscriptions.nodup_make h
  | poll f N =>
    show (askAll f N _ a).2.subscriptions.pairs.Nodup
    -- To be asked changes no subscription.
    rw [askAll_memory]
    exact h
  | announce f N => exact nodup_announce h
  | addJournal j => exact h
  | setJournal k j => exact h
  | remember memory => exact h

theorem nodup_assembled (memory : τ) (occasions : List (Occasion τ)) :
    (assembled memory occasions).subscriptions.pairs.Nodup := by
  unfold assembled
  have hnone : ({ memory } : Audience τ).subscriptions.pairs.Nodup := List.nodup_nil
  generalize ({ memory } : Audience τ) = a at hnone
  induction occasions generalizing a with
  | nil => exact hnone
  | cons occasion occasions ih => exact ih _ (nodup_meet hnone occasion)

/-! ## Who is called -/

/-- Those of some observers that take a seat. -/
def membersOn (a : Audience τ) (os : List ObserverId) : List (ObserverId × Member τ) :=
  os.filterMap fun o => (a.member? o).map (o, ·)

/-- The members who are subscribed to a node, in the order of their subscriptions. -/
def concerned (a : Audience τ) (n : NodeId) : List (ObserverId × Member τ) :=
  a.membersOn (a.subscriptions.observers n)

theorem membersOn_congr (h : b.seats = a.seats) : b.membersOn os = a.membersOn os := by
  unfold membersOn member?
  rw [h]

theorem membersOn_cons : a.membersOn (o :: os) =
    ((a.member? o).map (o, ·)).toList ++ a.membersOn os := by
  unfold membersOn
  rw [List.filterMap_cons]
  cases a.member? o <;> rfl

theorem mem_membersOn : (o, x) ∈ a.membersOn os ↔ o ∈ os ∧ a.member? o = some x := by
  unfold membersOn
  simp only [List.mem_filterMap, Option.map_eq_some_iff, Prod.mk.injEq]
  constructor
  · rintro ⟨o', ho', y, hy, rfl, rfl⟩
    exact ⟨ho', hy⟩
  · rintro ⟨ho, hx⟩
    exact ⟨o, ho, x, hx, rfl, rfl⟩

theorem map_fst_membersOn : (a.membersOn os).map (·.1) = os.filter a.isSeated := by
  induction os with
  | nil => rfl
  | cons o os ih =>
    rw [membersOn_cons, List.map_append, ih, List.filter_cons]
    unfold isSeated
    cases a.member? o <;> rfl

/-! ## One member -/

variable {ms rest : List (ObserverId × Member τ)} {memory : τ}

theorem ask_eq : ask f N x a =
    ((x.judge f N a.memory).1, { a with memory := (x.judge f N a.memory).2 }) := by
  cases x <;> rfl

theorem tell_eq : tell f N o x a = { a with
    subscriptions :=
      a.subscriptions.changeAll o (x.follow f N o (a.subscriptions.has o) a.memory).1
    journals := x.note f N a.journals
    memory := (x.follow f N o (a.subscriptions.has o) a.memory).2 } := by
  cases x with
  | recorder k strict =>
    dsimp only [tell, Member.follow, Member.note, Tracking.carryOut, journal, setJournal]
    cases Tracking.plan strict f N <;> rfl
  | observer y => rfl

/-! ## One after the other -/

/-- The memory after members were asked in order. -/
def memoryAsked (f : Forest) (N : Notice) (ms : List (ObserverId × Member τ)) (memory : τ) : τ :=
  ms.foldl (fun m c => (c.2.judge f N m).2) memory

/-- Each of the members accepts, when those before it were asked. -/
def Accept (f : Forest) (N : Notice) (ms : List (ObserverId × Member τ)) (memory : τ) : Prop :=
  ∀ before o x after, ms = before ++ (o, x) :: after →
    (x.judge f N (memoryAsked f N before memory)).1 = .ok ()

/-- The subscriptions and the memory after members were told in order. Each changes its own
subscriptions. -/
def heldTold (f : Forest) (N : Notice) (ms : List (ObserverId × Member τ))
    (held : Subscriptions × τ) : Subscriptions × τ :=
  ms.foldl (fun held c =>
    let (changes, memory) := c.2.follow f N c.1 (held.1.has c.1) held.2
    (held.1.changeAll c.1 changes, memory)) held

/-- The journals after members were told in order. -/
def journalsTold (f : Forest) (N : Notice) (ms : List (ObserverId × Member τ))
    (journals : List Journal) : List Journal :=
  ms.foldl (fun js c => c.2.note f N js) journals

theorem accept_nil : Accept f N [] memory := by
  intro before o x after h
  exact absurd h (by simp)

theorem accept_cons : Accept f N ((o, x) :: rest) memory ↔
    (x.judge f N memory).1 = .ok () ∧ Accept f N rest (x.judge f N memory).2 := by
  constructor
  · intro h
    exact ⟨h [] o x rest rfl, fun before o' y after heq =>
      h ((o, x) :: before) o' y after (congrArg _ heq)⟩
  · rintro ⟨hx, hrest⟩ before o' y after heq
    cases before with
    | nil =>
      obtain ⟨hfirst, rfl⟩ := List.cons.inj heq
      obtain ⟨rfl, rfl⟩ := Prod.mk.inj hfirst
      exact hx
    | cons c before =>
      obtain ⟨rfl, hlater⟩ := List.cons.inj heq
      exact hrest before o' y after hlater

/-- **Asking**: everybody in turn, or up to the first who refuses. -/
theorem askAll_rounds (os : List ObserverId) :
    (askAll f N os a).2 = { a with memory := (askAll f N os a).2.memory } ∧
    ((askAll f N os a).1 = .ok () ∧ Accept f N (a.membersOn os) a.memory ∧
        (askAll f N os a).2.memory = memoryAsked f N (a.membersOn os) a.memory ∨
      ∃ accepting o x rest fault, a.membersOn os = accepting ++ (o, x) :: rest ∧
        Accept f N accepting a.memory ∧
        (x.judge f N (memoryAsked f N accepting a.memory)).1 = .error fault ∧
        (askAll f N os a).1 = .error fault ∧
        (askAll f N os a).2.memory = memoryAsked f N (accepting ++ [(o, x)]) a.memory) := by
  refine ⟨askAll_memory, ?_⟩
  induction os generalizing a with
  | nil => exact .inl ⟨rfl, accept_nil, rfl⟩
  | cons o os ih =>
    rw [membersOn_cons]
    cases hx : a.member? o with
    | none =>
      have hskip : askAll f N (o :: os) a = askAll f N os a := by simp only [askAll, hx]
      rw [hskip]
      exact ih
    | some x =>
      have hask := ask_eq (f := f) (N := N) (x := x) (a := a)
      cases hverdict : (x.judge f N a.memory).1 with
      | error fault =>
        -- The member refuses, and the round is over.
        rw [hverdict] at hask
        have hover : askAll f N (o :: os) a =
            (.error fault, { a with memory := (x.judge f N a.memory).2 }) := by
          simp only [askAll, hx, hask]
        rw [hover]
        exact .inr ⟨[], o, x, a.membersOn os, fault, rfl, accept_nil, hverdict, rfl, rfl⟩
      | ok _ =>
        -- The member accepts. That moves nobody, so the others come as they would have come.
        rw [hverdict] at hask
        have hon : askAll f N (o :: os) a =
            askAll f N os { a with memory := (x.judge f N a.memory).2 } := by
          simp only [askAll, hx, hask]
        rw [hon]
        rcases ih (a := { a with memory := (x.judge f N a.memory).2 }) with
          ⟨hok, haccept, hmemory⟩ | ⟨accepting, o', y, rest, fault, heq, haccept, hy, herr, hmemory⟩
        · exact .inl ⟨hok, accept_cons.mpr ⟨hverdict, haccept⟩, hmemory⟩
        · exact .inr ⟨(o, x) :: accepting, o', y, rest, fault, congrArg ((o, x) :: ·) heq,
            accept_cons.mpr ⟨hverdict, haccept⟩, hy, herr, hmemory⟩

/-- **Telling**: everybody once, in order. -/
theorem tellAll_eq (os : List ObserverId) :
    tellAll f N os a = { a with
      subscriptions := (heldTold f N (a.membersOn os) (a.subscriptions, a.memory)).1
      journals := journalsTold f N (a.membersOn os) a.journals
      memory := (heldTold f N (a.membersOn os) (a.subscriptions, a.memory)).2 } := by
  induction os generalizing a with
  | nil => rfl
  | cons o os ih =>
    rw [tellAll_cons, membersOn_cons]
    cases a.member? o with
    | none => exact ih
    | some x =>
      -- What the member changes of its subscriptions does not change who is told after it.
      have hon : (tell f N o x a).membersOn os = a.membersOn os := membersOn_congr seats_tell
      dsimp only
      rw [ih, hon, tell_eq]
      rfl

theorem seats_announce : (a.announce f N).2.seats = a.seats :=
  announce_induction (P := fun b => b.seats = a.seats) (fun _ _ h => h)
    (fun _ _ _ _ _ h => seats_tell.trans h) rfl

/-! ## Off the seat -/

/-- A call on a member that is off its seat while the call lasts. -/
def calling (o : ObserverId) (x : Member τ) (call : Audience τ → α × Audience τ)
    (a : Audience τ) : α × Audience τ :=
  let (answer, b) := call { a with seats := a.seats.set o.index none }
  (answer, { b with seats := b.seats.set o.index (some x) })

/-- `askAll` with calls of this kind. -/
def askAway (f : Forest) (N : Notice) : List ObserverId → Audience τ →
    Except Fault Unit × Audience τ
  | [], a => (.ok (), a)
  | o :: os, a =>
    match a.member? o with
    | none => askAway f N os a
    | some x =>
      match calling o x (ask f N x) a with
      | (.ok (), a) => askAway f N os a
      | (.error fault, a) => (.error fault, a)

/-- `tellAll` with calls of this kind. -/
def tellAway (f : Forest) (N : Notice) (os : List ObserverId) (a : Audience τ) : Audience τ :=
  os.foldl (fun a o => match a.member? o with
    | none => a
    | some x => (calling o x (fun a => ((), tell f N o x a)) a).2) a

/-- `announce` with calls of this kind. -/
def announceAway (f : Forest) (N : Notice) (a : Audience τ) : Except Fault Unit × Audience τ :=
  let os := a.subscriptions.observers N.node
  match askAway f N os a with
  | (.ok (), a) => (.ok (), tellAway f N os a)
  | (.error fault, a) => (.error fault, a)

/-- A call that neither reads nor writes the seats leaves the member where it was. -/
theorem calling_eq {call : Audience τ → α × Audience τ} (hx : a.member? o = some x)
    (hcall : ∀ seats, call { a with seats } = ((call a).1, { (call a).2 with seats })) :
    calling o x call a = ((call a).1, { (call a).2 with seats := a.seats }) := by
  have hback : (a.seats.set o.index none).set o.index (some x) = a.seats := by
    unfold member? at hx
    rw [List.set_set]
    apply List.ext_getElem?
    intro i
    rw [List.getElem?_set]
    by_cases hi : o.index = i
    · subst hi
      have hseat := Option.join_eq_some_iff.mp hx
      rw [if_pos rfl, if_pos (List.getElem?_eq_some_iff.mp hseat).1, hseat]
    · rw [if_neg hi]
  unfold calling
  rw [hcall]
  simp only [hback]

theorem calling_ask (hx : a.member? o = some x) : calling o x (ask f N x) a = ask f N x a := by
  rw [calling_eq hx]
  · cases x <;> rfl
  · intro seats
    cases x <;> rfl

theorem calling_tell (hx : a.member? o = some x) :
    (calling o x (fun a => ((), tell f N o x a)) a).2 = tell f N o x a := by
  rw [calling_eq hx]
  · cases x <;> rfl
  · intro seats
    cases x <;> rfl

theorem askAway_eq : askAway f N os a = askAll f N os a := by
  induction os generalizing a with
  | nil => rfl
  | cons o os ih =>
    unfold askAway askAll
    cases hx : a.member? o with
    | none => exact ih
    | some x =>
      simp only [calling_ask hx]
      rcases ask f N x a with ⟨_ | _, b⟩
      · rfl
      · exact ih

theorem tellAway_eq : tellAway f N os a = tellAll f N os a := by
  induction os generalizing a with
  | nil => rfl
  | cons o os ih =>
    rw [tellAll_cons, ← ih]
    unfold tellAway
    rw [List.foldl_cons]
    cases hx : a.member? o with
    | none => rfl
    | some x => simp only [calling_tell hx]

theorem announceAway_eq : a.announceAway f N = a.announce f N := by
  unfold announceAway announce
  dsimp only
  rw [askAway_eq]
  rcases askAll f N (a.subscriptions.observers N.node) a with ⟨_ | _, b⟩
  · rfl
  · exact congrArg (Prod.mk _) tellAway_eq

/-! ## An announcement -/

/-- **Asked, then told.** The members who are subscribed to the node when the announcement begins
are called each on its own account and in the order of the subscriptions. Either everybody
accepts, and then everybody is told once, whatever they do to their subscriptions; or somebody
refuses after the ones before have accepted, and then this is the answer, nobody is told and nothing
but the memory is other than before. Nobody loses its seat, also where members leave it for the time
of a call. -/
theorem announce_rounds (memory : τ) (occasions : List (Occasion τ)) (f : Forest) (N : Notice) :
    let a := assembled memory occasions
    let ms := a.concerned N.node
    ((ms.map (·.1)).Nodup ∧
      ms.map (·.1) = (a.subscriptions.observers N.node).filter a.isSeated ∧
      ∀ o x, (o, x) ∈ ms ↔ a.member? o = some x ∧ a.subscriptions.has o N.node = true) ∧
    ((Accept f N ms a.memory ∧
        let held := heldTold f N ms (a.subscriptions, memoryAsked f N ms a.memory)
        a.announce f N = (.ok (), { a with
          subscriptions := held.1
          journals := journalsTold f N ms a.journals
          memory := held.2 })) ∨
      ∃ accepting o x rest fault, ms = accepting ++ (o, x) :: rest ∧
        Accept f N accepting a.memory ∧
        (x.judge f N (memoryAsked f N accepting a.memory)).1 = .error fault ∧
        a.announce f N = (.error fault, { a with
          memory := memoryAsked f N (accepting ++ [(o, x)]) a.memory })) ∧
    (a.announce f N).2.seats = a.seats ∧
    a.announceAway f N = a.announce f N := by
  intro a ms
  have hnodup : a.subscriptions.pairs.Nodup := nodup_assembled memory occasions
  refine ⟨⟨?_, map_fst_membersOn, fun o x => ?_⟩, ?_, seats_announce, announceAway_eq⟩
  · have hfst : ms.map (·.1) = (a.subscriptions.observers N.node).filter a.isSeated :=
      map_fst_membersOn
    rw [hfst]
    exact (Subscriptions.nodup_observers hnodup).filter _
  · refine mem_membersOn.trans ?_
    rw [Subscriptions.mem_observers]
    exact and_comm
  · obtain ⟨hframe, hrounds⟩ :=
      askAll_rounds (a := a) (f := f) (N := N) (a.subscriptions.observers N.node)
    rcases hasked : a.poll f N with ⟨res, b⟩
    unfold poll at hasked
    rw [hasked] at hframe hrounds
    dsimp only at hframe hrounds
    rcases hrounds with ⟨rfl, haccept, hmemory⟩ |
      ⟨accepting, o, x, rest, fault, heq, haccept, hx, rfl, hmemory⟩
    · -- To be asked moves nobody, so those who are told are those who were asked.
      have hon : b.membersOn (a.subscriptions.observers N.node) = ms :=
        membersOn_congr (by rw [hframe])
      refine .inl ⟨haccept, ?_⟩
      rw [announce_of_asked hasked, tellAll_eq, hon, hframe, hmemory]
      rfl
    · refine .inr ⟨accepting, o, x, rest, fault, heq, haccept, hx, ?_⟩
      rw [announce_of_refused hasked, hframe, hmemory]

/-- An observer that counts what it is asked and what it is told, and has enough after some
questions. When it is told of a change it goes on to the next node. -/
def wanderer : Observer (Nat × Nat) where
  name := "wanderer"
  judge := fun _ _ m => (if m.1 < 3 then .ok () else .error .malformed, (m.1 + 1, m.2))
  follow := fun _ _ _ N m =>
    ([.unsubscribe N.node, .subscribe ⟨N.node.index + 1⟩], (m.1, m.2 + 1))

/-- Two wanderers on a node are asked, told, and go on to the next node in their order. There the
second of them refuses, and nobody is told. -/
theorem announce_rounds_wanderers :
    let f : Forest := ⟨⟨[]⟩, []⟩
    let first : Notice := ⟨⟨0⟩, ⟨0⟩, .set, .null, .int 1, none, false⟩
    let second : Notice := { first with node := ⟨1⟩ }
    let occasions : List (Occasion (Nat × Nat)) := [.seat (.observer wanderer),
      .seat (.observer wanderer), .call (.subscribe ⟨1⟩ ⟨0⟩), .call (.subscribe ⟨0⟩ ⟨0⟩)]
    let a := assembled (0, 0) occasions
    let b := assembled (0, 0) (occasions ++ [.announce f first])
    (a.announce f first).1 = .ok () ∧ (a.announce f first).2.memory = (2, 2) ∧
      (a.announce f first).2.subscriptions.pairs = [(⟨1⟩, ⟨1⟩), (⟨1⟩, ⟨0⟩)] ∧
      (b.announce f second).1 = .error .malformed ∧ (b.announce f second).2.memory = (4, 2) ∧
      (b.announce f second).2.subscriptions = b.subscriptions := by
  intro f first second occasions a b
  have hok : (a.announce f first).1 = .ok () := rfl
  have hrefused : (b.announce f second).1 = .error .malformed := rfl
  obtain ⟨-, hrounds, -⟩ := announce_rounds (0, 0) occasions f first
  obtain ⟨-, hrounds', -⟩ :=
    announce_rounds (0, 0) (occasions ++ [.announce f first]) f second
  rcases hrounds with ⟨-, htold⟩ | ⟨_, _, _, _, _, -, -, -, herr⟩
  · rcases hrounds' with ⟨-, htold'⟩ | ⟨_, _, _, _, _, -, -, -, herr'⟩
    · exact absurd (hrefused.symm.trans (congrArg Prod.fst htold')) (by simp)
    · refine ⟨hok, ?_, ?_, hrefused, rfl, congrArg (·.2.subscriptions) herr'⟩
      · exact (congrArg (·.2.memory) htold).trans rfl
      · exact (congrArg (·.2.subscriptions.pairs) htold).trans rfl
  · exact absurd (hok.symm.trans (congrArg Prod.fst herr)) (by simp)

end Audience

end TrackedGraph
