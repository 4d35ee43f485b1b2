/-
A recording with the audience to itself.

Where nobody but the recorder of one journal ever sits in the audience, it is the only one
whom an announcement asks and tells, so what the audience says can be read off the plan of the
change (`Audience.Lone`). The recorder is always given the first seat then, and a session over
a single root hears all of its contents for as long as it runs (`Recording.Solo`).
-/
import TrackedGraph.Proofs.Recording.Steady

set_option autoImplicit false

namespace TrackedGraph

open Edit (Keeps)

variable {τ : Type} {d d' : Document τ} {o : ObserverId} {n root : NodeId} {N : Notice}
  {r : Recording} {j : Journal} {k : Nat} {s : Bool} {f : Forest} {a : Audience τ}
  {os : List ObserverId} {tracked : List NodeId}

/-! ## A lone recorder in the audience -/

/-- Whoever sits somewhere is the recorder of the journal, on this seat. -/
def Audience.Lone (a : Audience τ) (k : Nat) (s : Bool) (o : ObserverId) : Prop :=
  ∀ o' x, a.member? o' = some x → o' = o ∧ x = .recorder k s

namespace Audience

/-- Where nobody sits, it is not the seat of the recorder, if that one is taken. -/
theorem mem_cons_of_free {o' : ObserverId} (h : a.member? o' = none) :
    (o ∈ o' :: os ∧ a.isSeated o = true) ↔ (o ∈ os ∧ a.isSeated o = true) := by
  refine and_congr_left fun hseated => ?_
  rw [List.mem_cons]
  refine or_iff_right ?_
  rintro rfl
  rw [isSeated, h] at hseated
  exact absurd hseated (by simp)

theorem Lone.askAll (h : a.Lone k s o) (os : List ObserverId) :
    askAll f N os a = (if o ∈ os ∧ a.isSeated o = true then
      (Tracking.plan s f N).map fun _ => () else .ok (), a) := by
  induction os with
  | nil => simp [Audience.askAll]
  | cons o' os ih =>
    unfold Audience.askAll
    cases ho' : a.member? o' with
    | none =>
      simp only [mem_cons_of_free ho']
      exact ih
    | some x =>
      obtain ⟨rfl, rfl⟩ := h o' x ho'
      have hseated : a.isSeated o' = true := by rw [isSeated, ho']; rfl
      simp only [List.mem_cons_self, hseated, and_self, and_true, if_true, Audience.ask] at ih ⊢
      cases hplan : Tracking.plan s f N with
      | error fault => rfl
      | ok q =>
        rw [hplan] at ih
        simp only [Except.map] at ih ⊢
        rw [ih]
        split_ifs <;> rfl

theorem Lone.tellAll (h : a.Lone k s o) (hos : os.Nodup) :
    tellAll f N os a =
      if o ∈ os ∧ a.isSeated o = true then tell f N o (.recorder k s) a else a := by
  induction os generalizing a with
  | nil => simp [Audience.tellAll]
  | cons o' os ih =>
    obtain ⟨hnot, hos⟩ := List.nodup_cons.mp hos
    rw [tellAll_cons]
    cases ho' : a.member? o' with
    | none =>
      simp only [mem_cons_of_free ho']
      exact ih h hos
    | some x =>
      obtain ⟨rfl, rfl⟩ := h o' x ho'
      have hseated : a.isSeated o' = true := by rw [isSeated, ho']; rfl
      have hlone : (tell f N o' (.recorder k s) a).Lone k s o' := fun o'' x hx => by
        rw [member?_tell] at hx
        exact h o'' x hx
      dsimp only
      rw [ih hlone hos, if_neg fun hin => hnot hin.1,
        if_pos ⟨List.mem_cons_self, hseated⟩]

/-- **What a lone recorder makes of an announcement.** -/
theorem Lone.announce (h : a.Lone k s o) (hs : a.subscriptions.pairs.Nodup) :
    a.announce f N = if a.subscriptions.has o N.node = true ∧ a.isSeated o = true then
      match Tracking.plan s f N with
      | .ok q => (.ok (), { a.setJournal k (Tracking.record N q (a.journal k)) with
          subscriptions := a.subscriptions.changeAll o (Tracking.subscriptionChanges f q) })
      | .error fault => (.error fault, a)
    else (.ok (), a) := by
  have hos := Subscriptions.nodup_observers (n := N.node) hs
  unfold Audience.announce
  simp only [h.askAll, Subscriptions.mem_observers]
  split_ifs with hin
  · cases hplan : Tracking.plan s f N with
    | error fault => rfl
    | ok q =>
      simp only [Except.map, h.tellAll hos, Subscriptions.mem_observers, if_pos hin,
        tell, Tracking.carryOut, hplan]
  · simp only [h.tellAll hos, Subscriptions.mem_observers, if_neg hin]

theorem Lone.poll (h : a.Lone k s o) : a.poll f N =
    (if a.subscriptions.has o N.node = true ∧ a.isSeated o = true then
      (Tracking.plan s f N).map fun _ => () else .ok (), a) := by
  unfold Audience.poll
  simp only [h.askAll, Subscriptions.mem_observers]

/-- The first seat is given away where nobody sits. -/
theorem seat_add_of_empty {x : Member τ} (h : ∀ o, a.member? o = none) : (a.add x).1 = ⟨0⟩ := by
  have hfirst : a.seats[0]?.join = none := h ⟨0⟩
  unfold Audience.add
  cases hseats : a.seats with
  | nil => rfl
  | cons y ys =>
    rw [hseats] at hfirst
    obtain rfl : y = none := hfirst
    rfl

/-- Which seat is given away depends on the seats alone. -/
theorem seats_add_congr {b : Audience τ} {x : Member τ} (h : b.seats = a.seats) :
    (b.add x).2.seats = (a.add x).2.seats := by
  unfold add
  rw [h]
  split <;> rfl

/-- The first seat, when it is left, is given back. -/
theorem seats_add_remove {x : Member τ} (h : a.member? ⟨0⟩ = some x) :
    ((a.remove ⟨0⟩).2.add x).2.seats = a.seats := by
  cases hseats : a.seats with
  | nil =>
    rw [member?, hseats] at h
    exact absurd h (by simp)
  | cons y ys =>
    rw [member?, hseats] at h
    obtain rfl : y = some x := h
    simp [remove, hseats, add, List.findIdx?_cons]

/-! ### Coming and going -/

theorem Lone.left {o' : ObserverId} (h : a.Lone k s o) : (a.left k o').Lone k s o := by
  intro o'' x hx
  rw [member?_left] at hx
  split_ifs at hx
  exact h o'' x hx

/-- A recorder that joins an empty audience is alone. -/
theorem lone_joined (h : ∀ o, a.member? o = none) :
    (a.joined r tracked).Lone r.journal r.policy.strict ⟨0⟩ := by
  have hseat : (a.add (.recorder r.journal r.policy.strict)).1 = ⟨0⟩ := seat_add_of_empty h
  intro o x hx
  by_cases hne : o = ⟨0⟩
  · rw [hne, ← hseat, member?_joined, Option.some.injEq] at hx
    exact ⟨hne, hx.symm⟩
  · have hfree : (a.joined r tracked).member? o = a.member? o :=
      member?_add_of_ne (by rw [hseat]; exact hne)
    rw [hfree, h] at hx
    exact absurd hx (by simp)

theorem seats_joined :
    (a.joined r tracked).seats = (a.add (.recorder r.journal r.policy.strict)).2.seats := rfl

end Audience

/-! ## Sessions over one root -/

/-- **Nobody but the recorder is in the audience**, on the first seat, and sessions are over
one root. While one runs, its root is heard. -/
structure Recording.Solo (r : Recording) (d : Document τ) : Prop extends r.Steady d where
  lone : d.audience.Lone r.journal r.policy.strict ⟨0⟩
  single : ∀ session, (d.audience.journal r.journal).session = some session →
    ∃ root, session.roots = [root] ∧ d.forest.contains root = true
  heard : (d.audience.journal r.journal).recording = true →
    ∃ id root, (d.audience.journal r.journal).session = some ⟨id, [root]⟩ ∧ d.Hears ⟨0⟩ root

/-- The recorder of a running session sits on the first seat and follows one root. -/
theorem Recording.Solo.follows (hd : r.Solo d)
    (hrec : (d.audience.journal r.journal).recording = true) :
    (d.audience.journal r.journal).seat = some ⟨0⟩ ∧ ∃ id root,
      (d.audience.journal r.journal).session = some ⟨id, [root]⟩ ∧ d.Hears ⟨0⟩ root ∧
        d.Follows ⟨0⟩ r.journal r.policy.strict [root] := by
  obtain ⟨o, hseat, hfollows⟩ := hd.running hrec
  obtain ⟨id, root, hsession, hhears⟩ := hd.heard hrec
  obtain ⟨rfl, -⟩ := hd.lone o _ hfollows.seated
  have hroots : (d.audience.journal r.journal).roots = [root] := Journal.roots_of_session hsession
  rw [hroots] at hfollows
  exact ⟨hseat, id, root, hsession, hhears, hfollows⟩

/-- **It hears all contents of the root.** -/
theorem Recording.Solo.hears_closure (hd : r.Solo d)
    (hrec : (d.audience.journal r.journal).recording = true) :
    d.Hears ⟨0⟩ n ↔ n ∈ d.forest.closure (d.audience.journal r.journal).roots := by
  obtain ⟨-, id, root, hsession, hhears, hfollows⟩ := hd.follows hrec
  have hroots : (d.audience.journal r.journal).roots = [root] := Journal.roots_of_session hsession
  obtain ⟨_, hone, hexist⟩ := hd.single _ hsession
  obtain rfl := List.singleton_inj.mp hone
  rw [hfollows.hears_iff_within hhears, hroots, Forest.mem_closure hd.sound]
  simp [hexist]

/-- Nobody is in the audience while no session runs. -/
theorem Recording.Solo.empty (hd : r.Solo d)
    (hrec : (d.audience.journal r.journal).recording = false) (o : ObserverId) :
    d.audience.member? o = none := by
  cases ho : d.audience.member? o with
  | none => rfl
  | some x =>
    obtain ⟨-, rfl⟩ := hd.lone o x ho
    exact absurd ho (hd.nobody hrec o _)

/-! ## Edits -/

theorem Step.solo (h : Step True d d') (hd : r.Solo d) : r.Solo d' := by
  have hsame := h.sameSession (k := r.journal)
  refine ⟨h.steady hd.toSteady, fun o x ho => ?_, fun session hs => ?_, fun hrec => ?_⟩
  · rw [h.member?] at ho
    exact hd.lone o x ho
  · rw [hsame.2.2.2.1] at hs
    obtain ⟨root, hone, hexist⟩ := hd.single session hs
    obtain ⟨t, ht⟩ := Forest.contains_iff.mp hexist
    exact ⟨root, hone, Forest.contains_iff.mpr ⟨t, h.typeOf ht⟩⟩
  · -- The root is not severed, being the only one: so it is heard of as long as anything is.
    rw [hsame.1] at hrec
    obtain ⟨-, id, root, hsession, hhears, hfollows⟩ := hd.follows hrec
    exact ⟨id, root, hsame.2.2.2.1.trans hsession, hfollows.hears_step h hhears⟩

theorem Chain.solo (h : Chain True d d') (hd : r.Solo d) : r.Solo d' := by
  induction h with
  | refl => exact hd
  | tail _ hs ih => exact hs.solo ih

namespace Recording

theorem Solo.mutation (m : Mutation) : Keeps r.Solo (m.run : Edit τ Mutation.Outcome) :=
  fun _ hd => (hd.toSteady.chain m).solo hd

/-! ## Calls -/

theorem Solo.setJournal (hd : r.Solo d)
    (hj : r.Steady { d with audience := d.audience.setJournal r.journal j })
    (hrec : j.recording = (d.audience.journal r.journal).recording)
    (hsession : j.session = (d.audience.journal r.journal).session) :
    r.Solo { d with audience := d.audience.setJournal r.journal j } := by
  have hself : (d.audience.setJournal r.journal j).journal r.journal = j :=
    Audience.journal_setJournal_self hd.stored
  refine ⟨hj, hd.lone, ?_, ?_⟩
  · dsimp only
    rw [hself, hsession]
    exact hd.single
  · dsimp only
    rw [hself, hsession, hrec]
    exact hd.heard

theorem Solo.congr (hd : r.Solo d) (hf : d'.forest = d.forest)
    (hg : d'.generation = d.generation) (ha : d'.audience = d.audience) : r.Solo d' := by
  refine ⟨hd.toSteady.congr hf hg ha, by rw [ha]; exact hd.lone, by rw [ha, hf]; exact hd.single,
    ?_⟩
  unfold Document.Hears
  rw [ha]
  exact hd.heard

/-- **The recorder joins**, for a session over one root. -/
theorem Solo.join (hd : r.Solo d) {id : Nat}
    (hidle : (d.audience.journal r.journal).recording = false)
    (hsession : (d.audience.journal r.journal).session = some ⟨id, [root]⟩)
    (htracked : tracked = d.forest.closure [root]) :
    r.Solo (r.join tracked d).2 := by
  have hroots : (d.audience.journal r.journal).roots = [root] := Journal.roots_of_session hsession
  have hsteady : r.Steady (r.join tracked d).2 :=
    hd.toSteady.join hidle (by rw [hroots]; exact htracked)
  rw [Recording.join_apply] at hsteady ⊢
  have hj : (d.audience.joined r tracked).journal r.journal =
      { d.audience.journal r.journal with
        seat := some (d.audience.add (.recorder r.journal r.policy.strict)).1
        recording := true } := Audience.journal_joined hd.stored
  refine ⟨hsteady, Audience.lone_joined (hd.empty hidle), ?_, fun _ => ⟨id, root, ?_, ?_⟩⟩
  · dsimp only
    rw [hj]
    exact hd.single
  · dsimp only
    rw [hj]
    exact hsession
  · -- The root is in its own closure, so the recorder is subscribed to it.
    obtain ⟨_, hone, hexist⟩ := hd.single _ hsession
    obtain rfl := List.singleton_inj.mp hone
    show (d.audience.joined r tracked).subscriptions.has ⟨0⟩ root = true
    rw [← Audience.seat_add_of_empty (hd.empty hidle), Audience.has_joined, htracked]
    exact .inr ((Forest.mem_closure hd.sound).mpr ⟨root, List.mem_singleton_self _, hexist, .refl⟩)

theorem Solo.startFrom (root : NodeId) :
    Keeps r.Solo (r.startFrom [root] : Edit τ Unit) := by
  intro d hd
  rcases r.startFrom_ends [root] d with ⟨hidle, hexist⟩ | ⟨hsame, -⟩
  · generalize hj : (d.audience.journal r.journal).startSession ⟨d.sessions, [root]⟩
      (d.forest.closure [root]) = j
    have hsession : j.session = some ⟨d.sessions, [root]⟩ := by rw [← hj]; rfl
    have hrec : j.recording = false := by rw [← hj]; exact hidle
    have hstarted : r.Steady { d with audience := d.audience.setJournal r.journal j } := by
      rw [← hj]
      exact hd.toSteady.startSession hidle _ _
    have hself : (d.audience.setJournal r.journal j).journal r.journal = j :=
      Audience.journal_setJournal_self hd.stored
    have hsolo : r.Solo { d with audience := d.audience.setJournal r.journal j } := by
      refine ⟨hstarted, hd.lone, fun session hs => ?_, fun hrun => ?_⟩
      · dsimp only at hs
        rw [hself, hsession, Option.some.injEq] at hs
        exact ⟨root, by rw [← hs], hexist root (List.mem_singleton_self _)⟩
      · dsimp only at hrun
        rw [hself, hrec] at hrun
        exact absurd hrun (by simp)
    rw [Recording.startFrom_apply hidle hexist, hj]
    rw [← hself] at hrec hsession
    exact (hsolo.join hrec hsession rfl).congr rfl rfl rfl
  · rw [hsame]
    exact hd

theorem Solo.start : Keeps r.Solo (r.start : Edit τ Unit) :=
  .bind (.of_same fun _ => rfl) fun _ => Solo.startFrom _

/-- **The recorder joins again**, for the root that the session is over. -/
theorem Solo.resume : Keeps r.Solo (r.resume : Edit τ Unit) := by
  intro d hd
  cases hrec : (d.audience.journal r.journal).recording with
  | true =>
    rw [resume_of_running hrec]
    exact hd
  | false =>
    cases hsession : (d.audience.journal r.journal).session with
    | none =>
      unfold Recording.resume
      rw [Recording.read_bind, hrec, hsession]
      exact Solo.start d hd
    | some session =>
      obtain ⟨root, hone, -⟩ := hd.single session hsession
      obtain ⟨id, roots⟩ := session
      obtain rfl : roots = [root] := hone
      have hextended := hd.setJournal (hd.toSteady.extendInitial hrec (r.unseen d)) rfl rfl
      have hself := Audience.journal_setJournal_self (a := d.audience)
        (j := (d.audience.journal r.journal).extendInitial (r.unseen d)) hd.stored
      rw [resume_apply hrec hsession]
      exact hextended.join ((congrArg Journal.recording hself).trans hrec)
        ((congrArg Journal.session hself).trans hsession) rfl

theorem Solo.stop : Keeps r.Solo (r.stop : Edit τ Unit) := by
  intro d hd
  have hsteady := Steady.stop d hd.toSteady
  cases hrec : (d.audience.journal r.journal).recording with
  | false =>
    rw [Recording.stop_of_idle hrec]
    exact hd
  | true =>
    obtain ⟨hseat, -⟩ := hd.follows hrec
    rw [Recording.stop_apply hrec hseat] at hsteady ⊢
    have hj := Audience.journal_left (o := ⟨0⟩) hd.stored
    refine ⟨hsteady, hd.lone.left, ?_, fun hrun => ?_⟩
    · dsimp only
      rw [hj]
      exact hd.single
    · dsimp only at hrun
      rw [hj] at hrun
      exact absurd hrun (by simp)

theorem Solo.modify {g : Journal → Journal}
    (hg : ∀ j f generation, j.Reliable f generation → (g j).recording = j.recording ∧
      (g j).seat = j.seat ∧ (g j).session = j.session ∧ (g j).Reliable f generation) :
    Keeps r.Solo (Edit.modifyJournal r.journal g : Edit τ Unit) := by
  intro d hd
  obtain ⟨hrec, -, hsession, -⟩ := hg _ _ _ hd.journal
  exact hd.setJournal (Steady.modify hg d hd.toSteady) hrec hsession

theorem Solo.reduceJournal :
    Keeps r.Solo (Edit.reduceJournal r.journal r.policy.prune : Edit τ Reduction) := by
  intro d hd
  obtain ⟨-, -, hj⟩ := Journal.reduce_eq_ok d.forest r.policy.prune
    fun x hx => (Journal.forall_allEarliest hd.journal.recordable x hx).exists_slot hd.sound.toTyped
  have hsteady := Steady.reduceJournal d hd.toSteady
  rw [reduceJournal_apply] at hsteady ⊢
  exact hd.setJournal hsteady (by rw [hj]) (by rw [hj])

theorem Solo.reduce : Keeps r.Solo (r.reduce : Edit τ Reduction) :=
  .bind (.of_same fun _ => rfl) fun _ =>
    .ite (.bind (.throw _) fun _ => reduceJournal) reduceJournal

theorem Solo.revert : Keeps r.Solo (r.revert : Edit τ Revert.Report) := by
  have hforget : Keeps r.Solo (Edit.modifyJournal r.journal (·.forget) : Edit τ Unit) :=
    Solo.modify fun j f generation hj => ⟨rfl, rfl, rfl, hj.forget⟩
  have hrun : Keeps r.Solo (Revert.run r.policy r.journal : Edit τ Revert.Report) :=
    Revert.keeps_run Solo.mutation Solo.reduceJournal hforget
  refine .bind (.of_same fun _ => rfl) fun j => .ite (.bind (.throw _) fun _ => ?_) ?_ <;>
    exact .ite (.bind (.throw _) fun _ => hrun) hrun

/-- **Every call keeps a recording solitary**, unless it starts a session over other roots. -/
theorem Solo.perform (c : Call) (hc : ∀ roots, c ≠ .startFrom roots) :
    Keeps r.Solo (r.perform c : Edit τ Outcome) := by
  have hread : Keeps r.Solo (r.read : Edit τ Journal) := .of_same fun _ => rfl
  have hsuspended : ∀ b, Keeps r.Solo
      (r.modify fun j => { j with suspended := b } : Edit τ Unit) := fun b =>
    Solo.modify fun j f generation hj =>
      ⟨rfl, rfl, rfl, hj.congr rfl rfl rfl rfl rfl rfl rfl rfl rfl⟩
  cases c with
  | start => exact .bind Solo.start fun _ => .pure _
  | startFrom roots => exact absurd rfl (hc roots)
  | resume => exact .bind Solo.resume fun _ => .pure _
  | stop => exact .bind Solo.stop fun _ => .pure _
  | suspend => exact .bind (hsuspended true) fun _ => .pure _
  | unsuspend => exact .bind (hsuspended false) fun _ => .pure _
  | reduceRunning =>
    refine .bind (.bind hread fun j => ?_) fun _ => .pure _
    exact .ite (.bind (.throw _) fun _ => Solo.reduce) Solo.reduce
  | reduce => exact .bind Solo.reduce fun _ => .pure _
  | revert => exact .bind Solo.revert fun _ => .pure _
  | undo =>
    refine .bind (.bind hread fun j => ?_) fun _ => .pure _
    exact .ite (.bind Solo.stop fun _ => Solo.revert) Solo.revert

theorem Solo.ask (question : Journal.Question) (hd : r.Solo d) :
    r.Solo (r.ask question d).2 := by
  obtain ⟨_, _, _, _, hj, -⟩ := question.answered_frame d.forest d.generation
    (d.audience.journal r.journal)
  exact hd.setJournal (hd.toSteady.ask question) (by rw [hj]) (by rw [hj])

/-- **However a solitary recording is used**, it stays solitary. -/
theorem Solo.acted {acts : List Act} (hd : r.Solo d)
    (hacts : ∀ roots, .call (.startFrom roots) ∉ acts) : r.Solo (r.acted d acts) := by
  induction acts using List.reverseRecOn with
  | nil => exact hd
  | append_singleton acts a ih =>
    have hbefore := ih fun roots h => hacts roots (List.mem_append_left _ h)
    rw [Recording.acted, List.foldl_append]
    cases a with
    | edit m => exact Solo.mutation m _ hbefore
    | call c =>
      refine Solo.perform c ?_ _ hbefore
      rintro roots rfl
      exact hacts roots (List.mem_append_right _ (List.mem_singleton_self _))
    | ask question => exact hbefore.ask question

/-- **A recording that has not been used** is solitary in an empty audience. -/
theorem Fresh.solo (h : r.Fresh d) (hf : d.forest.Sound True)
    (ho : d.forest.schema.OwningMembers) (hempty : ∀ o, d.audience.member? o = none) :
    r.Solo d := by
  refine ⟨h.steady hf ho, fun o x hx => ?_, ?_, ?_⟩
  · rw [hempty] at hx
    exact absurd hx (by simp)
  all_goals rw [h.journal]; simp

end Recording

end TrackedGraph
