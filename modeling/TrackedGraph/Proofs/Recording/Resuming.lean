/-
Ending a session and resuming it at once: runs that go on from there.

Every call that goes on with the session keeps the documents related (`Rejoined.perform`), but
for one: the check at the end of a revert looks at the nodes that were there from the start,
where the two sides differ, and may end differently (`Recording.AlikeReverts`). Up to there,
two runs that differ in the two calls go the same way.
-/
import TrackedGraph.Proofs.Recording.Rejoining
import TrackedGraph.Proofs.Recording.Verifying

set_option autoImplicit false

namespace TrackedGraph

open Edit (Keeps Respects)

variable {τ : Type} {x y : Document τ} {n : NodeId} {r : Recording} {j i : Journal} {f : Forest}
  {unseen : List NodeId}

/-! ## The check at the end of a revert -/

namespace Journal

theorem Rejoined.created_of_not (h : Rejoined unseen j i)
    (hcreated : ∀ n ∈ unseen, j.isCreated n = false) : i.created = j.created := by
  rw [h.created_eq, List.filter_eq_self]
  intro n hn
  rw [Bool.not_eq_true', Bool.eq_false_iff, ne_eq, List.contains_iff_mem]
  intro hunseen
  have hnot := hcreated n hunseen
  rw [isCreated, List.contains_iff_mem.mpr (List.mem_filter.mp hn).1, Bool.true_and] at hnot
  exact absurd ((List.mem_filter.mp hn).2.symm.trans hnot) (by simp)

theorem verifyLeft_congr {ns : List NodeId} (hroots : i.roots = j.roots)
    (h : ∀ n ∈ ns, i.isCreated n = j.isCreated n ∧ i.wasInitial n = j.wasInitial n) :
    Revert.verifyLeft f i ns = Revert.verifyLeft f j ns := by
  induction ns with
  | nil => rfl
  | cons n ns ih =>
    obtain ⟨⟨hcreated, hinitial⟩, hns⟩ := List.forall_mem_cons.mp h
    rw [Revert.verifyLeft, Revert.verifyLeft, hcreated, hinitial, hroots, ih hns]

/-- **The check ends alike** if no unseen node is created or has left. -/
theorem Rejoined.verify_eq (h : Rejoined unseen j i)
    (hquiet : ∀ n ∈ unseen, j.isCreated n = false ∧ n ∉ j.left) :
    Revert.verify f i = Revert.verify f j := by
  have hcreated : ∀ n, i.isCreated n = j.isCreated n := by
    intro n
    rw [Bool.eq_iff_iff, h.isCreated_iff]
    refine and_iff_left_of_imp fun hc hu => ?_
    rw [(hquiet n hu).1] at hc
    exact absurd hc (by simp)
  have hleft : Revert.verifyLeft f i j.left = Revert.verifyLeft f j j.left := by
    refine verifyLeft_congr h.roots fun n hn => ⟨hcreated n, ?_⟩
    rw [Bool.eq_iff_iff, h.wasInitial_iff]
    exact or_iff_left fun hu => (hquiet n hu).2 hn
  unfold Revert.verify
  rw [h.created_of_not fun n hn => (hquiet n hn).1, h.roots, h.left, hleft]

/-- Where the check passes on the first side, it passes on the second exactly if the unseen
nodes that have left are back. -/
theorem Rejoined.verify_ok_iff (h : Rejoined unseen j i)
    (hj : ∃ res, Revert.verify f j = .ok res) : (∃ res, Revert.verify f i = .ok res) ↔
      ∀ n ∈ unseen, n ∈ j.left → f.isWithinAny n j.roots = true := by
  obtain ⟨hout, hback⟩ := Revert.verify_ok_iff.mp hj
  rw [Revert.verify_ok_iff, h.roots, h.left, h.created_eq]
  constructor
  · rintro ⟨-, hback'⟩ n hu hn
    exact hback' n hn (h.wasInitial_iff.mpr (.inr hu))
  · intro hunseen
    refine ⟨fun n hn => hout n (List.mem_filter.mp hn).1, fun n hn hinitial => ?_⟩
    exact (h.wasInitial_iff.mp hinitial).elim (hback n hn) fun hu => hunseen n hu hn

/-- Where it passes on the second side, it passes on the first exactly if the unseen nodes that
were created are out. -/
theorem Rejoined.of_verify_ok_iff (h : Rejoined unseen j i)
    (hi : ∃ res, Revert.verify f i = .ok res) : (∃ res, Revert.verify f j = .ok res) ↔
      ∀ n ∈ unseen, j.isCreated n = true → f.isWithinAny n j.roots = false := by
  obtain ⟨hout, hback⟩ := Revert.verify_ok_iff.mp hi
  rw [h.roots] at hout hback
  have hmem : ∀ n, n ∈ j.created ↔ j.isCreated n = true := fun n => by
    simp only [created, isCreated, List.mem_filter, Bool.and_eq_true, List.contains_iff_mem]
  rw [Revert.verify_ok_iff]
  constructor
  · rintro ⟨hout', -⟩ n - hn
    exact hout' n ((hmem n).mpr hn)
  · intro hunseen
    refine ⟨fun n hn => ?_, fun n hn hinitial => ?_⟩
    · by_cases hu : n ∈ unseen
      · exact hunseen n hu ((hmem n).mp hn)
      · refine hout n ?_
        rw [h.created_eq, List.mem_filter]
        exact ⟨hn, by simpa using hu⟩
    · rw [← h.left] at hn
      exact hback n hn (h.wasInitial_iff.mpr (.inl hinitial))

end Journal

/-! ## Reverting -/

namespace Revert

/-- The journal is as it was but for its records. -/
def Untold (r : Recording) (j : Journal) (x : Document τ) : Prop :=
  r.Steady x ∧ j.recording = false ∧ j.SameSession (x.audience.journal r.journal) ∧
    (x.audience.journal r.journal).left = j.left ∧
      (x.audience.journal r.journal).entered = j.entered

theorem Untold.mutation (m : Mutation) :
    Keeps (Untold r j) (m.run : Edit τ Mutation.Outcome) := by
  rintro x ⟨hx, hidle, hsame, hleft, hentered⟩
  have hj := (hx.chain m).journal_of_none (hx.nobody (hsame.1.trans hidle))
  refine ⟨Recording.Steady.mutation m x hx, hidle, ?_⟩
  rw [hj]
  exact ⟨hsame, hleft, hentered⟩

theorem Untold.reduceJournal :
    Keeps (Untold r j) (Edit.reduceJournal r.journal r.policy.prune : Edit τ Reduction) := by
  rintro x ⟨hx, hidle, hsame, hleft, hentered⟩
  obtain ⟨-, -, hj⟩ := Journal.reduce_eq_ok x.forest r.policy.prune
    fun z hz => (Journal.forall_allEarliest hx.journal.recordable z hz).exists_slot hx.sound.toTyped
  refine ⟨Recording.Steady.reduceJournal x hx, hidle, ?_⟩
  rw [reduceJournal_apply]
  dsimp only
  rw [Audience.journal_setJournal_self hx.stored, hj]
  exact ⟨hsame.trans ⟨rfl, rfl, rfl, rfl, rfl⟩, hleft, hentered⟩

end Revert

/-- None of the nodes is created or has left, as far as a revert checks it. -/
def Recording.Quiet (r : Recording) (nodes : List NodeId) (j : Journal) : Prop :=
  r.policy.verify = true → ∀ n ∈ nodes, j.isCreated n = false ∧ n ∉ j.left

/-- **How two reverts compare**, with the journal `j` before them on the first side. They leave
the same forest. They end alike if no unseen node is created or has left; and where one of them
passes its check, it depends on these nodes whether the other one does. -/
structure Recording.AlikeReverts (r : Recording) (unseen : List NodeId) (j : Journal)
    (x y : Except Fault Revert.Report × Document τ) : Prop where
  forest : y.2.forest = x.2.forest
  same : r.Quiet unseen j → y.1 = x.1 ∧ x.2.Rejoined r unseen y.2
  ok_iff : ∀ report, x.1 = .ok report → ((∃ report', y.1 = .ok report') ↔
    (r.policy.verify = true → ∀ n ∈ unseen, n ∈ j.left →
      x.2.forest.isWithinAny n j.roots = true))
  of_ok_iff : ∀ report, y.1 = .ok report → ((∃ report', x.1 = .ok report') ↔
    (r.policy.verify = true → ∀ n ∈ unseen, j.isCreated n = true →
      x.2.forest.isWithinAny n j.roots = false))

/-- Reverts that fail before the check fail alike. -/
theorem Recording.AlikeReverts.of_error (h : x.Rejoined r unseen y) (e : Fault) :
    r.AlikeReverts unseen j (.error e, x) (.error e, y) :=
  ⟨(Document.Rejoined.blind r unseen).forest x y h, fun _ => ⟨rfl, h⟩,
    fun _ hok => absurd hok (by simp), fun _ hok => absurd hok (by simp)⟩

/-- What the check at the end of a revert says, if there is one. -/
def Recording.checked (r : Recording) (z : Document τ) : Except Fault (Nat × List String) :=
  if r.policy.verify then Revert.verify z.forest (z.audience.journal r.journal) else .ok (0, [])

/-- How the checks on both sides compare. -/
theorem Recording.checked_alike (h : x.Rejoined r unseen y) (hx : Revert.Untold r j x) :
    (r.Quiet unseen j → r.checked y = r.checked x) ∧
      (∀ res, r.checked x = .ok res → ((∃ res', r.checked y = .ok res') ↔
        (r.policy.verify = true → ∀ n ∈ unseen, n ∈ j.left →
          x.forest.isWithinAny n j.roots = true))) ∧
      ∀ res, r.checked y = .ok res → ((∃ res', r.checked x = .ok res') ↔
        (r.policy.verify = true → ∀ n ∈ unseen, j.isCreated n = true →
          x.forest.isWithinAny n j.roots = false)) := by
  have hj := h.journal
  obtain ⟨-, -, hsame, hleft, hentered⟩ := hx
  have hcreated : ∀ n, (x.audience.journal r.journal).isCreated n = j.isCreated n := fun n => by
    rw [Journal.isCreated, Journal.wasInitial, hentered, hsame.2.2.2.2]
    rfl
  have heq := fun hquiet => hj.verify_eq (f := x.forest) hquiet
  have hok := hj.verify_ok_iff (f := x.forest)
  have hok' := hj.of_verify_ok_iff (f := x.forest)
  simp only [hcreated, hleft, hsame.roots_eq] at heq hok hok'
  unfold Recording.checked Recording.Quiet
  rw [(Document.Rejoined.blind r unseen).forest x y h]
  cases r.policy.verify with
  | false => simp
  | true =>
    simp only [if_true, true_implies]
    exact ⟨heq, fun res hres => hok ⟨res, hres⟩, fun res hres => hok' ⟨res, hres⟩⟩

/-- What a revert of the given states reports, with what its check said. -/
def Revert.reported (structural plain states : List PriorState) (res : Nat × List String)
    (session : Option TrackedGraph.Session) : Report where
  session := session.map (·.id)
  touched := (FirstSeen.ofList (states.map (·.node))).length
  containment := structural.length
  properties := plain.length
  withdrawn := res.1
  warnings := res.2

/-- The end of a revert: the check, and the journal is cleared. -/
def Recording.finish (r : Recording)
    (report : Nat × List String → Option TrackedGraph.Session → Revert.Report) :
    Edit τ Revert.Report := do
  let j ← Edit.journal r.journal
  let res ← if r.policy.verify then Edit.query fun f => Revert.verify f j else pure (0, [])
  Edit.modifyJournal r.journal (·.forget)
  return report res j.session

variable (report : Nat × List String → Option TrackedGraph.Session → Revert.Report)

theorem Recording.finish_apply (z : Document τ) : r.finish report z =
    match r.checked z with
    | .ok res => (.ok (report res (z.audience.journal r.journal).session), { z with
        audience := z.audience.setJournal r.journal (z.audience.journal r.journal).forget })
    | .error e => (.error e, z) := by
  unfold Recording.finish
  rw [Edit.journal_bind]
  unfold Recording.checked
  split_ifs
  · cases hres : Revert.verify z.forest (z.audience.journal r.journal) with
    | error e => exact Edit.bind_of_error (congrArg (·, z) hres)
    | ok res => exact (Edit.bind_of_ok (congrArg (·, z) hres)).trans rfl
  · rfl

theorem Recording.forest_finish (z : Document τ) : (r.finish report z).2.forest = z.forest := by
  rw [finish_apply]
  cases r.checked z <;> rfl

theorem Recording.finish_ok_iff (z : Document τ) :
    (∃ res, (r.finish report z).1 = .ok res) ↔ ∃ res, r.checked z = .ok res := by
  rw [finish_apply]
  cases r.checked z <;> simp

/-- **The ends of two reverts** compare as the checks do. -/
theorem Recording.alike_finish (h : x.Rejoined r unseen y) (hx : Revert.Untold r j x) :
    r.AlikeReverts unseen j (r.finish report x) (r.finish report y) := by
  obtain ⟨hsame, hok, hok'⟩ := Recording.checked_alike h hx
  refine ⟨?_, fun hquiet => ?_, fun res hres => ?_, fun res hres => ?_⟩
  · rw [forest_finish, forest_finish]
    exact (Document.Rejoined.blind r unseen).forest x y h
  · rw [finish_apply, finish_apply, hsame hquiet, h.journal.session]
    cases r.checked x with
    | error e => exact ⟨rfl, h⟩
    | ok res => exact ⟨rfl, h.setJournal h.journal.forget⟩
  · obtain ⟨said, hsaid⟩ := (finish_ok_iff report x).mp ⟨res, hres⟩
    rw [finish_ok_iff, forest_finish]
    exact hok said hsaid
  · obtain ⟨said, hsaid⟩ := (finish_ok_iff report y).mp ⟨res, hres⟩
    rw [finish_ok_iff, forest_finish]
    exact hok' said hsaid

/-- **Reverting on both sides.** -/
theorem Recording.alike_reverts (h : x.Rejoined r unseen y) (hx : r.Solo x) :
    r.AlikeReverts unseen (x.audience.journal r.journal) (r.revert x) (r.revert y) := by
  have hR := Document.Rejoined.blind (τ := τ) r unseen
  have hbegun : (x.audience.journal r.journal).session.isNone = false := by
    rw [Option.isNone_eq_false_iff]
    exact h.journal.begun
  have herr : ∀ (e : Fault) (x' y' : Document τ), x'.Rejoined r unseen y' →
      r.AlikeReverts unseen (x.audience.journal r.journal) (.error e, x') (.error e, y') :=
    fun e x' y' h' => .of_error h' e
  unfold Recording.revert
  rw [Recording.read_bind, Recording.read_bind, h.journal.recording,
    h.journal.session]
  cases hrec : (x.audience.journal r.journal).recording with
  | true => exact herr _ x y h
  | false =>
    rw [hbegun]
    have huntold : Revert.Untold r (x.audience.journal r.journal) x :=
      ⟨hx.toSteady, hrec, .refl _, rfl, rfl⟩
    show r.AlikeReverts unseen (x.audience.journal r.journal)
      (Revert.run r.policy r.journal x) (Revert.run r.policy r.journal y)
    unfold Revert.run
    -- Up to the check the two go alike, and nobody tells the journal anything.
    refine Respects.bind_ends Document.Rejoined.reduceJournal h ?_ herr
    intro _ x₁ y₁ hx₁ h₁
    have hu₁ : Revert.Untold r (x.audience.journal r.journal) x₁ := by
      have hkept := Revert.Untold.reduceJournal x huntold
      rw [hx₁] at hkept
      exact hkept
    have hstates : (y₁.audience.journal r.journal).allEarliest =
        (x₁.audience.journal r.journal).allEarliest := by
      unfold Journal.allEarliest
      rw [h₁.journal.records]
    rw [Edit.journal_bind, Edit.journal_bind, hstates]
    refine Respects.bind_ends (.query hR _) h₁ ?_ herr
    intro structural x₂ y₂ hx₂ h₂
    obtain rfl : x₁ = x₂ := congrArg Prod.snd hx₂
    refine Respects.bind_ends (.query hR _) h₂ ?_ herr
    intro plain x₃ y₃ hx₃ h₃
    obtain rfl : x₁ = x₃ := congrArg Prod.snd hx₃
    refine Respects.bind_ends ((Respects.compositional hR).writeBack structural plain) h₃ ?_ herr
    intro _ x₄ y₄ hx₄ h₄
    have hu₄ : Revert.Untold r (x.audience.journal r.journal) x₄ := by
      have hkept := Revert.keeps_writeBack Revert.Untold.mutation structural plain x₁ hu₁
      rw [hx₄] at hkept
      exact hkept
    exact Recording.alike_finish
      (Revert.reported structural plain (x₁.audience.journal r.journal).allEarliest) h₄ hu₄

/-! ## Runs -/

/-- The call starts a session anew, and forgets what was recorded before. -/
def Recording.Call.Starts : Call → Prop
  | .start | .startFrom _ => True
  | _ => False

/-- The call reverts what was recorded. -/
def Recording.Call.Reverts : Call → Prop
  | .revert | .undo => True
  | _ => False

namespace Document

theorem Rejoined.undo (h : x.Rejoined r unseen y) (hx : r.Solo x)
    (hquiet : r.Quiet unseen (x.audience.journal r.journal)) :
    (r.undo y).1 = (r.undo x).1 ∧ (r.undo x).2.Rejoined r unseen (r.undo y).2 := by
  unfold Recording.undo
  rw [Recording.read_bind, Recording.read_bind, h.journal.recording]
  cases hrec : (x.audience.journal r.journal).recording with
  | false => exact (Recording.alike_reverts h hx).same hquiet
  | true =>
    obtain ⟨hseat, -⟩ := hx.follows hrec
    have hstop := Recording.stop_apply hrec hseat
    have hsolo := Recording.Solo.stop x hx
    obtain ⟨hres, hstopped⟩ := h.stop hx
    -- Ending the session leaves in the journal what it has noted.
    have hstill : r.Quiet unseen ((r.stop x).2.audience.journal r.journal) := by
      rw [hstop]
      dsimp only
      rw [Audience.journal_left hx.stored]
      exact hquiet
    obtain ⟨hreport, hreverted⟩ := (Recording.alike_reverts hstopped hsolo).same hstill
    have hended : (r.stop x).1 = .ok () := by rw [hstop]
    have hx' : r.stop x = (.ok (), (r.stop x).2) := Prod.ext hended rfl
    have hy' : r.stop y = (.ok (), (r.stop y).2) := Prod.ext (hres.trans hended) rfl
    simp only [if_true]
    rw [Edit.bind_of_ok hx', Edit.bind_of_ok hy']
    exact ⟨hreport, hreverted⟩

/-- What comes of calls that end alike is alike. -/
theorem Rejoined.outcome {α : Type} {call : Edit τ α} (g : α → Recording.Outcome)
    (h : (call y).1 = (call x).1 ∧ (call x).2.Rejoined r unseen (call y).2) :
    ((do return g (← call) : Edit τ Recording.Outcome) y).1 =
        ((do return g (← call) : Edit τ Recording.Outcome) x).1 ∧
      Document.Rejoined r unseen ((do return g (← call) : Edit τ Recording.Outcome) x).2
        ((do return g (← call) : Edit τ Recording.Outcome) y).2 := by
  obtain ⟨hres, hrejoined⟩ := h
  rw [Edit.bind_apply, Edit.bind_apply]
  rcases hcx : call x with ⟨rx, x'⟩
  rcases hcy : call y with ⟨ry, y'⟩
  rw [hcx, hcy] at hres hrejoined
  obtain rfl : ry = rx := hres
  cases ry with
  | ok a => exact ⟨rfl, hrejoined⟩
  | error e => exact ⟨rfl, hrejoined⟩

/-- **Every call that goes on with the session** ends alike on both sides, and keeps them
related; a revert if the check has nothing to tell apart. -/
theorem Rejoined.perform (h : x.Rejoined r unseen y) (hx : r.Solo x) (c : Recording.Call)
    (hstarts : ¬ c.Starts) (hquiet : c.Reverts → r.Quiet unseen (x.audience.journal r.journal)) :
    (r.perform c y).1 = (r.perform c x).1 ∧
      (r.perform c x).2.Rejoined r unseen (r.perform c y).2 := by
  cases c with
  | start => exact absurd trivial hstarts
  | startFrom roots => exact absurd trivial hstarts
  | resume => exact Rejoined.outcome (fun _ => .done) (h.resume hx)
  | stop => exact Rejoined.outcome (fun _ => .done) (h.stop hx)
  | suspend =>
    exact Rejoined.outcome (fun _ => .done) (Rejoined.modify (fun _ _ hj => hj.suspend true) x y h)
  | unsuspend =>
    exact Rejoined.outcome (fun _ => .done) (Rejoined.modify (fun _ _ hj => hj.suspend false) x y h)
  | reduceRunning =>
    refine Rejoined.outcome .reduced ?_
    unfold Recording.reduceRunning
    rw [Recording.read_bind, Recording.read_bind, h.journal.recording]
    exact Respects.ite (.bind (.throw _) fun _ => Rejoined.reduce) Rejoined.reduce x y h
  | reduce => exact Rejoined.outcome .reduced (Rejoined.reduce x y h)
  | revert =>
    exact Rejoined.outcome .reverted ((Recording.alike_reverts h hx).same (hquiet trivial))
  | undo => exact Rejoined.outcome .reverted (h.undo hx (hquiet trivial))

theorem Rejoined.ask (h : x.Rejoined r unseen y) (question : Journal.Question) :
    Document.Rejoined r unseen (r.ask question x).2 (r.ask question y).2 := by
  obtain ⟨a, rfl, ha⟩ := h
  exact ⟨_, rfl, ha.setJournal (ha.journal.answered question)⟩

end Document

/-- **Two runs that differ in one stop and resume** stay related. -/
theorem Document.Rejoined.acted {acts : List Recording.Act} (h : x.Rejoined r unseen y)
    (hx : r.Solo x) (hstarts : ∀ c, .call c ∈ acts → ¬ c.Starts)
    (hquiet : ∀ l c l', acts = l ++ .call c :: l' → c.Reverts →
      r.Quiet unseen ((r.acted x l).audience.journal r.journal)) :
    (r.acted x acts).Rejoined r unseen (r.acted y acts) := by
  induction acts using List.reverseRecOn with
  | nil => exact h
  | append_singleton acts a ih =>
    have hbefore := ih (fun c hc => hstarts c (List.mem_append_left _ hc)) fun l c l' hl =>
      hquiet l c (l' ++ [a]) (by rw [hl]; simp)
    have hsolo : r.Solo (r.acted x acts) := hx.acted fun roots hroots =>
      hstarts _ (List.mem_append_left _ hroots) trivial
    rw [Recording.acted, Recording.acted, List.foldl_append, List.foldl_append]
    cases a with
    | edit m => exact (Respects.mutation (Document.Rejoined.blind r unseen) m _ _ hbefore).2
    | call c =>
      exact (hbefore.perform hsolo c
        (hstarts c (List.mem_append_right _ (List.mem_singleton_self _)))
        (hquiet acts c [] rfl)).2
    | ask question => exact hbefore.ask question

/-! ## Ending a session and resuming it at once -/

/-- **A session is ended and resumed at once**: both calls succeed, and the forest and the
changes are the same from then on. What is answered is the same too, except that created nodes
that were unseen at the time no longer count as created. A revert leaves the same forest, and
its check may end differently over the unseen nodes alone. -/
theorem Recording.stop_resume_acted {declarations : List TypeDeclaration} {schema : Schema}
    {d₀ : Document τ} (hb : Schema.build declarations = .ok schema) (hn : schema.NullContainment)
    (hp : schema.PlainDefaults) (ho : schema.OwningMembers)
    (h₀ : d₀.Reachable schema fun _ _ => True) (hfresh : r.Fresh d₀)
    (hempty : ∀ o, d₀.audience.member? o = none)
    (acts₁ : List Act) (hroot : ∀ roots, .call (.startFrom roots) ∉ acts₁)
    (hrec : ((r.acted d₀ acts₁).audience.journal r.journal).recording = true)
    (hsuspended : ((r.acted d₀ acts₁).audience.journal r.journal).suspended = false)
    (acts₂ : List Act) (hstarts : ∀ c, .call c ∈ acts₂ → ¬ c.Starts)
    (hquiet : ∀ l c l', acts₂ = l ++ .call c :: l' → c.Reverts →
      r.Quiet (r.unseen (r.acted d₀ acts₁))
        ((r.acted (r.acted d₀ acts₁) l).audience.journal r.journal)) :
    let d := r.acted d₀ acts₁
    let x := r.acted d acts₂
    let y := r.acted (r.resume (r.stop d).2).2 acts₂
    let j := x.audience.journal r.journal
    let i := y.audience.journal r.journal
    (r.stop d).1 = .ok () ∧ (r.resume (r.stop d).2).1 = .ok () ∧
      y.forest = x.forest ∧ y.history = x.history ∧
      i.created = j.created.filter (fun n => !(r.unseen d).contains n) ∧
      (∀ n, (i.answers y.forest y.generation n).deleted =
          (j.answers x.forest x.generation n).deleted ∧
        (i.answers y.forest y.generation n).states = (j.answers x.forest x.generation n).states ∧
        (i.answers y.forest y.generation n = j.answers x.forest x.generation n ↔
          ¬ (j.isCreated n = true ∧ n ∈ r.unseen d))) ∧
      r.AlikeReverts (r.unseen d) j (r.revert x) (r.revert y) := by
  intro d x y j i
  obtain ⟨hf₀, hown⟩ := h₀.sound_of_owning hb hn hp ho
  have hd : r.Solo d := (hfresh.solo hf₀ hown hempty).acted hroot
  obtain ⟨hstop, hresume, hrejoined⟩ := hd.rejoins hrec hsuspended
  have hcontinued : ∀ roots, .call (.startFrom roots) ∉ acts₂ := fun roots hmem =>
    hstarts _ hmem trivial
  -- Both sides go on in the same way from the related documents.
  have h : x.Rejoined r (r.unseen d) y := hrejoined.acted hd hstarts hquiet
  have hx : r.Solo x := hd.acted hcontinued
  have hy : r.Solo y := (Solo.resume _ (Solo.stop _ hd)).acted hcontinued
  have hanswers := fun n => hx.journal.answers_eq (n := n)
  have hanswers' := fun n => hy.journal.answers_eq (n := n)
  have hforest : y.forest = x.forest := (Document.Rejoined.blind r _).forest x y h
  have hhistory : y.history = x.history := by
    obtain ⟨a, hya, -⟩ := id h
    rw [hya]
  refine ⟨hstop, hresume, hforest, hhistory, h.journal.created_eq, fun n => ?_,
    Recording.alike_reverts h hx⟩
  rw [hanswers, hanswers', hforest]
  exact h.journal.computed_iff

theorem Outline.spare_fresh : recording.Fresh spare where
  stored := by decide +kernel
  journal := rfl
  alone := fun _ _ h => by cases h
  once := by decide +kernel
  tidy := by
    intro o n _ hears
    have hnobody : spare.audience.subscriptions = {} := by decide +kernel
    rw [Document.Hears, hnobody] at hears
    exact absurd hears (by simp [Subscriptions.has])

/-- A session on the outline with a spare entry. The spare one is filled with a new entry and
comes into the tree, which is noted of its top only. -/
def Outline.filled : List Recording.Act :=
  [.call .start, .edit (.create "Entry"), .edit (.add ⟨2⟩ entries (.node ⟨3⟩)),
    .edit (.add ⟨0⟩ entries (.node ⟨2⟩))]

/-- The new entry moves to the first one, and the session ends. -/
def Outline.emptied : List Recording.Act :=
  [.edit (.remove ⟨2⟩ entries 0), .edit (.add ⟨0⟩ entries (.node ⟨3⟩)), .call .stop]

/-- The new entry is created when it moves, unless the session was ended and resumed before. What
was recorded can be reverted then, and cannot be if it was. -/
theorem Recording.stop_resume_acted_spare :
    let d := Outline.recording.acted Outline.spare Outline.filled
    let x := Outline.recording.acted d Outline.emptied
    let y := Outline.recording.acted (Outline.recording.resume (Outline.recording.stop d).2).2
      Outline.emptied
    (x.audience.journal 0).created = [⟨2⟩, ⟨3⟩] ∧ (y.audience.journal 0).created = [⟨2⟩] ∧
      (∃ report, (Outline.recording.revert x).1 = .ok report) ∧
      ¬ ∃ report, (Outline.recording.revert y).1 = .ok report := by
  intro d x y
  have hcreated : (x.audience.journal 0).created = [⟨2⟩, ⟨3⟩] := by decide +kernel
  have hquiet : ∀ c, .call c ∈ Outline.emptied → c = .stop := by
    intro c hc
    simpa [Outline.emptied] using hc
  obtain ⟨-, -, -, -, hboth, -, hreverts⟩ := Recording.stop_resume_acted
    Outline.build_types (by decide) (by decide) (by decide) Outline.spare_reachable
    Outline.spare_fresh (fun _ => rfl) Outline.filled (by simp [Outline.filled])
    (by decide +kernel) (by decide +kernel) Outline.emptied
    (fun c hc => by rw [hquiet c hc]; exact id)
    (fun l c l' hl hc => by
      obtain rfl := hquiet c (by rw [hl]; simp)
      exact hc.elim)
  have hreverted : ∃ report, (Outline.recording.revert x).1 = .ok report :=
    toOption_isSome_iff.mp (by decide +kernel)
  refine ⟨hcreated, ?_, hreverted, ?_⟩
  · exact hboth.trans (by decide +kernel)
  · obtain ⟨report, hreport⟩ := hreverted
    rw [hreverts.ok_iff report hreport]
    intro hback
    have hout := hback rfl ⟨3⟩ (by decide +kernel) (by decide +kernel)
    exact absurd hout (by decide +kernel)

end TrackedGraph
