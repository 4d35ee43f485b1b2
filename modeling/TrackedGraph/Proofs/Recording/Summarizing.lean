/-
Reducing in between changes nothing in the end.

A journal that is pruned while a session runs forgets the earliest state of a property that
is back at it, and may note a later one afresh. This is harmless, because the two agree. What
the journal holds is tied here to the changes that the session was told of alone: of each
property that one of them was of, the journal recalls the state before the first of them, or
it is to be pruned and the property is at that state (`Journal.Retains`). Recording and
reducing both keep this. Since nobody reads a journal, reducing it does not alter which
changes there are, so two runs that differ in when the journal was reduced come to hold the
same at the end.

It rests on the session being told of every change of the nodes it tracks: no change severs a
root, and no node is written outside of the tracked tree once it was in it.
-/
import TrackedGraph.Proofs.Document.Respecting
import TrackedGraph.Proofs.Recording.Watching

set_option autoImplicit false

namespace TrackedGraph

variable {τ : Type} {d d' d₀ d₁ : Document τ} {o : ObserverId} {n : NodeId} {p : PropertyId}
  {r : Recording} {j j' : Journal} {f f' : Forest} {s : Slot} {x y : PriorState} {prune : Bool}
  {roots : List NodeId} {l l' : List Announcement} {prior prior' : NodeId → PropertyId → Option Slot}

/-! ## The first change that a session is told of -/

/-- The state of a slot before a change of it that the session is told of. -/
def Announcement.told (roots : List NodeId) (n : NodeId) (p : PropertyId) (a : Announcement) :
    Option Slot :=
  if a.notice.node = n ∧ a.notice.property = p ∧ n ∈ a.forest.closure roots then
    (a.forest.slot n p).toOption
  else none

/-- **The state of a slot before the first change of it** that the session is told of. -/
def Announcement.firstTold (roots : List NodeId) (l : List Announcement) (n : NodeId)
    (p : PropertyId) : Option Slot :=
  l.findSome? (told roots n p)

theorem Announcement.mem_closure_of_firstTold (h : firstTold roots l n p = some s) :
    ∃ a ∈ l, n ∈ a.forest.closure roots := by
  obtain ⟨a, ha, htold⟩ := List.exists_of_findSome?_eq_some h
  unfold told at htold
  split_ifs at htold with hin
  exact ⟨a, ha, hin.2.2⟩

/-! ## What a journal retains -/

/-- Of the property the journal recalls a state that matches the slot; or the journal is to be
pruned and the property agrees with it at present. -/
def Journal.Echoes (j : Journal) (f : Forest) (prune : Bool) (n : NodeId) (p : PropertyId)
    (s : Slot) : Prop :=
  (∃ x ∈ j.allEarliest, x.node = n ∧ x.property = p ∧ x.slot.Matches prune s) ∨
    prune = true ∧ (∀ x ∈ j.allEarliest, ¬ (x.node = n ∧ x.property = p)) ∧
      ∃ now, f.slot n p = .ok now ∧ now.Agrees s

/-- The journal recalls prior states of those properties that have one, and of no others. -/
structure Journal.Retains (j : Journal) (f : Forest) (prune : Bool)
    (prior : NodeId → PropertyId → Option Slot) : Prop where
  indexed : Journal.Indexed j.records
  recordable : ∀ y ∈ j.records, ∀ x ∈ y.2, f.Recordable x
  told : ∀ x ∈ j.allEarliest, ∃ s, prior x.node x.property = some s
  echoes : ∀ n p s, prior n p = some s → j.Echoes f prune n p s

namespace Journal

theorem Retains.of_records (h : j.Retains f prune prior) (hr : j'.records = j.records) :
    j'.Retains f prune prior := by
  have hall := allEarliest_of_records hr
  refine ⟨by rw [hr]; exact h.indexed, by rw [hr]; exact h.recordable, by rw [hall]; exact h.told, ?_⟩
  unfold Echoes
  rw [hall]
  exact h.echoes

/-- The forest may change where the journal recalls a state, and where no state is prior. -/
theorem Retains.of_slots (h : j.Retains f prune prior) (hs : f'.schema = f.schema)
    (ht : ∀ m u, f.typeOf m = .ok u → f'.typeOf m = .ok u)
    (hslot : ∀ n p s now, prior n p = some s →
      (∀ x ∈ j.allEarliest, ¬ (x.node = n ∧ x.property = p)) → f.slot n p = .ok now →
      f'.slot n p = .ok now) : j.Retains f' prune prior := by
  refine ⟨h.indexed, fun y hy x hx => (h.recordable y hy x hx).of_types hs ht, h.told, ?_⟩
  intro n p s hs₀
  rcases h.echoes n p s hs₀ with hx | ⟨hprune, hnone, now, hnow, hm⟩
  · exact .inl hx
  · exact .inr ⟨hprune, hnone, now, hslot n p s now hs₀ hnone hnow, hm⟩

/-- **Recording the present state of a property**, which becomes the prior one if there was
none. -/
theorem Retains.append (h : j.Retains f prune prior) (hx : f.Recordable x)
    (hs : f.slot x.node x.property = .ok x.slot) (hr : j'.records = appendRecord x j.records)
    (hprior : ∀ n p, prior' n p =
      (prior n p).or (if x.node = n ∧ x.property = p then some x.slot else none)) :
    j'.Retains f prune prior' ∧ ∃ y ∈ j'.allEarliest, y.SameSlot x := by
  have hmem : ∀ y, y ∈ j'.allEarliest ↔
      y ∈ j.allEarliest ∨ y = x ∧ ∀ z ∈ j.allEarliest, ¬ z.SameSlot x :=
    fun _ => mem_allEarliest_append h.indexed hr
  have hnew : ∃ s, prior' x.node x.property = some s := by
    rw [hprior, if_pos ⟨rfl, rfl⟩]
    cases prior x.node x.property with
    | none => exact ⟨_, rfl⟩
    | some s => exact ⟨_, rfl⟩
  refine ⟨⟨by rw [hr]; exact h.indexed.append x, fun y hy z hz => ?_, fun y hy => ?_,
    fun n p s hs₀ => ?_⟩, ?_⟩
  · rw [hr] at hy
    exact forall_appendRecord (P := fun _ z => f.Recordable z) h.recordable hx y hy z hz
  · rcases (hmem y).mp hy with hy | ⟨rfl, -⟩
    · obtain ⟨s, hs⟩ := h.told y hy
      exact ⟨s, by rw [hprior, hs]; rfl⟩
    · exact hnew
  · rw [hprior] at hs₀
    cases hold : prior n p with
    | some s' =>
      obtain rfl : s' = s := by simpa [hold] using hs₀
      rcases h.echoes n p s' hold with ⟨y, hy, hyx⟩ | ⟨hprune, hnone, now, hnow, hm⟩
      · exact .inl ⟨y, (hmem y).mpr (.inl hy), hyx⟩
      · by_cases heq : x.node = n ∧ x.property = p
        · -- The state that was dropped is noted afresh, as it is now.
          obtain ⟨rfl, rfl⟩ := heq
          obtain rfl := ok_unique hs hnow
          exact .inl ⟨x, (hmem x).mpr (.inr ⟨rfl, hnone⟩), rfl, rfl, .inr ⟨hprune, hm⟩⟩
        · refine .inr ⟨hprune, fun y hy => ?_, now, hnow, hm⟩
          rcases (hmem y).mp hy with hy | ⟨rfl, -⟩
          · exact hnone y hy
          · exact heq
    | none =>
      rw [hold, Option.none_or] at hs₀
      split_ifs at hs₀ with heq
      obtain rfl := Option.some.inj hs₀
      obtain ⟨rfl, rfl⟩ := heq
      -- It is the first change of the property, so the journal recalls no state of it yet.
      refine .inl ⟨x, (hmem x).mpr (.inr ⟨rfl, fun z hz hsame => ?_⟩), rfl, rfl, .refl _⟩
      obtain ⟨s, hs⟩ := h.told z hz
      rw [hsame.1, hsame.2, hold] at hs
      exact absurd hs (by simp)
  · by_cases hold : ∃ y ∈ j.allEarliest, y.SameSlot x
    · obtain ⟨y, hy, hyx⟩ := hold
      exact ⟨y, (hmem y).mpr (.inl hy), hyx⟩
    · simp only [not_exists, not_and] at hold
      exact ⟨x, (hmem x).mpr (.inr ⟨rfl, hold⟩), rfl, rfl⟩

/-- **Recording a change**, once or more than once. -/
theorem Retains.record {N : Notice} {q : Tracking.Plan} (h : j.Retains f prune prior)
    (hj : j.suspended = false)
    (hx : f.Recordable ⟨N.node, N.property, q.prior.value, q.prior.isSet⟩)
    (hs : f.slot N.node N.property = .ok q.prior)
    (hprior : ∀ n p, prior' n p =
      (prior n p).or (if N.node = n ∧ N.property = p then some q.prior else none)) (i : Nat) :
    j.SameSession ((Tracking.record N q)^[i + 1] j) ∧
      ((Tracking.record N q)^[i + 1] j).Retains f prune prior' ∧
      ∃ y ∈ ((Tracking.record N q)^[i + 1] j).allEarliest,
        y.node = N.node ∧ y.property = N.property := by
  induction i with
  | zero =>
    obtain ⟨hsame, hr⟩ := Journal.record_plan (N := N) (q := q) hj
    exact ⟨hsame, h.append hx hs hr hprior⟩
  | succ i ih =>
    rw [Function.iterate_succ_apply']
    obtain ⟨hsame, hretains, -⟩ := ih
    obtain ⟨hsame', hr⟩ := Journal.record_plan (N := N) (q := q) (hsame.2.1.trans hj)
    refine ⟨hsame.trans hsame', hretains.append hx hs hr fun n p => ?_⟩
    rw [hprior, Option.or_assoc]
    exact congrArg _ Option.or_self.symm

/-- A state that matches a superfluous one is superfluous as well. -/
theorem superfluous_of_matches (hsame : x.SameSlot y) (hm : x.slot.Matches prune y.slot)
    (h : superfluous f prune x = true) : superfluous f prune y = true := by
  obtain ⟨hprune, now, hnow, hagrees⟩ := superfluous_iff.mp h
  rw [hsame.1, hsame.2] at hnow
  refine superfluous_iff.mpr ⟨hprune, now, hnow, ?_⟩
  rcases hm with heq | ⟨-, hm⟩
  · obtain ⟨hv, hset⟩ := Slot.mk.injEq .. ▸ heq
    rw [← hv, ← hset]
    exact hagrees
  · exact Slot.Agrees.trans (b := x.slot) (c := y.slot) hagrees hm

/-- **Reducing** drops states that the properties are back at. -/
theorem Retains.kept (h : j.Retains f prune prior)
    (hr : j'.records = Journal.kept f prune j.records) : j'.Retains f prune prior := by
  have hall := allEarliest_of_kept hr
  refine ⟨by rw [hr]; exact h.indexed.kept, fun y hy x hx => ?_, fun x hx => ?_, fun n p s hs => ?_⟩
  · rw [hr] at hy
    obtain ⟨z, hz, rfl⟩ := List.mem_map.mp (List.mem_filter.mp hy).1
    exact h.recordable z hz x (mem_of_mem_earliest (List.mem_filter.mp hx).1)
  · rw [hall] at hx
    exact h.told x (List.mem_filter.mp hx).1
  · unfold Echoes
    rw [hall]
    rcases h.echoes n p s hs with ⟨x, hx, rfl, rfl, hm⟩ | ⟨hprune, hnone, hnow⟩
    · by_cases hsup : superfluous f prune x = true
      · have hsup' : superfluous f prune ⟨x.node, x.property, s.value, s.isSet⟩ = true :=
          superfluous_of_matches (x := x) ⟨rfl, rfl⟩ hm hsup
        obtain ⟨hprune, now, hnow, hagrees⟩ := superfluous_iff.mp hsup'
        refine .inr ⟨hprune, fun y hy heq => ?_, now, hnow, hagrees⟩
        obtain ⟨hy, hkeep⟩ := List.mem_filter.mp hy
        obtain rfl : y = x := h.indexed.eq_of_sameSlot hy hx heq
        rw [hsup] at hkeep
        simp at hkeep
      · exact .inl ⟨x, List.mem_filter.mpr ⟨hx, by simpa using hsup⟩, rfl, rfl, hm⟩
    · exact .inr ⟨hprune, fun x hx => hnone x (List.mem_filter.mp hx).1, hnow⟩

/-! ## Two journals -/

/-- All states that the journal holds. -/
def states (j : Journal) : List PriorState := j.records.flatMap (·.2)

/-- A reduced journal holds the states that it recalls, and no others. -/
theorem states_of_kept {records : List (NodeId × List PriorState)}
    (hr : j.records = Journal.kept f prune records) : j.states = j.allEarliest := by
  unfold states allEarliest
  refine List.flatMap_congr fun y hy => ?_
  rw [hr] at hy
  obtain ⟨z, -, rfl⟩ := List.mem_map.mp (List.mem_filter.mp hy).1
  exact (earliest_of_pairwise (pairwise_earliest.filter _)).symm

end Journal

/-- The same states, in whatever order and, if `loose`, up to agreement. -/
def PriorState.Alike (loose : Bool) (xs ys : List PriorState) : Prop :=
  (∀ x ∈ xs, ∃ y ∈ ys, y.SameSlot x ∧ y.slot.Matches loose x.slot) ∧
    ∀ y ∈ ys, ∃ x ∈ xs, x.SameSlot y ∧ x.slot.Matches loose y.slot

namespace Journal

/-- A state that one journal keeps is kept by any other that retains the same. -/
theorem Retains.exists_kept (h : j.Retains f prune prior) (h' : j'.Retains f prune prior)
    (hx : x ∈ j.allEarliest) (hkeep : superfluous f prune x = false) :
    ∃ y ∈ j'.allEarliest, superfluous f prune y = false ∧ y.SameSlot x ∧
      y.slot.Matches prune x.slot := by
  obtain ⟨s, hs⟩ := h.told x hx
  have hxs : x.slot.Matches prune s := by
    rcases h.echoes _ _ s hs with ⟨z, hz, hzn, hzp, hm⟩ | ⟨-, hnone, -⟩
    · obtain rfl := h.indexed.eq_of_sameSlot hz hx ⟨hzn, hzp⟩
      exact hm
    · exact absurd ⟨rfl, rfl⟩ (hnone x hx)
  rcases h'.echoes _ _ s hs with ⟨y, hy, hyn, hyp, hm⟩ | ⟨hprune, -, now, hnow, hm⟩
  · have hyx := hm.trans hxs.symm
    refine ⟨y, hy, Bool.eq_false_iff.mpr fun hsup => ?_, ⟨hyn, hyp⟩, hyx⟩
    rw [superfluous_of_matches ⟨hyn, hyp⟩ hyx hsup] at hkeep
    exact absurd hkeep (by simp)
  · -- The other journal has dropped the state, so the property is back at it.
    have hsup : superfluous f prune ⟨x.node, x.property, s.value, s.isSet⟩ = true :=
      superfluous_iff.mpr ⟨hprune, now, hnow, hm⟩
    have hsupx : superfluous f prune x = true :=
      superfluous_of_matches (x := ⟨x.node, x.property, s.value, s.isSet⟩) ⟨rfl, rfl⟩ hxs.symm hsup
    rw [hsupx] at hkeep
    exact absurd hkeep (by simp)

/-- **Two journals that retain the same** are reduced to the same states. -/
theorem Retains.alike {k k' : Journal} (h : j.Retains f prune prior) (h' : j'.Retains f prune prior)
    (hr : k.records = Journal.kept f prune j.records)
    (hr' : k'.records = Journal.kept f prune j'.records) :
    PriorState.Alike prune k.states k'.states := by
  have hmem : ∀ {i i' : Journal}, i'.records = Journal.kept f prune i.records →
      ∀ x, x ∈ i'.states ↔ x ∈ i.allEarliest ∧ superfluous f prune x = false := by
    intro i i' hi x
    rw [states_of_kept hi, allEarliest_of_kept hi, List.mem_filter]
    simp
  constructor
  · intro x hx
    obtain ⟨hx, hkeep⟩ := (hmem hr x).mp hx
    obtain ⟨y, hy, hykeep, hyx⟩ := h.exists_kept h' hx hkeep
    exact ⟨y, (hmem hr' y).mpr ⟨hy, hykeep⟩, hyx⟩
  · intro y hy
    obtain ⟨hy, hkeep⟩ := (hmem hr' y).mp hy
    obtain ⟨x, hx, hxkeep, hxy⟩ := h'.exists_kept h hy hkeep
    exact ⟨x, (hmem hr x).mpr ⟨hx, hxkeep⟩, hxy⟩

end Journal

/-! ## A running session -/

/-- A session runs, nobody else writes its journal, and the journal retains the states before
the first changes that it was told of. -/
structure Recording.Retains (r : Recording) (o : ObserverId) (roots : List NodeId)
    (l : List Announcement) (d : Document τ) : Prop
    extends d.Recorded o r.journal r.policy.strict roots l where
  alone : d.audience.WrittenBy r.journal o
  stored : r.journal < d.audience.journals.length
  recording : (d.audience.journal r.journal).recording = true
  suspended : (d.audience.journal r.journal).suspended = false
  session : (d.audience.journal r.journal).session.isSome = true
  retains : (d.audience.journal r.journal).Retains d.forest r.policy.prune
    (Announcement.firstTold roots l)

/-- As long as no root is severed the recorder hears the whole tracked tree. -/
theorem Document.Recorded.hears_iff_mem_closure {k : Nat} {strict : Bool}
    (hd : d.Recorded o k strict roots l) (h : ∀ a ∈ l, ¬ a.Severs roots) :
    d.Hears o n ↔ n ∈ d.forest.closure roots := by
  rw [hd.tracks.iff, Forest.mem_closure hd.sound]
  constructor
  · rintro ⟨x, hx, -, hwithin⟩
    exact ⟨x, hx, hd.exist x hx, hwithin⟩
  · rintro ⟨x, hx, -, hwithin⟩
    exact ⟨x, hx, hd.heard h x hx, hwithin⟩

/-- A node that is in the tracked tree at the first change is in it at the second one if that
writes it. -/
def Announcement.WritesTracked (roots : List NodeId) (a b : Announcement) : Prop :=
  b.forest.CanWrite b.notice → b.notice.node ∈ a.forest.closure roots →
    b.notice.node ∈ b.forest.closure roots

instance (a b : Announcement) : Decidable (a.WritesTracked roots b) :=
  inferInstanceAs (Decidable (_ → _ → _))

/-- **What an accepted change does to the journal**: it is told of and recorded, or nothing
happens to the journal. -/
theorem Recording.Retains.announce {N : Notice} {g : Feature} (hd : r.Retains o roots l d)
    (h : (Edit.announce N d).1 = .ok ()) (hg : d.forest.feature N.node N.property = .ok g)
    (ho : g.owner = none) (hsevers : ∀ a ∈ l, ¬ a.Severs roots) :
    let j := d.audience.journal r.journal
    let j' := (Edit.announce N d).2.audience.journal r.journal
    j.SameSession j' ∧
      j'.Retains d.forest r.policy.prune (Announcement.firstTold roots (l ++ [⟨N, d.forest⟩])) ∧
      (N.node ∈ d.forest.closure roots →
        ∃ y ∈ j'.allEarliest, y.node = N.node ∧ y.property = N.property) := by
  have htold := (announce_apply N d).1.symm.trans h
  rw [audience_announce]
  have hfirst : ∀ n p, Announcement.firstTold roots (l ++ [⟨N, d.forest⟩]) n p =
      (Announcement.firstTold roots l n p).or (Announcement.told roots n p ⟨N, d.forest⟩) := by
    intro n p
    unfold Announcement.firstTold
    rw [List.findSome?_append, List.findSome?_singleton]
  rcases Audience.journal_announce htold hd.seated hd.alone hd.stored with
    ⟨q, i, hn, hq, hj⟩ | ⟨hn, hj⟩
  · -- The node is tracked, and the change is recorded.
    have hs := (Tracking.plan_eq_ok hq).2
    have hin : N.node ∈ d.forest.closure roots := (hd.hears_iff_mem_closure hsevers).mp hn
    have htold : ∀ n p, Announcement.told roots n p ⟨N, d.forest⟩ =
        if N.node = n ∧ N.property = p then some q.prior else none := by
      intro n p
      unfold Announcement.told
      by_cases heq : N.node = n ∧ N.property = p
      · obtain ⟨rfl, rfl⟩ := heq
        rw [if_pos ⟨rfl, rfl, hin⟩, if_pos ⟨rfl, rfl⟩, hs]
        rfl
      · rw [if_neg fun hall => heq ⟨hall.1, hall.2.1⟩, if_neg heq]
    obtain ⟨hsame, hretains, hrecalls⟩ := hd.retains.record (N := N) (q := q) hd.suspended
      (hd.sound.recordable hg ho hs) hs (fun n p => (hfirst n p).trans (congrArg _ (htold n p))) i
    rw [hj]
    exact ⟨hsame, hretains, fun _ => hrecalls⟩
  · -- The node is not tracked, so the change is not one that is told of.
    have hout : N.node ∉ d.forest.closure roots := fun hin =>
      hn ((hd.hears_iff_mem_closure hsevers).mpr hin)
    have hprior : Announcement.firstTold roots (l ++ [⟨N, d.forest⟩]) =
        Announcement.firstTold roots l := by
      funext n p
      have hnot : ¬ (N.node = n ∧ N.property = p ∧ n ∈ d.forest.closure roots) := by
        rintro ⟨rfl, -, hin⟩
        exact hout hin
      rw [hfirst, Announcement.told, if_neg hnot, Option.or_none]
    rw [hj, hprior]
    exact ⟨.refl _, hd.retains, fun hin => absurd hin hout⟩

/-- **A step of an edit** keeps what the journal retains, as long as it severs no root and
writes no node outside of the tracked tree that was in it before. -/
theorem Step.retains (h : Step True d d') (hd : r.Retains o roots l d)
    (hl : d'.history = d.history ++ l') (hsevers : ∀ a ∈ l, ¬ a.Severs roots)
    (hin : (l ++ l').Pairwise (Announcement.WritesTracked roots)) :
    r.Retains o roots (l ++ l') d' := by
  obtain ⟨l'', hl'', hrecorded⟩ := h.recorded hd.toRecorded
  obtain rfl : l'' = l' := List.append_cancel_left (hl''.symm.trans hl)
  -- The session goes on as it was, so it remains what the journal retains.
  have hgoes : (d.audience.journal r.journal).SameSession (d'.audience.journal r.journal) →
      (d'.audience.journal r.journal).Retains d'.forest r.policy.prune
        (Announcement.firstTold roots (l ++ l'')) → r.Retains o roots (l ++ l'') d' := by
    rintro ⟨hrec, hsus, -, hsess, -⟩ hretains
    exact ⟨hrecorded, fun o' s ho' => hd.alone o' s (h.member? ▸ ho'),
      h.journals_length.symm ▸ hd.stored, hrec.trans hd.recording, hsus.trans hd.suspended,
      (congrArg Option.isSome hsess).trans hd.session, hretains⟩
  have hquiet : d'.history = d.history →
      d'.audience.journal r.journal = d.audience.journal r.journal →
      (d.audience.journal r.journal).Retains d'.forest r.policy.prune
        (Announcement.firstTold roots l) → r.Retains o roots (l ++ l'') d' := by
    intro hhistory hj hretains
    obtain rfl := Document.history_same hl hhistory
    refine hgoes (hj ▸ .refl _) ?_
    rw [hj, List.append_nil]
    exact hretains
  cases h with
  | asked N =>
    refine hquiet (history_poll N) journal_poll ?_
    rw [forest_poll]
    exact hd.retains
  | refused N e h =>
    refine hquiet (history_announce_error h) (journal_refused h) ?_
    rw [forest_announce]
    exact hd.retains
  | changed N g old new freed taken h hc hw hm hdesc =>
    obtain rfl := Document.history_announced hl h rfl
    obtain ⟨hsame, hretains, hrecalls⟩ := hd.announce h hw.feature hw.direct hsevers
    -- A state that was dropped holds now, and it holds after the write unless that is of its
    -- property: but then the journal recalls it again.
    refine hgoes hsame (hretains.of_slots Forest.schema_write
      (fun _ _ => Forest.typeOf_write.trans) ?_)
    intro n p s now hprior hnone hnow
    refine (Forest.slot_write_of_ne fun heq => ?_).trans hnow
    obtain ⟨rfl, rfl⟩ := Prod.mk.injEq .. ▸ heq
    -- The node was in the tracked tree at a change before this one or at this one.
    have htracked : N.node ∈ d.forest.closure roots := by
      obtain ⟨a, ha, hmem⟩ := Announcement.mem_closure_of_firstTold hprior
      rcases List.mem_append.mp ha with ha | ha
      · exact (List.pairwise_append.mp hin).2.2 a ha _ (List.mem_singleton_self _) hc hmem
      · rw [List.mem_singleton.mp ha] at hmem
        exact hmem
    obtain ⟨y, hy, hynode⟩ := hrecalls htracked
    exact hnone y hy hynode
  | unwritten N g h hn hg ho hm ht =>
    obtain rfl := Document.history_announced hl h rfl
    obtain ⟨hsame, hretains, -⟩ := hd.announce h hg ho hsevers
    refine hgoes hsame ?_
    rw [forest_announce]
    exact hretains
  | created t m f h =>
    exact hquiet rfl rfl (hd.retains.of_slots (Forest.schema_create h)
      (fun _ _ => Forest.typeOf_create_of_ok h) fun _ _ _ _ _ _ => Forest.slot_create_of_ok h)
  | counted k => exact hquiet rfl rfl hd.retains

theorem Chain.retains (h : Chain True d d') (hd : r.Retains o roots l d)
    (hl : d'.history = d.history ++ l') (hsevers : ∀ a ∈ l ++ l', ¬ a.Severs roots)
    (hin : (l ++ l').Pairwise (Announcement.WritesTracked roots)) :
    r.Retains o roots (l ++ l') d' := by
  refine Chain.history_induction (P := fun l' d' => (∀ a ∈ l ++ l', ¬ a.Severs roots) →
    (l ++ l').Pairwise (Announcement.WritesTracked roots) → r.Retains o roots (l ++ l') d')
    h hl ?_ ?_ hsevers hin
  · intro _ _
    rw [List.append_nil]
    exact hd
  · intro l₁ d₁ l₂ d₂ _ hs hl₂ ih hsevers hin
    rw [← List.append_assoc] at hsevers hin ⊢
    have hbefore : ∀ a ∈ l ++ l₁, ¬ a.Severs roots := fun a ha =>
      hsevers a (List.mem_append_left _ ha)
    exact hs.retains (ih hbefore (List.pairwise_append.mp hin).1) hl₂ hbefore hin

/-! ## A run of the session -/

/-- The journal may be written if it retains the same. -/
theorem Recording.Retains.set_journal (hd : r.Retains o roots l d)
    (hsame : (d.audience.journal r.journal).SameSession j)
    (hj : j.Retains d.forest r.policy.prune (Announcement.firstTold roots l)) :
    r.Retains o roots l { d with audience := d.audience.setJournal r.journal j } := by
  have hself : (d.audience.setJournal r.journal j).journal r.journal = j :=
    Audience.journal_setJournal_self hd.stored
  obtain ⟨hrec, hsus, -, hsess, -⟩ := hsame
  refine ⟨hd.toRecorded.congr rfl rfl fun _ => Iff.rfl, hd.alone, ?_, ?_, ?_, ?_, ?_⟩
  · rw [Audience.length_setJournal]
    exact hd.stored
  all_goals dsimp only; rw [hself]
  · exact hrec.trans hd.recording
  · exact hsus.trans hd.suspended
  · exact (congrArg Option.isSome hsess).trans hd.session
  · exact hj

/-- **Reducing succeeds** while the session runs. -/
theorem Recording.Retains.reduce_eq (hd : r.Retains o roots l d) : ∃ c j,
    r.reduce d = (.ok c, { d with audience := d.audience.setJournal r.journal j }) ∧
      (d.audience.journal r.journal).SameSession j ∧
      j.records = Journal.kept d.forest r.policy.prune (d.audience.journal r.journal).records := by
  obtain ⟨c, hc, hj⟩ := Journal.reduce_eq_ok (j := d.audience.journal r.journal) d.forest
    r.policy.prune fun x hx =>
      (Journal.forall_allEarliest hd.retains.recordable x hx).exists_slot hd.sound.toTyped
  refine ⟨c, _, (Recording.reduce_apply hd.session).trans (Prod.ext hc rfl), ?_, ?_⟩ <;> rw [hj]
  exact ⟨rfl, rfl, rfl, rfl, rfl⟩

theorem Recording.Retains.perform {c : Recording.Call} (hd : r.Retains o roots l d)
    (hc : c.Reduces) : r.Retains o roots l (r.perform c d).2 := by
  obtain ⟨_, j, hreduce, hsame, hj⟩ := hd.reduce_eq
  have hreduced : r.Retains o roots l (r.reduce d).2 := by
    rw [hreduce]
    exact hd.set_journal hsame (hd.retains.kept hj)
  cases c with
  | reduce =>
    simp only [Recording.perform, Edit.snd_bind_pure]
    exact hreduced
  | reduceRunning =>
    simp only [Recording.perform, Edit.snd_bind_pure]
    rw [Recording.reduceRunning_apply hd.recording]
    exact hreduced
  | _ => exact hc.elim

/-- **However often the journal is reduced**, it retains the states before the first changes
that the session was told of. -/
theorem Recording.Runs.retains (h : r.Runs Recording.Call.Reduces d₁ d)
    (h₁ : r.Retains o roots [] d₁) (ho : d₁.forest.schema.OwningMembers) :
    d.forest.Sound True ∧ d.forest.schema = d₁.forest.schema ∧
      ∃ l, d.history = d₁.history ++ l ∧ ((∀ a ∈ l, ¬ a.Severs roots) →
        l.Pairwise (Announcement.WritesTracked roots) → r.Retains o roots l d) := by
  induction h with
  | start => exact ⟨h₁.sound, rfl, [], (List.append_nil _).symm, fun _ _ => h₁⟩
  | edit d m _ ih =>
    obtain ⟨hsound, hschema, l, hl, hretains⟩ := ih
    have hchain := m.chain hsound fun _ _ =>
      m.not_overlooks hsound.toTyped (by rw [hschema]; exact ho)
    obtain ⟨l', hl'⟩ := hchain.history_le
    refine ⟨hchain.sound hsound, hchain.schema.trans hschema, l ++ l',
      by rw [hl', hl, List.append_assoc], fun hsevers hin => ?_⟩
    -- What is asked of the whole history holds of its beginning.
    have hbefore := hretains (fun a ha => hsevers a (List.mem_append_left _ ha))
      (List.pairwise_append.mp hin).1
    exact hchain.retains hbefore hl' hsevers hin
  | call d c hc _ ih =>
    obtain ⟨hsound, hschema, l, hl, hretains⟩ := ih
    obtain ⟨a, ha⟩ := Recording.perform_frame (r := r) (d := d) hc
    refine ⟨by rw [ha]; exact hsound, by rw [ha]; exact hschema, l, by rw [ha]; exact hl, ?_⟩
    exact fun hsevers hin => (hretains hsevers hin).perform hc
  | ask d question _ ih =>
    obtain ⟨hsound, hschema, l, hl, hretains⟩ := ih
    refine ⟨hsound, hschema, l, hl, fun hsevers hin => ?_⟩
    obtain ⟨_, _, _, _, hanswered, -⟩ := question.answered_frame d.forest d.generation
      (d.audience.journal r.journal)
    have hd := hretains hsevers hin
    refine hd.set_journal ?_ (hd.retains.of_records ?_) <;> rw [hanswered]
    exact ⟨rfl, rfl, rfl, rfl, rfl⟩

/-- **A session that is started** has nothing to retain. -/
theorem Recording.startFrom_retains (h : r.startFrom roots d = (.ok (), d'))
    (hf : d.forest.Sound True) (hseat : (d'.audience.journal r.journal).seat = some o)
    (hclean : ∀ n, ¬ d.Hears o n)
    (halone : ∀ o' s, d.audience.member? o' ≠ some (.recorder r.journal s)) :
    d'.forest = d.forest ∧ r.Retains o roots [] d' := by
  obtain ⟨hforest, -, hd'⟩ := Recording.startFrom_recorded h hf hseat hclean
  have hk : r.journal < d'.audience.journals.length := by
    by_contra hnot
    rw [Audience.journal_of_le (Nat.le_of_not_lt hnot)] at hseat
    exact absurd hseat (by simp)
  obtain ⟨-, seat, hj⟩ := Recording.startFrom_journal h hk
  refine ⟨hforest, hd', fun o' s ho' => ?_, hk, ?_, ?_, ?_, ?_⟩
  · obtain ⟨hidle, hroots⟩ := Recording.of_startFrom_ok (congrArg Prod.fst h)
    rw [Recording.startFrom_apply hidle hroots, Recording.join_apply, Prod.mk.injEq] at h
    obtain ⟨-, rfl⟩ := h
    obtain rfl := Audience.seat_joined hseat
    by_contra hne
    exact halone o' s ((Audience.member?_add_of_ne hne).symm.trans ho')
  all_goals rw [hj]
  · rfl
  · rfl
  · have hnone : ((d.audience.journal r.journal).startSession ⟨d.sessions, roots⟩
        (d.forest.closure roots)).records = [] := rfl
    refine ⟨⟨List.nodup_nil, by simp [hnone]⟩, by simp [hnone], ?_, fun n p s hs => ?_⟩
    · simp [Journal.allEarliest, hnone]
    · exact absurd hs (by simp [Announcement.firstTold])

/-! ## Two runs -/

def Recording.Act.isEdit : Act → Bool
  | .edit _ => true
  | _ => false

/-- Reducing writes the journal and nothing else. -/
theorem Recording.sameBut_perform {c : Recording.Call} (hc : c.Reduces) :
    d.SameBut r.journal (r.perform c d).2 := by
  have hreduce : d.SameBut r.journal (r.reduce d).2 := by
    unfold Recording.reduce
    rw [Recording.read_bind]
    split_ifs
    · exact .refl _ d
    · exact .setJournal
  cases c with
  | reduce =>
    simp only [Recording.perform, Edit.snd_bind_pure]
    exact hreduce
  | reduceRunning =>
    simp only [Recording.perform, Edit.snd_bind_pure]
    unfold Recording.reduceRunning
    rw [Recording.read_bind]
    split_ifs
    · exact .refl _ d
    · exact hreduce
  | _ => exact hc.elim

/-- **Without the reductions** a run goes the same way but for its journal. -/
theorem Recording.sameBut_acted {acts : List Recording.Act} {e : Document τ}
    (hacts : ∀ c, .call c ∈ acts → c.Reduces) (h : d.SameBut r.journal e) :
    (r.acted d acts).SameBut r.journal (r.acted e (acts.filter Act.isEdit)) := by
  induction acts generalizing d e with
  | nil => exact h
  | cons a acts ih =>
    have hrest : ∀ c, .call c ∈ acts → c.Reduces := fun c hc => hacts c (List.mem_cons_of_mem _ hc)
    cases a with
    | edit m => exact ih hrest (Edit.Respects.mutation (Document.SameBut.blind _) m d e h).2
    | call c => exact ih hrest ((sameBut_perform (hacts c List.mem_cons_self)).symm.trans h)
    | ask question => exact ih hrest (Document.SameBut.setJournal.symm.trans h)

/-- **Reducing the journal in between changes nothing in the end**: the final reduction
succeeds and leaves the same states. -/
theorem Recording.reduce_acted {declarations : List TypeDeclaration} {schema : Schema}
    (hb : Schema.build declarations = .ok schema) (hn : schema.NullContainment)
    (hp : schema.PlainDefaults) (ho : schema.OwningMembers)
    (h₀ : d₀.Reachable schema fun _ _ => True)
    (hstart : r.startFrom roots d₀ = (.ok (), d₁))
    (hseat : (d₁.audience.journal r.journal).seat = some o) (hclean : ∀ n, ¬ d₀.Hears o n)
    (halone : ∀ o' s, d₀.audience.member? o' ≠ some (.recorder r.journal s))
    (acts : List Act) (hacts : ∀ c, .call c ∈ acts → c.Reduces)
    (hsevers : ∀ a ∈ (r.acted d₁ acts).history.drop d₁.history.length, ¬ a.Severs roots)
    (hin : ((r.acted d₁ acts).history.drop d₁.history.length).Pairwise
      (Announcement.WritesTracked roots)) :
    let d := r.acted d₁ acts
    let e := r.acted d₁ (acts.filter Act.isEdit)
    e.forest = d.forest ∧ e.history = d.history ∧
      (∃ c, (r.reduce d).1 = .ok c) ∧ (∃ c, (r.reduce e).1 = .ok c) ∧
      PriorState.Alike r.policy.prune ((r.reduce d).2.audience.journal r.journal).states
        ((r.reduce e).2.audience.journal r.journal).states := by
  intro d e
  obtain ⟨hf₀, hown⟩ := h₀.sound_of_owning hb hn hp ho
  obtain ⟨hf₁, h₁⟩ := Recording.startFrom_retains hstart hf₀ hseat hclean halone
  rw [← hf₁] at hown
  obtain ⟨a, he, -⟩ := Recording.sameBut_acted hacts (Document.SameBut.refl r.journal d₁)
  have hforest : e.forest = d.forest := by rw [show e = _ from he]
  have hhistory : e.history = d.history := by rw [show e = _ from he]
  obtain ⟨-, -, l, hl, hretains⟩ := (Recording.runs_acted hacts).retains h₁ hown
  have hedits : r.Runs Recording.Call.Reduces d₁ e :=
    Recording.runs_acted fun c hc => hacts c (List.mem_filter.mp hc).1
  obtain ⟨-, -, l', hl', hretains'⟩ := hedits.retains h₁ hown
  obtain rfl : l' = l := List.append_cancel_left (hl'.symm.trans (hhistory.trans hl))
  rw [hl, List.drop_left] at hsevers hin
  have hd := hretains hsevers hin
  have he := hretains' hsevers hin
  obtain ⟨c, j, hc, -, hj⟩ := hd.reduce_eq
  obtain ⟨c', j', hc', -, hj'⟩ := he.reduce_eq
  refine ⟨hforest, hhistory, ⟨c, congrArg Prod.fst hc⟩, ⟨c', congrArg Prod.fst hc'⟩, ?_⟩
  have hjd : (r.reduce d).2.audience.journal r.journal = j := by
    rw [show r.reduce d = _ from hc]
    exact Audience.journal_setJournal_self hd.stored
  have hje : (r.reduce e).2.audience.journal r.journal = j' := by
    rw [show r.reduce e = _ from hc']
    exact Audience.journal_setJournal_self he.stored
  have hretained := he.retains
  rw [show (r.acted d₁ (acts.filter Act.isEdit)).forest = d.forest from hforest] at hretained hj'
  rw [hjd, hje]
  exact hd.retains.alike hretained hj hj'

/-- The session over both entries of an outline is started by a recorder that hears nothing yet. -/
theorem Outline.nested_starts :
    let d := blank.after [.create "Entry", .add ⟨0⟩ entries (.node ⟨1⟩)]
    d.Reachable schema (fun _ _ => True) ∧ recording.startFrom [⟨0⟩, ⟨1⟩] d = (.ok (), nested) ∧
      (∀ n, ¬ d.Hears ⟨0⟩ n) ∧ ∀ o s, d.audience.member? o ≠ some (.recorder 0 s) := by
  intro d
  have hnobody : d.audience.subscriptions = {} := by decide +kernel
  have hseats : d.audience.seats = [] := rfl
  refine ⟨.edit _ _ (.edit _ _ (Outline.blank_reachable _) trivial) trivial, Prod.ext rfl rfl,
    fun n h => ?_, fun o s h => ?_⟩
  · rw [Document.Hears, hnobody] at h
    exact absurd h (by simp [Subscriptions.has])
  · rw [Audience.member?, hseats] at h
    exact absurd h (by simp)

/-- A title is set, unset and set again. Whether or not the journal is reduced while the title
is back at its prior state, one state is left in the end. -/
theorem Recording.reduce_acted_nested :
    let acts : List Act := [.edit (.set ⟨1⟩ Outline.title (.str "A")),
      .edit (.unset ⟨1⟩ Outline.title), .call .reduceRunning,
      .edit (.set ⟨1⟩ Outline.title (.str "B"))]
    let d := Outline.recording.acted Outline.nested acts
    let e := Outline.recording.acted Outline.nested (acts.filter Act.isEdit)
    (d.audience.journal 0).states.length = 1 ∧ (e.audience.journal 0).states.length = 3 ∧
      PriorState.Alike true ((Outline.recording.reduce d).2.audience.journal 0).states
        ((Outline.recording.reduce e).2.audience.journal 0).states := by
  intro acts d e
  obtain ⟨hreach, hstart, hclean, halone⟩ := Outline.nested_starts
  have hacts : ∀ c, .call c ∈ acts → c.Reduces := by
    intro c hc
    obtain rfl : c = .reduceRunning := by simpa [acts] using hc
    trivial
  refine ⟨by decide +kernel, by decide +kernel, ?_⟩
  exact (Recording.reduce_acted (o := ⟨0⟩) Outline.build_types (by decide) (by decide) (by decide)
    hreach hstart (by decide +kernel) hclean halone acts hacts (by decide +kernel)
    (by decide +kernel)).2.2.2.2

end TrackedGraph
