/-
Undoing a session.

Undoing ends the session, which leaves its journal with nobody to write it, reduces the
journal and brings the states that are left back (`Recording.undo_apply`). A forest
`TreeMatches` an earlier one if the nodes that were below the root are as they were. If
their places are what they were then so is what their slots hold, because a slot that is
not as recorded misses a child that sits elsewhere (`Journal.Covers.slots_match`). So undoing
restores the tree exactly if the states can be resettled so that the nodes of the tree
get their places back.
-/
import TrackedGraph.Proofs.Document.Reverting
import TrackedGraph.Proofs.Document.Shaping

set_option autoImplicit false

namespace TrackedGraph

open Revert (Reverted)

variable {τ : Type} {d d' d₀ d₁ : Document τ} {o o' : ObserverId} {n m root : NodeId}
  {p q : PropertyId} {r : Recording} {j : Journal} {f f' f₀ : Forest} {s : Slot} {loose : Bool}
  {k : Nat} {initial : List NodeId}

/-! ## A tree as it was -/

/-- **The nodes that were below a root are as they were**: their slots match what they held,
and they sit where they sat. The root itself may sit anywhere. -/
structure Forest.TreeMatches (f : Forest) (loose : Bool) (f₀ : Forest) (root : NodeId) : Prop where
  slots : ∀ n ∈ f₀.contents root, ∀ p s, f₀.slot n p = .ok s →
    ∃ s', f.slot n p = .ok s' ∧ s'.Matches loose s
  places : ∀ n ∈ f₀.contents root, n ≠ root → f.place? n = f₀.place? n

/-- A child of a node of the tree is a node of the tree, and it is not the root. -/
theorem Forest.mem_contents_of_under (hf : f.Sound True) (hn : n ∈ f.contents root)
    (hu : f.Under m n) : m ∈ f.contents root ∧ m ≠ root := by
  obtain ⟨hroot, hwithin⟩ := (Forest.mem_contents hf).mp hn
  refine ⟨(Forest.mem_contents hf).mpr ⟨hroot, .head hu hwithin⟩, ?_⟩
  rintro rfl
  exact hf.acyclic.not_within hu hwithin

/-- A node of the tree other than the root sits in a node of the tree. -/
theorem Forest.exists_place_of_mem_contents (hf : f.Sound True) (hn : n ∈ f.contents root)
    (hne : n ≠ root) : ∃ m q, m ∈ f.contents root ∧ f.place? n = some ⟨m, q⟩ := by
  obtain ⟨hroot, hwithin⟩ := (Forest.mem_contents hf).mp hn
  obtain ⟨m, ⟨q, hq⟩, hup⟩ := hwithin.cases_head.resolve_left hne
  exact ⟨m, q, (Forest.mem_contents hf).mpr ⟨hroot, hup⟩, hq⟩

theorem Forest.contains_of_mem_contents (hf : f.Sound True) (hn : n ∈ f.contents root) :
    f.contains n = true := by
  obtain ⟨hroot, hwithin⟩ := (Forest.mem_contents hf).mp hn
  cases hwithin using Relation.ReflTransGen.head_induction_on with
  | refl => exact hroot
  | head hu _ => exact hu.contains

/-- The nodes of the tree have the properties that they had. -/
theorem Forest.feature_of_mem_contents (hf₀ : f₀.Sound True) (hs : f.schema = f₀.schema)
    (ht : ∀ n t, f₀.typeOf n = .ok t → f.typeOf n = .ok t) :
    ∀ n ∈ f₀.contents root, ∀ q, f.feature n q = f₀.feature n q := by
  intro n hn
  obtain ⟨t, htn⟩ := Forest.contains_iff.mp (Forest.contains_of_mem_contents hf₀ hn)
  exact Forest.feature_congr hs ((ht n t htn).trans htn.symm)

section trees

variable (hf₀ : f₀.Sound True) (hf : f.Sound True) (hs : f.schema = f₀.schema)
  (ht : ∀ n t, f₀.typeOf n = .ok t → f.typeOf n = .ok t)

include hf₀ hf hs ht

/-- What the slots of the tree claim is claimed now as it was then. -/
theorem Forest.TreeMatches.under_iff (h : f.TreeMatches loose f₀ root)
    (hn : n ∈ f₀.contents root) : f.Under m n ↔ f₀.Under m n := by
  have hfeature := Forest.feature_of_mem_contents hf₀ hs ht n hn
  constructor
  · rintro ⟨q, hplace⟩
    obtain ⟨p, s', hs', hc⟩ := (hf.linked trivial).listed _ _ _ hplace
    obtain ⟨g, hg⟩ := hf.feature_of_slot _ _ _ hs'
    rw [hfeature] at hg
    obtain ⟨s, hs⟩ := hf₀.slot_of_feature _ _ g hg
    obtain ⟨s'', hs'', hmatch⟩ := h.slots n hn p s hs
    obtain rfl := ok_unique hs' hs''
    rw [hmatch.claims, Forest.claims_congr hfeature] at hc
    exact ⟨q, (hf₀.linked trivial).placed _ _ _ _ _ hs hc⟩
  · rintro hu
    obtain ⟨hm, hne⟩ := Forest.mem_contents_of_under hf₀ hn hu
    obtain ⟨q, hplace⟩ := hu
    exact ⟨q, (h.places m hm hne).trans hplace⟩

/-- **The tree has the same nodes.** -/
theorem Forest.TreeMatches.within_iff (h : f.TreeMatches loose f₀ root)
    (hroot : f₀.contains root = true) : f.Within n root ↔ f₀.Within n root := by
  have hmem : ∀ n, f₀.Within n root → n ∈ f₀.contents root :=
    fun n hn => (Forest.mem_contents hf₀).mpr ⟨hroot, hn⟩
  constructor <;> intro hwithin <;>
    induction hwithin using Relation.ReflTransGen.head_induction_on with
    | refl => exact .refl
    | head hu hb ih => ?_
  · exact .head ((h.under_iff hf₀ hf hs ht (hmem _ ih)).mp hu) ih
  · exact .head ((h.under_iff hf₀ hf hs ht (hmem _ hb)).mpr hu) ih

end trees

/-- **A journal that covers the tree and is reverted**, with the children of the tree in their
places, leaves the slots of the tree as they were: one that is not would miss a child. -/
theorem Journal.Covers.slots_match {tree : NodeId → Prop} (h : j.Covers f loose f₀ tree)
    (hr : Reverted f j.allEarliest f') (hf₀ : f₀.Sound True)
    (hfeature : ∀ n, tree n → ∀ q, f'.feature n q = f₀.feature n q)
    (hplaces : ∀ c n q, tree n → f₀.place? c = some ⟨n, q⟩ → f'.place? c = some ⟨n, q⟩)
    (hn : tree n) (hs : f₀.slot n p = .ok s) : ∃ s', f'.slot n p = .ok s' ∧ s'.Matches loose s := by
  have hholds : ∃ s', s'.Matches loose s ∧ f'.Holds n p s' := by
    rcases h.remembered n p s hn hs with ⟨x, hx, hxn, hxp, hm⟩ | ⟨hnone, now, hnow, hm⟩
    · exact ⟨x.slot, hm, hr n p x.slot (.inl ⟨x, hx, hxn, hxp, rfl⟩)⟩
    · exact ⟨now, hm, hr n p now (.inr ⟨hnone, hnow⟩)⟩
  obtain ⟨s', hm, hs' | ⟨⟨c, q⟩, hc, hastray⟩⟩ := hholds
  · exact ⟨s', hs', hm⟩
  · rw [hm.claims, Forest.claims_congr (hfeature n hn)] at hc
    exact absurd (hplaces c n q hn ((hf₀.linked trivial).placed _ _ _ _ _ hs hc)) hastray

/-- So the tree is as it was, if its nodes are in their places. -/
theorem Journal.Covers.treeMatches (h : j.Covers f loose f₀ (· ∈ f₀.contents root))
    (hr : Reverted f j.allEarliest f') (hf₀ : f₀.Sound True)
    (hfeature : ∀ n ∈ f₀.contents root, ∀ q, f'.feature n q = f₀.feature n q)
    (hplaces : ∀ n ∈ f₀.contents root, n ≠ root → f'.place? n = f₀.place? n) :
    f'.TreeMatches loose f₀ root := by
  refine ⟨fun n hn p s hs => h.slots_match hr hf₀ hfeature (fun c m q hm hplace => ?_) hn hs,
    hplaces⟩
  obtain ⟨hmem, hne⟩ := Forest.mem_contents_of_under hf₀ hm ⟨q, hplace⟩
  exact (hplaces c hmem hne).trans hplace

/-! ## States of the tree alone -/

section states

variable {tree : NodeId → Prop} (h : j.Covers f loose f₀ tree) (hf₀ : f₀.Sound True)
  (hf : f.Sound True) (hfeature : ∀ n, tree n → ∀ q, f.feature n q = f₀.feature n q)

include h hf₀ hfeature

/-- The state of a property of the tree lists the children that it had. -/
theorem Journal.Covers.place?_of_listed {x : PriorState} {y : NodeId × PropertyId}
    (hx : x ∈ j.allEarliest) (hn : tree x.node) (hy : y ∈ f.listed x) :
    f₀.place? y.1 = some ⟨x.node, y.2⟩ := by
  obtain ⟨g, hg, -⟩ := h.of_allEarliest hx
  rw [hfeature _ hn] at hg
  obtain ⟨s, hs⟩ := hf₀.slot_of_feature _ _ g hg
  rcases h.remembered _ _ s hn hs with ⟨z, hz, hzn, hzp, hm⟩ | ⟨hnone, -⟩
  · obtain rfl := h.indexed.eq_of_sameSlot hz hx ⟨hzn, hzp⟩
    have hclaims : f.listed z = f₀.claims z.node z.property s.value :=
      hm.claims.trans (Forest.claims_congr (hfeature _ hn))
    rw [hclaims] at hy
    exact (hf₀.linked trivial).placed _ _ s _ _ hs hy
  · exact absurd ⟨rfl, rfl⟩ (hnone x hx)

/-- A child of the tree that no state lists is claimed by a slot that no state is of. -/
theorem Journal.Covers.exists_slot_of_not_listed {c : NodeId} {q : PropertyId}
    (hq : f₀.place? c = some ⟨n, q⟩) (hn : tree n)
    (hin : ∀ x ∈ j.allEarliest, c ∉ (f.listed x).map Prod.fst) :
    ∃ p now, f.slot n p = .ok now ∧ (c, q) ∈ f.claims n p now.value ∧
      ∀ x ∈ j.allEarliest, ¬ (x.node = n ∧ x.property = p) := by
  obtain ⟨p, s, hs, hclaim⟩ := (hf₀.linked trivial).listed _ _ _ hq
  rcases h.remembered n p s hn hs with ⟨x, hx, rfl, rfl, hm⟩ | ⟨hnone, now, hnow, hm⟩
  · refine absurd ?_ (hin x hx)
    have hclaims : f.listed x = f₀.claims x.node x.property s.value :=
      hm.claims.trans (Forest.claims_congr (hfeature _ hn))
    rw [hclaims]
    exact List.mem_map_of_mem hclaim
  · rw [← Forest.claims_congr (hfeature _ hn), ← hm.claims] at hclaim
    exact ⟨p, now, hnow, hclaim, hnone⟩

include hf

/-- A slot of the tree that no state is of claims what it claimed. -/
theorem Journal.Covers.claims_of_not_recalled (hn : tree n)
    (hnone : ∀ x ∈ j.allEarliest, ¬ (x.node = n ∧ x.property = p)) (hs : f.slot n p = .ok s) :
    ∃ s₀, f₀.slot n p = .ok s₀ ∧ f.claims n p s.value = f₀.claims n p s₀.value := by
  obtain ⟨g, hg⟩ := hf.feature_of_slot _ _ _ hs
  rw [hfeature _ hn] at hg
  obtain ⟨s₀, hs₀⟩ := hf₀.slot_of_feature _ _ g hg
  rcases h.remembered n p s₀ hn hs₀ with ⟨x, hx, hxn, hxp, -⟩ | ⟨-, now, hnow, hm⟩
  · exact absurd ⟨hxn, hxp⟩ (hnone x hx)
  · obtain rfl := ok_unique hs hnow
    exact ⟨s₀, hs₀, hm.claims.trans (Forest.claims_congr (hfeature _ hn))⟩

/-- Once the properties of the states are emptied, what sits in the tree sat there. -/
theorem Journal.Covers.settled : (f.emptied j.allEarliest).Settled f₀ tree := by
  intro c n q hq hn
  rw [Forest.emptied, Forest.place?_free] at hq
  split_ifs at hq with hheld
  obtain ⟨p, s, hs, hc⟩ := (hf.linked trivial).listed _ _ _ hq
  have hnone : ∀ x ∈ j.allEarliest, ¬ (x.node = n ∧ x.property = p) := by
    rintro x hx ⟨rfl, rfl⟩
    refine hheld (List.mem_flatMap.mpr ⟨x, hx, ?_⟩)
    rw [Forest.held_of_slot hs]
    exact List.mem_map_of_mem hc
  obtain ⟨s₀, hs₀, hclaims⟩ := h.claims_of_not_recalled hf₀ hf hfeature hn hnone hs
  rw [hclaims] at hc
  exact (hf₀.linked trivial).placed _ _ _ _ _ hs₀ hc

/-- **If only states of the tree list children**, they can be resettled. What sat in the tree
gets its place back, and what did not is where it is once the states are emptied. -/
theorem Journal.Covers.resettle (htree : ∀ n m, f₀.Under n m → tree m → tree n)
    (hlists : ∀ x ∈ j.allEarliest, ¬ tree x.node → f.listed x = []) :
    ∃ f', f.resettle j.allEarliest = some f' ∧
      (∀ c n q, tree n → f₀.place? c = some ⟨n, q⟩ → f'.place? c = some ⟨n, q⟩) ∧
      ∀ c, (∀ n q, tree n → f₀.place? c ≠ some ⟨n, q⟩) →
        f'.place? c = (f.emptied j.allEarliest).place? c := by
  have hd : ∀ x ∈ j.allEarliest, (((f.emptied j.allEarliest).listed x).map Prod.fst).Nodup := by
    intro x hx
    rw [Forest.listed_emptied]
    exact (h.of_allEarliest hx).nodup_listed
  have hc : ∀ x ∈ j.allEarliest, ∀ y ∈ (f.emptied j.allEarliest).listed x,
      (f.emptied j.allEarliest).contains y.1 = true := by
    intro x hx y hy
    rw [Forest.listed_emptied] at hy
    rw [Forest.contains_emptied]
    exact (h.of_allEarliest hx).contains_of_listed hf.regular hy
  have hsat : ∀ x ∈ j.allEarliest, ∀ y ∈ (f.emptied j.allEarliest).listed x,
      tree x.node ∧ f₀.place? y.1 = some ⟨x.node, y.2⟩ := by
    intro x hx y hy
    rw [Forest.listed_emptied] at hy
    have hn : tree x.node := by
      by_contra hn
      rw [hlists x hx hn] at hy
      exact absurd hy (by simp)
    exact ⟨hn, h.place?_of_listed hf₀ hfeature hx hn hy⟩
  obtain ⟨f', hf', hplace⟩ :=
    (h.settled hf₀ hf hfeature).refill hf₀.acyclic htree hd hc hsat
  refine ⟨f', hf', fun c n q hn hq => ?_, fun c hno => ?_⟩
  · simp only [Forest.listed_emptied] at hplace
    rw [hplace]
    split_ifs with hin
    · exact hq
    -- No state lists the child, so nothing frees it.
    obtain ⟨p, now, hnow, hclaim, hnone⟩ := h.exists_slot_of_not_listed hf₀ hfeature hq hn
      fun x hx hcx => hin (List.mem_flatMap.mpr ⟨x, hx, hcx⟩)
    rw [hf.place?_emptied hnow hclaim hnone]
    exact (hf.linked trivial).placed _ _ _ _ _ hnow hclaim
  · rw [hplace, if_neg]
    intro hin
    obtain ⟨x, hx, hcx⟩ := List.mem_flatMap.mp hin
    obtain ⟨y, hy, rfl⟩ := List.mem_map.mp hcx
    obtain ⟨hn, hq⟩ := hsat x hx y hy
    exact hno _ _ hn hq

end states

/-! ## The check at the end -/

namespace Revert

/-- Every node that was created has to be outside the roots. -/
theorem verifyCreated_ok_iff {roots ns : List NodeId} :
    (∃ k, verifyCreated f roots ns = .ok k) ↔ ∀ n ∈ ns, f.isWithinAny n roots = false := by
  induction ns with
  | nil => exact iff_of_true ⟨0, rfl⟩ (by simp)
  | cons n ns ih =>
    rw [List.forall_mem_cons, ← ih, verifyCreated]
    cases f.isWithinAny n roots with
    | true => exact iff_of_false (by simp) (by simp)
    | false =>
      rw [and_iff_right rfl, if_neg Bool.false_ne_true]
      constructor
      · rintro ⟨_, h⟩
        obtain ⟨k, hk, -⟩ := bind_eq_ok.mp h
        exact ⟨k, hk⟩
      · rintro ⟨k, hk⟩
        exact ⟨k + 1, bind_eq_ok.mpr ⟨k, hk, rfl⟩⟩

/-- Every node that has left has to be within the roots, if it was there from the start. -/
theorem verifyLeft_ok_iff {ns : List NodeId} : (∃ ws, verifyLeft f j ns = .ok ws) ↔
    ∀ n ∈ ns, j.wasInitial n = true → f.isWithinAny n j.roots = true := by
  induction ns with
  | nil => exact iff_of_true ⟨[], rfl⟩ (by simp)
  | cons n ns ih =>
    rw [List.forall_mem_cons, ← ih, verifyLeft]
    split_ifs with hback hinitial
    · refine (and_iff_right fun hinitial => ?_).symm
      -- A node of the start was not created, so it is within the roots.
      simpa [Journal.isCreated, hinitial] using hback
    · refine iff_of_false (by simp) fun h => hback ?_
      rw [h.1 hinitial, Bool.or_true]
    · rw [and_iff_right fun h => absurd h hinitial]
      constructor
      · rintro ⟨_, h⟩
        obtain ⟨ws, hws, -⟩ := bind_eq_ok.mp h
        exact ⟨ws, hws⟩
      · rintro ⟨ws, hws⟩
        exact ⟨_, bind_eq_ok.mpr ⟨ws, hws, rfl⟩⟩

/-- **When the check passes**: no created node is within the roots, and every node that was there
from the start and has left is. -/
theorem verify_ok_iff : (∃ res, verify f j = .ok res) ↔
    (∀ n ∈ j.created, f.isWithinAny n j.roots = false) ∧
      ∀ n ∈ j.left, j.wasInitial n = true → f.isWithinAny n j.roots = true := by
  rw [← verifyCreated_ok_iff, ← verifyLeft_ok_iff, verify]
  constructor
  · rintro ⟨res, h⟩
    obtain ⟨k, hk, h⟩ := bind_eq_ok.mp h
    obtain ⟨ws, hws, -⟩ := bind_eq_ok.mp h
    exact ⟨⟨k, hk⟩, ws, hws⟩
  · rintro ⟨⟨k, hk⟩, ws, hws⟩
    exact ⟨(k, ws), bind_eq_ok.mpr ⟨k, hk, bind_eq_ok.mpr ⟨ws, hws, rfl⟩⟩⟩

/-- **The check passes** if the roots have the contents that they had. -/
theorem verify_ok (h : ∀ n, f.isWithinAny n j.roots = j.wasInitial n) :
    ∃ res, verify f j = .ok res :=
  verify_ok_iff.mpr ⟨fun n hn => (h n).trans (by simpa using (List.mem_filter.mp hn).2),
    fun n _ hn => (h n).trans hn⟩

end Revert

/-! ## Reverting -/

/-- A journal that nobody writes is the same after any number of steps. -/
theorem Step.journal_of_none (h : Step True d d')
    (hw : ∀ o s, d.audience.member? o ≠ some (.recorder k s)) :
    d'.audience.journal k = d.audience.journal k := by
  have hannounce : ∀ N, (Edit.announce N d).2.audience.journal k = d.audience.journal k := by
    intro N
    rw [audience_announce]
    exact Audience.journal_announce_of_none hw
  cases h with
  | asked N =>
    unfold Audience.journal
    rw [journals_poll]
  | refused N e h => exact hannounce N
  | changed N g old new freed taken h hc hw hm => exact hannounce N
  | unwritten N g h hn hg ho hm => exact hannounce N
  | created t n f h => rfl
  | counted i => rfl

theorem Chain.journal_of_none (h : Chain True d d')
    (hw : ∀ o s, d.audience.member? o ≠ some (.recorder k s)) :
    d'.audience.journal k = d.audience.journal k := by
  suffices hs : d'.audience.journal k = d.audience.journal k ∧
      ∀ o, d'.audience.member? o = d.audience.member? o from hs.1
  induction h with
  | refl => exact ⟨rfl, fun _ => rfl⟩
  | tail _ hs ih =>
    have hj := hs.journal_of_none fun o s => by rw [ih.2]; exact hw o s
    exact ⟨hj.trans ih.1, fun o => hs.member?.trans (ih.2 o)⟩

namespace Revert

theorem isStructural_of_recordable {x : PriorState} (hx : f.Recordable x) :
    isStructural f x = .ok (f.structural x) := by
  obtain ⟨g, hg, -⟩ := hx
  unfold isStructural Forest.structural
  rw [hg]
  rfl

/-- **How reverting ends** follows from how bringing the states back ends: after that the tree
is only checked and the journal cleared. -/
theorem run_ends_of {policy : Policy} {Q : Except Fault Report → Document τ → Prop}
    (hf : d.forest.Sound True) (hk : k < d.audience.journals.length)
    (hx : ∀ x ∈ (d.audience.journal k).allEarliest, d.forest.Recordable x)
    (hj : ((d.audience.journal k).reduce d.forest policy.prune).2 = j)
    (h : (writeBack (j.allEarliest.filter d.forest.structural)
        (j.allEarliest.filter (!d.forest.structural ·))).Ends
      { d with audience := d.audience.setJournal k j } fun res d₁ =>
        (∀ e, res = .error e → Q (.error e) d₁) ∧ (res = .ok () →
          (∀ e, policy.verify = true → verify d₁.forest (d₁.audience.journal k) = .error e →
            Q (.error e) d₁) ∧
          ∀ report d', d'.forest = d₁.forest → d'.refusals = d₁.refusals →
            (policy.verify = true → ∃ res, verify d₁.forest (d₁.audience.journal k) = .ok res) →
            Q (.ok report) d')) :
    (run policy k).Ends d Q := by
  obtain ⟨report, hreport, hreduced⟩ := Journal.reduce_eq_ok d.forest policy.prune
    fun x hxk => (hx x hxk).exists_slot hf.toTyped
  rw [hj] at hreduced
  have hreduce : (Edit.reduceJournal k policy.prune : Edit τ Reduction) d =
      (.ok report, { d with audience := d.audience.setJournal k j }) := by
    rw [reduceJournal_apply, hreport, hj]
  have hread : ((d.audience.setJournal k j).journal k) = j := by
    rw [Audience.journal_setJournal_self hk]
  have hrec : ∀ x ∈ j.allEarliest, d.forest.Recordable x :=
    fun x hxj => hx x (Journal.mem_of_mem_allEarliest_of_kept (by rw [hreduced]) hxj)
  unfold run
  rw [Edit.ends_bind_of_ok hreduce, Edit.ends_bind_of_ok (a := j) (by rw [Edit.journal, hread]),
    Edit.ends_query_of_ok
      (Journal.filterM_eq_ok fun x hx => isStructural_of_recordable (hrec x hx)),
    Edit.ends_query_of_ok (Journal.filterM_eq_ok (b := (!d.forest.structural ·)) fun x hx => by
      rw [isStructural_of_recordable (hrec x hx)]; rfl)]
  refine h.bind ?_ fun e d₁ hends => hends.1 e rfl
  rintro ⟨⟩ d₁ ⟨-, hends⟩
  obtain ⟨herr, hok⟩ := hends rfl
  have hjournal : (Edit.journal k : Edit τ Journal) d₁ = (.ok (d₁.audience.journal k), d₁) := rfl
  rw [Edit.ends_bind_of_ok hjournal]
  dsimp only
  split_ifs with hv
  · exact Edit.Ends.query (fun res hres => hok _ _ rfl rfl fun _ => ⟨res, hres⟩)
      fun e he => herr e hv he
  · exact hok _ _ rfl rfl fun hv' => absurd hv' hv

/-- **A tree that matches passes the check**: it has the nodes that it had, and no others. -/
theorem exists_verify (htree : f.TreeMatches loose f₀ root) (hf₀ : f₀.Sound True)
    (hf : f.Sound True) (hs : f.schema = f₀.schema)
    (ht : ∀ n t, f₀.typeOf n = .ok t → f.typeOf n = .ok t) (hroot : f₀.contains root = true)
    (hroots : j.roots = [root]) (hinitial : j.initial = f₀.closure [root]) :
    ∃ res, verify f j = .ok res := by
  refine verify_ok fun n => ?_
  rw [Bool.eq_iff_iff, Forest.isWithinAny_iff hf.acyclic, hroots, Journal.wasInitial, hinitial,
    List.contains_iff_mem, Forest.mem_closure hf₀]
  simp only [List.mem_singleton, exists_eq_left, hroot, true_and]
  exact htree.within_iff hf₀ hf hs ht hroot

/-- **The tree matches exactly if its places are back**, once the states are. -/
theorem treeMatches_iff_resettles {f₁ : Forest}
    (hcovers : j.Covers f loose f₀ (· ∈ f₀.contents root))
    (hrev : Reverted f j.allEarliest f₁) (hsame : f₁.SamePlaces f')
    (hf' : f.Resettles j.allEarliest f') (hf₀ : f₀.Sound True)
    (hfeature : ∀ n ∈ f₀.contents root, ∀ q, f₁.feature n q = f₀.feature n q) :
    f₁.TreeMatches loose f₀ root ↔ ∃ f'', f.Resettles j.allEarliest f'' ∧
      ∀ n ∈ f₀.contents root, n ≠ root → f''.place? n = f₀.place? n := by
  constructor
  · exact fun htree => ⟨f', hf', fun n hn hne => (hsame.place? n).trans (htree.places n hn hne)⟩
  · rintro ⟨f'', hf'', hplaces⟩
    obtain rfl : f' = f'' := Option.some.inj (hf'.2.symm.trans hf''.2)
    exact hcovers.treeMatches hrev hf₀ hfeature
      fun n hn hne => (hsame.place? n).symm.trans (hplaces n hn hne)

/-- **Reverting restores the tree** that the journal covers exactly if its states can be
resettled so that the nodes of the tree get their places back, unless somebody refuses. -/
theorem run_ends {policy : Policy} (hf₀ : f₀.Sound True) (hf : d.forest.Sound True)
    (hs : d.forest.schema = f₀.schema)
    (ht : ∀ n t, f₀.typeOf n = .ok t → d.forest.typeOf n = .ok t)
    (hroot : f₀.contains root = true) (hk : k < d.audience.journals.length)
    (hw : ∀ o s, d.audience.member? o ≠ some (.recorder k s))
    (hroots : (d.audience.journal k).roots = [root])
    (hinitial : (d.audience.journal k).initial = f₀.closure [root])
    (hcovers : (d.audience.journal k).Covers d.forest policy.prune f₀ (· ∈ f₀.contents root)) :
    (run policy k).Ends d fun res d' => d'.refusals = d.refusals →
      ((∃ report, res = .ok report) ∧ d'.forest.TreeMatches policy.prune f₀ root ↔
        ∃ f', d.forest.Resettles
            ((d.audience.journal k).reduce d.forest policy.prune).2.allEarliest f' ∧
          ∀ n ∈ f₀.contents root, n ≠ root → f'.place? n = f₀.place? n) := by
  obtain ⟨report, -, hreduced⟩ := Journal.reduce_eq_ok d.forest policy.prune
    (hcovers.exists_slot hf.toTyped)
  generalize hj : ((d.audience.journal k).reduce d.forest policy.prune).2 = j at hreduced ⊢
  refine run_ends_of hf hk (fun x => hcovers.of_allEarliest) hj ?_
  have hcovers : j.Covers d.forest policy.prune f₀ (· ∈ f₀.contents root) :=
    hcovers.kept (by rw [hreduced])
  have hread : ((d.audience.setJournal k j).journal k) = j := by
    rw [Audience.journal_setJournal_self hk]
  refine (writeBack_ends (d := { d with audience := d.audience.setJournal k j })
    hf (fun x => hcovers.of_allEarliest) hcovers.indexed.pairwise_recalled).mono ?_
  rintro res d₁ ⟨hc, h⟩
  refine ⟨?_, ?_⟩
  · -- To write back fails only where the places cannot be resettled.
    rintro e rfl hquiet
    rcases h hquiet with ⟨f', -, he, -⟩ | ⟨hnone, -⟩
    · exact absurd he (by simp)
    · constructor
      · rintro ⟨⟨report, he⟩, -⟩
        exact absurd he (by simp)
      · rintro ⟨f', hf', -⟩
        exact absurd hf' (hnone f')
  · rintro rfl
    have hs₁ : d₁.forest.schema = f₀.schema := hc.schema.trans hs
    have ht₁ : ∀ n t, f₀.typeOf n = .ok t → d₁.forest.typeOf n = .ok t :=
      fun n t hn => hc.typeOf (ht n t hn)
    -- The check passes a tree that matches, so it stops none that should succeed.
    have hverify : d₁.forest.TreeMatches policy.prune f₀ root →
        ∃ res, verify d₁.forest (d₁.audience.journal k) = .ok res := by
      rw [(hc.journal_of_none hw).trans hread]
      refine fun htree =>
        exists_verify htree hf₀ (hc.sound hf) hs₁ ht₁ hroot ?_ ?_ <;> rw [hreduced]
      · exact hroots
      · exact hinitial
    have htree : d₁.refusals = d.refusals → (d₁.forest.TreeMatches policy.prune f₀ root ↔
        ∃ f', d.forest.Resettles j.allEarliest f' ∧
          ∀ n ∈ f₀.contents root, n ≠ root → f'.place? n = f₀.place? n) := by
      intro hquiet
      obtain ⟨f', hf', -, hsame, hrev⟩ | ⟨-, e, he⟩ := h hquiet
      · exact treeMatches_iff_resettles hcovers hrev hsame hf' hf₀
          (Forest.feature_of_mem_contents hf₀ hs₁ ht₁)
      · exact absurd he (by simp)
    refine ⟨fun e _ he hquiet => ?_, fun report d' hforest hquiet₁ _ hquiet => ?_⟩
    · rw [← htree hquiet]
      constructor
      · rintro ⟨⟨report, h⟩, -⟩
        exact absurd h (by simp)
      · intro hm
        obtain ⟨res, hres⟩ := hverify hm
        exact absurd (he.symm.trans hres) (by simp)
    · rw [← htree (hquiet₁.symm.trans hquiet), hforest]
      exact and_iff_right ⟨report, rfl⟩

end Revert

/-! ## Ending the session -/

namespace Audience

variable {a : Audience τ}

theorem journals_remove : (a.remove o).2.journals = a.journals := by
  unfold remove
  split <;> rfl

theorem member?_remove : (a.remove o).2.member? o' =
    if o' = o then none else a.member? o' := by
  unfold remove member?
  by_cases hlt : o.index < a.seats.length
  · simp only [if_pos hlt, List.getElem?_set]
    by_cases heq : o' = o
    · subst heq
      simp
    · have hne : o.index ≠ o'.index := fun h => heq (by cases o; cases o'; simp_all)
      simp [heq, hne]
  · simp only [if_neg hlt]
    split_ifs with heq
    · rw [heq, List.getElem?_eq_none (Nat.le_of_not_lt hlt)]
      rfl
    · rfl

/-- The audience once a recorder has left it. -/
def left (a : Audience τ) (k : Nat) (o : ObserverId) : Audience τ :=
  (a.remove o).2.setJournal k
    { a.journal k with seat := none, recording := false, suspended := false }

theorem member?_left : (a.left k o).member? o' = if o' = o then none else a.member? o' :=
  member?_remove

theorem length_left : (a.left k o).journals.length = a.journals.length := by
  unfold left
  rw [length_setJournal, journals_remove]

theorem journal_left (hk : k < a.journals.length) : (a.left k o).journal k =
    { a.journal k with seat := none, recording := false, suspended := false } := by
  unfold left
  rw [journal_setJournal, journals_remove, if_pos ⟨rfl, hk⟩]

theorem journal_left_of_ne {i : Nat} (hi : i ≠ k) : (a.left k o).journal i = a.journal i := by
  unfold left
  rw [journal_setJournal, if_neg fun h => hi h.1.symm]
  unfold journal
  rw [journals_remove]

theorem memory_remove : (a.remove o).2.memory = a.memory := by
  unfold remove
  split <;> rfl

theorem memory_left : (a.left k o).memory = a.memory := memory_remove

/-- Somebody who sits there leaves, with what the seat is subscribed to. -/
theorem remove_of_member {x : Member τ} (h : a.member? o = some x) :
    (a.remove o).1 = some x ∧ (a.remove o).2.subscriptions = (a.subscriptions.drop o).2 := by
  have hlt : o.index < a.seats.length := by
    by_contra hle
    rw [member?, List.getElem?_eq_none (Nat.le_of_not_lt hle)] at h
    exact absurd h (by simp)
  rw [remove, if_pos hlt]
  exact ⟨h, rfl⟩

theorem subscriptions_left {x : Member τ} (h : a.member? o = some x) :
    (a.left k o).subscriptions = (a.subscriptions.drop o).2 := (remove_of_member h).2

/-- Nobody writes the journal any more. -/
theorem WrittenBy.left (h : a.WrittenBy k o) (s : Bool) :
    (a.left k o).member? o' ≠ some (.recorder k s) := by
  intro ho'
  rw [member?_left] at ho'
  split_ifs at ho' with hne
  exact hne (h o' s ho')

end Audience

/-- Where no session runs, none is ended. -/
theorem Recording.stop_of_idle (hidle : (d.audience.journal r.journal).recording = false) :
    r.stop d = (.error .notRunning, d) := by
  unfold Recording.stop
  rw [Recording.read_bind, hidle]
  rfl

/-- **Ending a session that runs**: its recorder leaves. -/
theorem Recording.stop_apply (hrunning : (d.audience.journal r.journal).recording = true)
    (hseat : (d.audience.journal r.journal).seat = some o) :
    r.stop d = (.ok (), { d with audience := d.audience.left r.journal o }) := by
  unfold Recording.stop
  rw [Recording.read_bind, hrunning, hseat]
  show (Except.ok (), _) = _
  unfold Audience.left
  simp only [Audience.journal, Audience.journals_remove]

/-- **Undoing a session that runs** ends it and then reverts what its journal records. -/
theorem Recording.undo_apply (hrunning : (d.audience.journal r.journal).Running o initial root)
    (hk : r.journal < d.audience.journals.length) :
    r.undo d = Revert.run r.policy r.journal
      { d with audience := d.audience.left r.journal o } := by
  have hstop := Recording.stop_apply hrunning.recording hrunning.seat
  obtain ⟨id, hsession⟩ := hrunning.session
  have hrevert : r.revert { d with audience := d.audience.left r.journal o } =
      Revert.run r.policy r.journal { d with audience := d.audience.left r.journal o } := by
    unfold Recording.revert
    rw [Recording.read_bind]
    simp only [Audience.journal_left hk, hsession]
    rfl
  unfold Recording.undo
  rw [Recording.read_bind, hrunning.recording]
  exact (Edit.bind_of_ok hstop).trans hrevert

/-! ## Undoing a session -/

/-- The states that undoing brings back. -/
def Recording.toRestore (r : Recording) (d : Document τ) : List PriorState :=
  ((d.audience.journal r.journal).reduce d.forest r.policy.prune).2.allEarliest

/-- **Undoing goes through and leaves the nodes below the root as they were.** -/
def Recording.Undoes (r : Recording) (d : Document τ) (f₀ : Forest) (root : NodeId) : Prop :=
  (∃ report, (r.undo d).1 = .ok report) ∧
    (r.undo d).2.forest.TreeMatches r.policy.prune f₀ root

section logs

variable (hd : r.Logs o f₀ root d) (hf₀ : f₀.Sound True) (hs : d.forest.schema = f₀.schema)
  (ht : ∀ n t, f₀.typeOf n = .ok t → d.forest.typeOf n = .ok t)

include hd hf₀ hs ht

/-- **Undoing a session that logged** restores its tree exactly if the states can be
resettled so that the nodes of the tree get their places back. -/
theorem Recording.Logs.undoes_iff
    (hroot : f₀.contains root = true) (hquiet : (r.undo d).2.refusals = d.refusals) :
    r.Undoes d f₀ root ↔ ∃ f', d.forest.Resettles (r.toRestore d) f' ∧
      ∀ n ∈ f₀.contents root, n ≠ root → f'.place? n = f₀.place? n := by
  have hj : (d.audience.left r.journal o).journal r.journal =
      { d.audience.journal r.journal with seat := none, recording := false, suspended := false } :=
    Audience.journal_left hd.exist
  have hcovers : ((d.audience.left r.journal o).journal r.journal).Covers d.forest r.policy.prune
      f₀ (· ∈ f₀.contents root) := hd.covers.of_records (by rw [hj])
  -- The states are those of the records, which ending the session does not touch.
  have hstates : (((d.audience.left r.journal o).journal r.journal).reduce d.forest
      r.policy.prune).2.allEarliest = r.toRestore d := by
    have hexists := hd.covers.exists_slot hd.follows.sound.toTyped
    obtain ⟨-, -, h⟩ := Journal.reduce_eq_ok d.forest r.policy.prune hexists
    obtain ⟨-, -, h'⟩ := Journal.reduce_eq_ok d.forest r.policy.prune
      (hcovers.exists_slot hd.follows.sound.toTyped)
    unfold Recording.toRestore
    rw [h, h', hj]
    rfl
  unfold Recording.Undoes
  rw [Recording.undo_apply hd.running hd.exist, ← hstates] at *
  refine Revert.run_ends (d := { d with audience := d.audience.left r.journal o }) hf₀
    hd.follows.sound hs ht hroot ?_ (fun o' s => hd.alone.left s) ?_ ?_ hcovers hquiet
  · show r.journal < (Audience.setJournal _ _ _).journals.length
    rw [Audience.length_setJournal, Audience.journals_remove]
    exact hd.exist
  · rw [hj]
    exact hd.running.roots
  · rw [hj]
    exact hd.running.initial

/-- **Where only nodes of the tree have states that list children**, and states at rest can
be restored, the states can be resettled. -/
theorem Recording.Logs.resettles
    (hstates : ∀ x ∈ r.toRestore d, d.forest.CanRestore x ∧
      (x.node ∉ f₀.contents root → d.forest.listed x = [])) :
    ∃ f', d.forest.Resettles (r.toRestore d) f' ∧
      ∀ n ∈ f₀.contents root, n ≠ root → f'.place? n = f₀.place? n := by
  obtain ⟨-, -, hreduced⟩ := Journal.reduce_eq_ok d.forest r.policy.prune
    (hd.covers.exists_slot hd.follows.sound.toTyped)
  have hcovers : ((d.audience.journal r.journal).reduce d.forest r.policy.prune).2.Covers d.forest
      r.policy.prune f₀ (· ∈ f₀.contents root) := hd.covers.kept (by rw [hreduced])
  obtain ⟨f', hf', hplaces, -⟩ := hcovers.resettle hf₀ hd.follows.sound
    (Forest.feature_of_mem_contents hf₀ hs ht)
    (fun a b hu hb => (Forest.mem_contents_of_under hf₀ hb hu).1) fun x hx => (hstates x hx).2
  refine ⟨f', ⟨fun x hx => (hstates x hx).1, hf'⟩, fun n hn hne => ?_⟩
  obtain ⟨m, q, hm, hq⟩ := Forest.exists_place_of_mem_contents hf₀ hn hne
  exact (hplaces n m q hm hq).trans hq.symm

end logs

theorem Recording.start_apply : r.start d = r.startFrom [d.root] d := by
  have hget : (get : Edit τ (Document τ)) d = (.ok d, d) := rfl
  unfold Recording.start
  rw [Edit.bind_of_ok hget]

/-- **Undoing restores the tree that was there at the start** of the session exactly if the
recorded states can be resettled and the nodes of the tree get their places back, if none
of them was written while it was outside of the tree and nobody refuses. This is so if no
node that came into the tree has a recorded state that lists children. -/
theorem Recording.Logged.undo_restores_iff {declarations : List TypeDeclaration} {schema : Schema}
    (hb : Schema.build declarations = .ok schema) (hn : schema.NullContainment)
    (hp : schema.PlainDefaults) (ho : schema.OwningMembers)
    (h₀ : d₀.Reachable schema fun _ _ => True) (hstart : r.start d₀ = (.ok (), d₁))
    (hseat : (d₁.audience.journal r.journal).seat = some o) (hclean : ∀ n, ¬ d₀.Hears o n)
    (halone : ∀ o' s, d₀.audience.member? o' ≠ some (.recorder r.journal s))
    (h : r.Logged d₁ d) (hin : ∀ a ∈ d.history.drop d₁.history.length,
      a.WritesInside d₀.forest d₀.root)
    (hquiet : (r.undo d).2.refusals = d.refusals) :
    (r.Undoes d d₀.forest d₀.root ↔ ∃ f', d.forest.Resettles (r.toRestore d) f' ∧
        ∀ n ∈ d₀.forest.contents d₀.root, n ≠ d₀.root → f'.place? n = d₀.forest.place? n) ∧
      ((∀ x ∈ r.toRestore d, d.forest.CanRestore x ∧
          (x.node ∉ d₀.forest.contents d₀.root → d.forest.listed x = [])) →
        r.Undoes d d₀.forest d₀.root) := by
  have hr : schema.Regular := ⟨Schema.coherent_of_build hb, hn, hp⟩
  have howning : ∀ d' : Document τ, d'.Reachable schema (fun _ _ => True) →
      d'.forest.schema.OwningMembers := fun d' hd' => by
    rw [hd'.schema_eq hr.coherent]
    exact ho
  have hf₀ : d₀.forest.Sound True := h₀.sound hr fun _ d' m hd' _ _ => by
    have hweak : d'.forest.Sound False := hd'.sound hr fun hs => absurd hs id
    exact m.not_overlooks hweak.toTyped (howning d' hd')
  rw [Recording.start_apply] at hstart
  have hroot : d₀.forest.contains d₀.root = true :=
    (Recording.of_startFrom_ok (congrArg Prod.fst hstart)).2 _ (List.mem_singleton_self _)
  obtain ⟨hf₁, -, hd₁⟩ := Recording.startFrom_logs hstart hf₀ hseat hclean halone
  have ho₁ : d₁.forest.schema.OwningMembers := by rw [hf₁]; exact howning d₀ h₀
  obtain ⟨-, hs, ht, l, hl⟩ := h.sound hd₁.follows.sound ho₁
  rw [hl, List.drop_left] at hin
  have hd : r.Logs o d₀.forest d₀.root d := h.logs hd₁ ho₁ hl hin
  rw [hf₁] at hs ht
  have hiff := hd.undoes_iff hf₀ hs ht hroot hquiet
  exact ⟨hiff, fun hstates => hiff.mpr (hd.resettles hf₀ hs ht hstates)⟩

/-- Three entries, one of which is below another one but not below the root. -/
def Outline.aside : Document Unit :=
  blank.after [.create "Entry", .create "Entry", .add ⟨1⟩ entries (.node ⟨2⟩)]

/-- An entry that was taken in, and out of which one was taken, is undone. If it was then put
below the one that was below it, then it would come below itself. -/
theorem Recording.Logged.undo_restores_iff_aside :
    let d₁ := (Outline.recording.start Outline.aside).2
    let d := d₁.after [.add ⟨0⟩ Outline.entries (.node ⟨1⟩), .set ⟨0⟩ Outline.title (.str "A")]
    let d' := d₁.after [.add ⟨0⟩ Outline.entries (.node ⟨1⟩), .remove ⟨1⟩ Outline.entries 0,
      .remove ⟨0⟩ Outline.entries 0, .add ⟨2⟩ Outline.entries (.node ⟨1⟩)]
    Outline.recording.Undoes d Outline.aside.forest ⟨0⟩ ∧
      ¬ Outline.recording.Undoes d' Outline.aside.forest ⟨0⟩ := by
  have hreach : Outline.aside.Reachable Outline.schema fun _ _ => True :=
    .edit _ _ (.edit _ _ (.edit _ _ (Outline.blank_reachable _) trivial) trivial) trivial
  have hstart : Outline.recording.start Outline.aside =
      (.ok (), (Outline.recording.start Outline.aside).2) := Prod.ext rfl rfl
  have hseat : ((Outline.recording.start Outline.aside).2.audience.journal 0).seat = some ⟨0⟩ := by
    decide +kernel
  have hnobody : Outline.aside.audience.subscriptions = {} := by decide +kernel
  have hclean : ∀ n, ¬ Outline.aside.Hears ⟨0⟩ n := fun n h => by
    rw [Document.Hears, hnobody] at h
    exact absurd h (by simp [Subscriptions.has])
  have halone : ∀ o s, Outline.aside.audience.member? o ≠ some (.recorder 0 s) := by
    intro o s h
    have hseats : Outline.aside.audience.seats = [] := rfl
    rw [Audience.member?, hseats] at h
    exact absurd h (by simp)
  have hundo := fun (d : Document Unit)
      (h : Outline.recording.Logged (Outline.recording.start Outline.aside).2 d) =>
    undo_restores_iff Outline.build_types (by decide) (by decide) (by decide) hreach hstart hseat
      hclean halone h
  intro d₁ d d'
  constructor
  · have hrun : Outline.recording.Logged d₁ d := .edit _ _ (.edit _ _ .start)
    have hinside : ∀ a ∈ d.history.drop d₁.history.length,
        a.notice.node ∈ Outline.aside.forest.contents ⟨0⟩ →
          a.notice.node ∈ a.forest.contents ⟨0⟩ := by decide +kernel
    have hquiet : (Outline.recording.undo d).2.refusals = d.refusals := by decide +kernel
    have hstates : ∀ x ∈ Outline.recording.toRestore d, d.forest.CanRestore x ∧
        (x.node ∉ Outline.aside.forest.contents ⟨0⟩ → d.forest.listed x = []) := by
      decide +kernel
    exact (hundo d hrun (fun a ha _ => hinside a ha) hquiet).2 hstates
  · have hrun : Outline.recording.Logged d₁ d' :=
      .edit _ _ (.edit _ _ (.edit _ _ (.edit _ _ .start)))
    have hinside : ∀ a ∈ d'.history.drop d₁.history.length,
        a.notice.node ∈ Outline.aside.forest.contents ⟨0⟩ →
          a.notice.node ∈ a.forest.contents ⟨0⟩ := by decide +kernel
    have hquiet : (Outline.recording.undo d').2.refusals = d'.refusals := by decide +kernel
    have hnone : (d'.forest.resettle (Outline.recording.toRestore d')).isNone = true := by
      decide +kernel
    intro hundoes
    obtain ⟨f', ⟨-, hf'⟩, -⟩ := (hundo d' hrun (fun a ha _ => hinside a ha) hquiet).1.mp hundoes
    rw [hf'] at hnone
    exact absurd hnone (by simp)

end TrackedGraph
