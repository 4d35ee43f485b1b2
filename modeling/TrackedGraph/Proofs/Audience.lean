/-
What an announcement does to a recorder.

Asking changes the memory of the observers and nothing else. Telling changes, for each
member told, its own subscriptions and, if it is a recorder, the journal it writes. So of
everything an announcement does a recorder's subscriptions depend only on what it does
itself: on the contents of the children that leave and of those that enter
(`announce_has`). Its journal likewise holds what it records itself, once for each time
it is told (`journal_announce`).
-/
import TrackedGraph.Audience
import TrackedGraph.Proofs.Forest.Lookup
import Mathlib.Logic.Function.Iterate

set_option autoImplicit false

namespace TrackedGraph

variable {τ : Type} {o o' : ObserverId} {n m : NodeId}

/-! ## Subscriptions -/

namespace Subscriptions

variable {s : Subscriptions}

theorem has_iff : s.has o n = true ↔ (n, o) ∈ s.pairs := by
  rw [has, List.contains_iff_mem]

theorem has_subscribe : (s.subscribe o n).2.has o' m = true ↔
    s.has o' m = true ∨ o' = o ∧ m = n := by
  unfold subscribe
  by_cases h : s.has o n = true
  · rw [if_pos h]
    constructor
    · exact .inl
    · rintro (h' | ⟨rfl, rfl⟩)
      · exact h'
      · exact h
  · rw [if_neg h]
    simp only [has_iff, List.mem_append, List.mem_singleton, Prod.mk.injEq, and_comm]

theorem has_unsubscribe : (s.unsubscribe o n).2.has o' m = true ↔
    s.has o' m = true ∧ ¬ (o' = o ∧ m = n) := by
  simp only [unsubscribe, has_iff, List.mem_filter, bne_iff_ne, ne_eq, Prod.mk.injEq]
  exact and_congr_right fun _ => not_congr and_comm

/-- Changes on behalf of one observer are nothing to another. -/
theorem has_changeAll_of_ne (h : o' ≠ o) (changes : List SubscriptionChange) :
    (s.changeAll o changes).has o' m = s.has o' m := by
  unfold changeAll
  induction changes generalizing s with
  | nil => rfl
  | cons c cs ih =>
    rw [List.foldl_cons, ih, Bool.eq_iff_iff]
    cases c with
    | subscribe n =>
      rw [change, has_subscribe]
      simp [h]
    | unsubscribe n =>
      rw [change, has_unsubscribe]
      simp [h]

theorem has_changeAll_subscribe (ns : List NodeId) :
    (s.changeAll o (ns.map .subscribe)).has o m = true ↔ s.has o m = true ∨ m ∈ ns := by
  unfold changeAll
  induction ns generalizing s with
  | nil => simp
  | cons n ns ih =>
    rw [List.map_cons, List.foldl_cons, ih, change, has_subscribe, List.mem_cons, or_assoc]
    simp

theorem has_changeAll_unsubscribe (ns : List NodeId) :
    (s.changeAll o (ns.map .unsubscribe)).has o m = true ↔ s.has o m = true ∧ m ∉ ns := by
  unfold changeAll
  induction ns generalizing s with
  | nil => simp
  | cons n ns ih =>
    rw [List.map_cons, List.foldl_cons, ih, change, has_unsubscribe, List.mem_cons, not_or,
      and_assoc]
    simp

theorem changeAll_append (cs cs' : List SubscriptionChange) :
    s.changeAll o (cs ++ cs') = (s.changeAll o cs).changeAll o cs' :=
  List.foldl_append

theorem has_drop : (s.drop o).2.has o' m = true ↔ o' ≠ o ∧ s.has o' m = true := by
  simp only [drop, has_iff, List.mem_filter, bne_iff_ne, ne_eq, and_comm]

theorem mem_observers : o ∈ s.observers n ↔ s.has o n = true := by
  simp only [observers, has_iff, List.mem_map, List.mem_filter, beq_iff_eq]
  constructor
  · rintro ⟨⟨_, _⟩, ⟨h, rfl⟩, rfl⟩
    exact h
  · intro h
    exact ⟨_, ⟨h, rfl⟩, rfl⟩

/-! ### The order of the observers -/

theorem observers_subscribe : (s.subscribe o n).2.observers m =
    if s.has o n = false ∧ n = m then s.observers m ++ [o] else s.observers m := by
  unfold subscribe observers
  cases s.has o n with
  | true => simp
  | false =>
    by_cases hn : n = m
    · simp [hn]
    · simp [hn]

theorem observers_unsubscribe : (s.unsubscribe o n).2.observers m =
    if n = m then (s.observers m).filter (· != o) else s.observers m := by
  unfold unsubscribe observers
  rw [List.filter_filter]
  split_ifs with hn
  · subst hn
    rw [List.filter_map, List.filter_filter]
    refine congrArg _ (List.filter_congr fun x _ => ?_)
    rw [Bool.eq_iff_iff]
    simp only [Bool.and_eq_true, beq_iff_eq, bne_iff_ne, ne_eq, Function.comp_apply, Prod.ext_iff]
    tauto
  · refine congrArg _ (List.filter_congr fun x _ => ?_)
    rw [Bool.eq_iff_iff]
    simp only [Bool.and_eq_true, beq_iff_eq, bne_iff_ne, ne_eq, Prod.ext_iff]
    exact ⟨And.left, fun hx => ⟨hx, fun heq => hn (heq.1.symm.trans hx)⟩⟩

theorem observers_drop : (s.drop o).2.observers m = (s.observers m).filter (· != o) := by
  unfold drop observers
  rw [List.filter_map, List.filter_filter, List.filter_filter]
  exact congrArg _ (List.filter_congr fun x _ => Bool.and_comm _ _)

/-! ### No subscription twice -/

theorem nodup_observers (h : s.pairs.Nodup) : (s.observers n).Nodup := by
  unfold observers
  refine (List.nodup_map_iff_inj_on (h.filter _)).mpr fun x hx y hy heq => Prod.ext ?_ heq
  have hx := (List.mem_filter.mp hx).2
  have hy := (List.mem_filter.mp hy).2
  rw [eq_of_beq hx, eq_of_beq hy]

theorem nodup_change (h : s.pairs.Nodup) (c : SubscriptionChange) : (s.change o c).pairs.Nodup := by
  cases c with
  | subscribe n =>
    show (s.subscribe o n).2.pairs.Nodup
    unfold subscribe
    by_cases hn : s.has o n = true
    · rw [if_pos hn]
      exact h
    · rw [if_neg hn]
      rw [has_iff] at hn
      exact List.nodup_append.mpr ⟨h, List.nodup_singleton _, fun x hx y hy heq =>
        hn (by rw [← List.mem_singleton.mp hy, ← heq]; exact hx)⟩
  | unsubscribe n => exact h.filter _

theorem nodup_changeAll (h : s.pairs.Nodup) (changes : List SubscriptionChange) :
    (s.changeAll o changes).pairs.Nodup := by
  unfold changeAll
  induction changes generalizing s with
  | nil => exact h
  | cons c cs ih => exact ih (nodup_change h c)

end Subscriptions

/-- **The subscriptions after a planned change**: what leaves is left, then what enters is
joined. -/
theorem Tracking.has_subscriptionChanges {s : Subscriptions} {f : Forest} {p : Tracking.Plan} :
    (s.changeAll o (Tracking.subscriptionChanges f p)).has o m = true ↔
      s.has o m = true ∧ m ∉ p.leaving.flatMap f.contents ∨ m ∈ p.entering.flatMap f.contents := by
  rw [Tracking.subscriptionChanges, Subscriptions.changeAll_append,
    Subscriptions.has_changeAll_subscribe, Subscriptions.has_changeAll_unsubscribe]

/-! ## Asking -/

namespace Audience

variable {a a' : Audience τ} {f : Forest} {N : Notice} {os : List ObserverId} {x : Member τ}
  {k : Nat} {strict : Bool}

theorem ask_memory : (ask f N x a).2 = { a with memory := (ask f N x a).2.memory } := by
  cases x <;> rfl

theorem askAll_memory : (askAll f N os a).2 = { a with memory := (askAll f N os a).2.memory } := by
  induction os generalizing a with
  | nil => rfl
  | cons o os ih =>
    unfold askAll
    cases a.member? o with
    | none => exact ih
    | some x =>
      have hask := ask_memory (a := a) (f := f) (N := N) (x := x)
      rcases h : ask f N x a with ⟨_ | _, a'⟩ <;> simp only [h] at hask ⊢
      · exact hask
      · refine (ih (a := a')).trans ?_
        have hseats : a'.seats = a.seats := by rw [hask]
        have hsubs : a'.subscriptions = a.subscriptions := by rw [hask]
        have hjournals : a'.journals = a.journals := by rw [hask]
        rw [hseats, hsubs, hjournals]

@[simp] theorem member?_askAll : (askAll f N os a).2.member? o = a.member? o := by
  rw [askAll_memory]
  rfl

/-- Where everybody accepts, a recorder that was asked has a plan. -/
theorem plan_of_askAll (h : (askAll f N os a).1 = .ok ()) (ho : o ∈ os)
    (hm : a.member? o = some (.recorder k strict)) : ∃ p, Tracking.plan strict f N = .ok p := by
  induction os generalizing a with
  | nil => exact absurd ho (by simp)
  | cons o' os ih =>
    unfold askAll at h
    rcases List.mem_cons.mp ho with rfl | ho
    · -- The recorder itself was asked, and without a plan it would have refused.
      rw [hm] at h
      cases hp : Tracking.plan strict f N with
      | ok p => exact ⟨p, rfl⟩
      | error e =>
        have : ask f N (.recorder k strict) a = (.error e, a) := by
          simp only [ask, hp]
          rfl
        simp only [this] at h
        exact absurd h (by simp)
    · cases hx : a.member? o' with
      | none =>
        simp only [hx] at h
        exact ih h ho hm
      | some x =>
        simp only [hx] at h
        have hask := ask_memory (a := a) (f := f) (N := N) (x := x)
        rcases hr : ask f N x a with ⟨_ | _, a'⟩ <;> simp only [hr] at hask h
        · exact absurd h (by simp)
        · -- The others were asked after it, of whom none lost its seat.
          refine ih h ho ?_
          rw [hask]
          exact hm

/-! ## Telling -/

@[simp] theorem seats_tell : (tell f N o x a).seats = a.seats := by
  cases x <;> rfl

@[simp] theorem member?_tell : (tell f N o' x a).member? o = a.member? o := by
  unfold member?
  rw [seats_tell]

theorem tellAll_cons : tellAll f N (o :: os) a = tellAll f N os (match a.member? o with
    | none => a
    | some x => tell f N o x a) := rfl

/-- What telling one member after another keeps, telling them all keeps. -/
theorem tellAll_induction {P : Audience τ → Prop}
    (htell : ∀ b, ∀ o ∈ os, ∀ x, b.member? o = some x → P b → P (tell f N o x b)) (h : P a) :
    P (tellAll f N os a) := by
  induction os generalizing a with
  | nil => exact h
  | cons o os ih =>
    rw [tellAll_cons]
    refine ih (fun b o' ho => htell b o' (List.mem_cons_of_mem _ ho)) ?_
    cases hx : a.member? o with
    | none => exact h
    | some x => exact htell a o List.mem_cons_self x hx h

/-- Telling one member leaves the subscriptions of the others alone. -/
theorem has_tell_of_ne (h : o ≠ o') :
    (tell f N o' x a).subscriptions.has o m = a.subscriptions.has o m := by
  cases x with
  | recorder k strict => exact Subscriptions.has_changeAll_of_ne h _
  | observer obs => exact Subscriptions.has_changeAll_of_ne h _

theorem has_tell_recorder {p : Tracking.Plan} (hp : Tracking.plan strict f N = .ok p) :
    (tell f N o (.recorder k strict) a).subscriptions.has o m = true ↔
      a.subscriptions.has o m = true ∧ m ∉ p.leaving.flatMap f.contents ∨
        m ∈ p.entering.flatMap f.contents := by
  rw [← Tracking.has_subscriptionChanges]
  simp only [tell, Tracking.carryOut, hp]

/-- Who is not told keeps its subscriptions. -/
theorem has_tellAll_of_not_mem (h : o ∉ os) :
    (tellAll f N os a).subscriptions.has o m = a.subscriptions.has o m :=
  tellAll_induction (P := fun b => b.subscriptions.has o m = a.subscriptions.has o m)
    (fun _ _ ho _ _ hb => (has_tell_of_ne fun heq => h (by rw [heq]; exact ho)).trans hb) rfl

/-- A recorder that is told follows the plan; being told twice comes to the same. -/
theorem has_tellAll {p : Tracking.Plan} (hm : a.member? o = some (.recorder k strict))
    (hp : Tracking.plan strict f N = .ok p) (ho : o ∈ os) :
    (tellAll f N os a).subscriptions.has o m = true ↔
      a.subscriptions.has o m = true ∧ m ∉ p.leaving.flatMap f.contents ∨
        m ∈ p.entering.flatMap f.contents := by
  induction os generalizing a with
  | nil => exact absurd ho (by simp)
  | cons o' os ih =>
    rw [tellAll_cons]
    by_cases heq : o = o'
    · subst heq
      simp only [hm]
      by_cases ho : o ∈ os
      · rw [ih (by rw [member?_tell]; exact hm) ho, has_tell_recorder hp]
        tauto
      · rw [has_tellAll_of_not_mem ho, has_tell_recorder hp]
    · have ho : o ∈ os := (List.mem_cons.mp ho).resolve_left heq
      cases hx : a.member? o' with
      | none => exact ih hm ho
      | some x =>
        rw [ih (by rw [member?_tell]; exact hm) ho]
        simp only [has_tell_of_ne heq]

/-! ## Both rounds -/

/-- Those who were asked are told if nobody has refused. -/
theorem announce_of_asked (h : a.poll f N = (.ok (), a')) :
    a.announce f N = (.ok (), tellAll f N (a.subscriptions.observers N.node) a') := by
  unfold poll at h
  unfold announce
  dsimp only
  rw [h]

/-- Nobody is told if somebody has refused. -/
theorem announce_of_refused {e : Fault} (h : a.poll f N = (.error e, a')) :
    a.announce f N = (.error e, a') := by
  unfold poll at h
  unfold announce
  dsimp only
  rw [h]

/-- **The answer to an announcement** is given in the first round. -/
theorem fst_announce : (a.announce f N).1 = (a.poll f N).1 := by
  rcases hasked : a.poll f N with ⟨_ | _, _⟩
  · rw [announce_of_refused hasked]
  · rw [announce_of_asked hasked]

theorem announce_eq (h : (a.announce f N).1 = .ok ()) :
    (askAll f N (a.subscriptions.observers N.node) a).1 = .ok () ∧
      (a.announce f N).2 = tellAll f N (a.subscriptions.observers N.node)
        (askAll f N (a.subscriptions.observers N.node) a).2 := by
  have hok : (a.poll f N).1 = .ok () := fst_announce.symm.trans h
  exact ⟨hok, congrArg Prod.snd (announce_of_asked (Prod.ext hok rfl))⟩

theorem announce_error {e : Fault} (h : (a.announce f N).1 = .error e) :
    (a.announce f N).2 = { a with memory := (a.announce f N).2.memory } := by
  rw [announce_of_refused (Prod.ext (fst_announce.symm.trans h) rfl)]
  exact askAll_memory

/-- **What remembering and telling keep, announcing keeps**, whether the change is accepted or
refused. -/
theorem announce_induction {P : Audience τ → Prop}
    (hmemory : ∀ b t, P b → P { b with memory := t })
    (htell : ∀ b, ∀ o ∈ a.subscriptions.observers N.node, ∀ x, b.member? o = some x → P b →
      P (tell f N o x b))
    (h : P a) : P (a.announce f N).2 := by
  cases hr : (a.announce f N).1 with
  | error e =>
    rw [announce_error hr]
    exact hmemory a _ h
  | ok _ =>
    rw [(announce_eq hr).2]
    refine tellAll_induction htell ?_
    rw [askAll_memory]
    exact hmemory a _ h

@[simp] theorem member?_announce : (a.announce f N).2.member? o = a.member? o :=
  announce_induction (P := fun b => b.member? o = a.member? o) (fun _ _ h => h)
    (fun _ _ _ _ _ h => member?_tell.trans h) rfl

/-- **The subscriptions of a recorder after a change** of a node that it is subscribed to. -/
theorem announce_has (h : (a.announce f N).1 = .ok ())
    (hm : a.member? o = some (.recorder k strict)) (hn : a.subscriptions.has o N.node = true) :
    ∃ p, Tracking.plan strict f N = .ok p ∧ ∀ m,
      ((a.announce f N).2.subscriptions.has o m = true ↔
        a.subscriptions.has o m = true ∧ m ∉ p.leaving.flatMap f.contents ∨
          m ∈ p.entering.flatMap f.contents) := by
  obtain ⟨hok, heq⟩ := announce_eq h
  have ho := Subscriptions.mem_observers.mpr hn
  obtain ⟨p, hp⟩ := plan_of_askAll hok ho hm
  refine ⟨p, hp, fun m => ?_⟩
  rw [heq, has_tellAll (by rw [member?_askAll]; exact hm) hp ho, askAll_memory]

/-- A change of any other node is nothing to it. -/
theorem announce_has_of_not (hn : a.subscriptions.has o N.node ≠ true) :
    (a.announce f N).2.subscriptions.has o m = a.subscriptions.has o m := by
  refine announce_induction (P := fun b => b.subscriptions.has o m = a.subscriptions.has o m)
    (fun _ _ h => h) (fun b o' ho x _ hb => (has_tell_of_ne ?_).trans hb) rfl
  rintro rfl
  exact hn (Subscriptions.mem_observers.mp ho)

/-- Whoever does not sit anywhere is not told. -/
theorem announce_has_of_none (h : a.member? o = none) :
    (a.announce f N).2.subscriptions.has o m = a.subscriptions.has o m := by
  refine (announce_induction (P := fun b => b.member? o = none ∧
    b.subscriptions.has o m = a.subscriptions.has o m) (fun _ _ h => h) ?_ ⟨h, rfl⟩).2
  rintro b o' - x hx ⟨hnone, hb⟩
  have hne : o ≠ o' := by
    rintro rfl
    rw [hnone] at hx
    exact absurd hx (by simp)
  exact ⟨member?_tell.trans hnone, (has_tell_of_ne hne).trans hb⟩

/-! ### Audiences that give the same answers -/

section congr

variable {b : Audience τ} {R : Audience τ → Audience τ → Prop}
  (hmember : ∀ a b, R a b → ∀ o ∈ os, b.member? o = a.member? o)
  (hask : ∀ a b, R a b → ∀ x, (ask f N x b).1 = (ask f N x a).1 ∧
    R (ask f N x a).2 (ask f N x b).2)
  (htell : ∀ a b, R a b → ∀ o ∈ os, ∀ x, R (tell f N o x a) (tell f N o x b))

include hmember

include hask in
/-- Members who answer alike, one after another. -/
theorem askAll_congr (h : R a b) : (askAll f N os b).1 = (askAll f N os a).1 ∧
    R (askAll f N os a).2 (askAll f N os b).2 := by
  induction os generalizing a b with
  | nil => exact ⟨rfl, h⟩
  | cons o os ih =>
    have hrest : ∀ a b, R a b → (askAll f N os b).1 = (askAll f N os a).1 ∧
        R (askAll f N os a).2 (askAll f N os b).2 := fun a b h =>
      ih (fun a b h o ho => hmember a b h o (List.mem_cons_of_mem _ ho)) h
    unfold askAll
    rw [hmember a b h o List.mem_cons_self]
    cases a.member? o with
    | none => exact hrest a b h
    | some x =>
      dsimp only
      obtain ⟨hres, hrelated⟩ := hask a b h x
      rcases ha : ask f N x a with ⟨ra, a'⟩
      rcases hb : ask f N x b with ⟨rb, b'⟩
      rw [ha, hb] at hres hrelated
      obtain rfl : rb = ra := hres
      cases rb with
      | ok _ => exact hrest a' b' hrelated
      | error fault => exact ⟨rfl, hrelated⟩

include htell in
theorem tellAll_congr (h : R a b) : R (tellAll f N os a) (tellAll f N os b) := by
  induction os generalizing a b with
  | nil => exact h
  | cons o os ih =>
    have hrest : ∀ a b, R a b → R (tellAll f N os a) (tellAll f N os b) := fun a b h =>
      ih (fun a b h o ho => hmember a b h o (List.mem_cons_of_mem _ ho))
        (fun a b h o ho => htell a b h o (List.mem_cons_of_mem _ ho)) h
    rw [tellAll_cons, tellAll_cons, hmember a b h o List.mem_cons_self]
    cases a.member? o with
    | none => exact hrest a b h
    | some x => exact hrest _ _ (htell a b h o List.mem_cons_self x)

include hask htell in
/-- **Announcing goes alike** where the same members are asked and answer alike. -/
theorem announce_congr (ha : a.subscriptions.observers N.node = os)
    (hb : b.subscriptions.observers N.node = os) (h : R a b) :
    (b.announce f N).1 = (a.announce f N).1 ∧ R (a.announce f N).2 (b.announce f N).2 := by
  obtain ⟨hres, hrelated⟩ := askAll_congr hmember hask h
  unfold announce
  rw [ha, hb]
  dsimp only
  rcases ha : askAll f N os a with ⟨ra, a'⟩
  rcases hb : askAll f N os b with ⟨rb, b'⟩
  rw [ha, hb] at hres hrelated
  obtain rfl : rb = ra := hres
  cases rb with
  | ok _ => exact ⟨rfl, tellAll_congr hmember htell hrelated⟩
  | error fault => exact ⟨rfl, hrelated⟩

end congr

/-! ## Journals -/

theorem journal_of_le (h : a.journals.length ≤ k) : a.journal k = {} := by
  unfold journal
  rw [List.getElem?_eq_none h]
  rfl

theorem journal_setJournal {j : Journal} {i : Nat} : (a.setJournal i j).journal k =
    if i = k ∧ k < a.journals.length then j else a.journal k := by
  unfold journal setJournal
  rw [List.getElem?_set]
  by_cases hi : i = k
  · subst hi
    by_cases hk : i < a.journals.length
    · simp [hk]
    · simp [hk]
  · simp [hi]

/-- The journal that was written. -/
theorem journal_setJournal_self {j : Journal} (hk : k < a.journals.length) :
    (a.setJournal k j).journal k = j :=
  journal_setJournal.trans (if_pos ⟨rfl, hk⟩)

@[simp] theorem length_setJournal {j : Journal} {i : Nat} :
    (a.setJournal i j).journals.length = a.journals.length := List.length_set

/-- Nobody but the member on the seat writes the journal. -/
def WrittenBy (a : Audience τ) (k : Nat) (o : ObserverId) : Prop :=
  ∀ o' strict, a.member? o' = some (.recorder k strict) → o' = o

@[simp] theorem length_journals_tell : (tell f N o x a).journals.length = a.journals.length := by
  cases x with
  | recorder i s => exact List.length_set
  | observer obs => rfl

theorem journal_tell_of_ne (h : ∀ s, x ≠ .recorder k s) :
    (tell f N o x a).journal k = a.journal k := by
  cases x with
  | recorder i s =>
    have hi : i ≠ k := fun heq => h s (by rw [heq])
    refine (journal_setJournal (a := a)).trans ?_
    rw [if_neg fun hik => hi hik.1]
  | observer obs => rfl

theorem journal_tell_recorder {p : Tracking.Plan} (hp : Tracking.plan strict f N = .ok p)
    (hk : k < a.journals.length) :
    (tell f N o (.recorder k strict) a).journal k = Tracking.record N p (a.journal k) := by
  refine (journal_setJournal (a := a)).trans ?_
  rw [if_pos ⟨rfl, hk⟩]
  simp only [hp]

/-- **The journal after a change**: the recorder that writes it records the change once for
each time it is told, and nothing else happens to the journal. -/
theorem journal_tellAll {p : Tracking.Plan} (hm : a.member? o = some (.recorder k strict))
    (hw : a.WrittenBy k o) (hp : o ∈ os → Tracking.plan strict f N = .ok p)
    (hk : k < a.journals.length) :
    (tellAll f N os a).journal k = (Tracking.record N p)^[os.count o] (a.journal k) := by
  induction os generalizing a with
  | nil => rfl
  | cons o' os ih =>
    rw [tellAll_cons]
    by_cases heq : o' = o
    · subst heq
      have hp' := hp List.mem_cons_self
      simp only [hm]
      rw [ih (by rw [member?_tell]; exact hm)
        (fun x s hx => hw x s (by rw [member?_tell] at hx; exact hx)) (fun _ => hp')
        (by rw [length_journals_tell]; exact hk), journal_tell_recorder hp' hk,
        List.count_cons_self, Function.iterate_succ_apply]
    · rw [List.count_cons_of_ne heq]
      have hp' : o ∈ os → Tracking.plan strict f N = .ok p :=
        fun h => hp (List.mem_cons_of_mem _ h)
      cases hx : a.member? o' with
      | none => exact ih hm hw hp' hk
      | some x =>
        -- No other seat belongs to a recorder of this journal.
        have hne : ∀ s, x ≠ .recorder k s := by
          rintro s rfl
          exact heq (hw o' s hx)
        rw [ih (by rw [member?_tell]; exact hm)
          (fun y s hy => hw y s (by rw [member?_tell] at hy; exact hy)) hp'
          (by rw [length_journals_tell]; exact hk), journal_tell_of_ne hne]

/-- A journal that nobody writes stays as it is. -/
theorem journal_announce_of_none (hw : ∀ o s, a.member? o ≠ some (.recorder k s)) :
    (a.announce f N).2.journal k = a.journal k := by
  refine (announce_induction (P := fun b => (∀ o s, b.member? o ≠ some (.recorder k s)) ∧
    b.journal k = a.journal k) (fun _ _ h => h) ?_ ⟨hw, rfl⟩).2
  rintro b o - x hx ⟨hnone, hb⟩
  refine ⟨fun o' s => by rw [member?_tell]; exact hnone o' s, (journal_tell_of_ne ?_).trans hb⟩
  rintro s rfl
  exact hnone o s hx

/-- The journal after a change that was accepted, with the number of times that the recorder
was told. -/
theorem journal_announce_count {p : Tracking.Plan} (h : (a.announce f N).1 = .ok ())
    (hm : a.member? o = some (.recorder k strict)) (hw : a.WrittenBy k o)
    (hp : o ∈ a.subscriptions.observers N.node → Tracking.plan strict f N = .ok p)
    (hk : k < a.journals.length) : (a.announce f N).2.journal k =
      (Tracking.record N p)^[(a.subscriptions.observers N.node).count o] (a.journal k) := by
  rw [(announce_eq h).2, journal_tellAll (by rw [member?_askAll]; exact hm)
    (fun y s hy => hw y s (by rw [member?_askAll] at hy; exact hy)) hp
    (by rw [askAll_memory]; exact hk), askAll_memory]
  rfl

/-- **What a change does to the journal of a recorder**: it is recorded, maybe more than
once, if the recorder is subscribed to the node, and else nothing is. -/
theorem journal_announce (h : (a.announce f N).1 = .ok ())
    (hm : a.member? o = some (.recorder k strict)) (hw : a.WrittenBy k o)
    (hk : k < a.journals.length) :
    (∃ p i, a.subscriptions.has o N.node = true ∧ Tracking.plan strict f N = .ok p ∧
        (a.announce f N).2.journal k = (Tracking.record N p)^[i + 1] (a.journal k)) ∨
      a.subscriptions.has o N.node ≠ true ∧ (a.announce f N).2.journal k = a.journal k := by
  by_cases hn : a.subscriptions.has o N.node = true
  · have ho := Subscriptions.mem_observers.mpr hn
    obtain ⟨p, hp⟩ := plan_of_askAll (announce_eq h).1 ho hm
    obtain ⟨i, hi⟩ := Nat.exists_eq_add_one_of_ne_zero
      (Nat.ne_of_gt (List.count_pos_iff.mpr ho))
    refine .inl ⟨p, i, hn, hp, ?_⟩
    rw [journal_announce_count h hm hw (fun _ => hp) hk, hi]
  · have ho : o ∉ a.subscriptions.observers N.node :=
      fun h => hn (Subscriptions.mem_observers.mp h)
    have hj := journal_announce_count (p := ⟨[], [], default⟩) h hm hw (fun h => absurd h ho) hk
    rw [List.count_eq_zero_of_not_mem ho] at hj
    exact .inr ⟨hn, hj⟩

/-- Where no subscription is held twice, a change is recorded **once**. -/
theorem journal_announce_once (h : (a.announce f N).1 = .ok ())
    (hm : a.member? o = some (.recorder k strict)) (hw : a.WrittenBy k o)
    (hk : k < a.journals.length) (hs : a.subscriptions.pairs.Nodup) :
    (∃ p, a.subscriptions.has o N.node = true ∧ Tracking.plan strict f N = .ok p ∧
        (a.announce f N).2.journal k = Tracking.record N p (a.journal k)) ∨
      a.subscriptions.has o N.node ≠ true ∧ (a.announce f N).2.journal k = a.journal k := by
  rcases journal_announce h hm hw hk with ⟨p, _, hn, hp, -⟩ | hn
  · have hcount : (a.subscriptions.observers N.node).count o = 1 :=
      List.count_eq_one_of_mem (Subscriptions.nodup_observers hs)
        (Subscriptions.mem_observers.mpr hn)
    have hj := journal_announce_count h hm hw (fun _ => hp) hk
    rw [hcount] at hj
    exact .inl ⟨p, hn, hp, hj⟩
  · exact .inr hn

/-- Announcing makes no subscription a second time. -/
theorem nodup_announce (h : a.subscriptions.pairs.Nodup) :
    (a.announce f N).2.subscriptions.pairs.Nodup := by
  refine announce_induction (P := fun b => b.subscriptions.pairs.Nodup) (fun _ _ h => h) ?_ h
  intro b o _ x _ hb
  cases x <;> exact Subscriptions.nodup_changeAll hb _

theorem length_journals_announce :
    (a.announce f N).2.journals.length = a.journals.length :=
  announce_induction (P := fun b => b.journals.length = a.journals.length) (fun _ _ h => h)
    (fun _ _ _ _ _ h => length_journals_tell.trans h) rfl

end Audience

end TrackedGraph
