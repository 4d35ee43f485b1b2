/-
Edits do not notice recordings.

The same is done to two documents from outside: edits, and observers that come, go and subscribe.
One of them is accompanied by recordings, which start, stop, suspend, are reduced and asked at any
time, but not reverted. If the recordings mind no read-only property and the observers do not care
where they sit, then everything goes the same in both, call by call
(`Document.Accompanied.unnoticed`). Observers may be of any kind otherwise: they refuse changes,
remember what they were told, and change their subscriptions when they are told of a change.

That a recorder accepts whatever edits announce needs properties that exist and values that can be
read, and edits announce nothing else, whatever the schema. But a recorder also walks through the
contents of the children that come and go. Where a default lists a child, an unset may close a
circle of containers, and the walk of a recorder does not come back from it. So defaults list no
child here, and all walks in the forests that the recorders are shown end.
-/
import TrackedGraph.Proofs.Document.Overhearing
import TrackedGraph.Proofs.Document.Walking
import TrackedGraph.Proofs.Recording.Refusing

set_option autoImplicit false

namespace TrackedGraph

variable {τ : Type} {a b : Audience τ} {d e : Document τ} {o o' o₁ : ObserverId}
  {σ : ObserverId → ObserverId} {r : Recording} {rs : List Recording} {tracked : List NodeId}
  {schema : Schema}

/-! ## Coming and going -/

namespace Audience.Overheard

variable (h : a.Overheard σ b)

include h

/-- Journals may be written and added. -/
theorem of_same {c : Audience τ} (hseats : c.seats = b.seats)
    (hsubscriptions : c.subscriptions = b.subscriptions) (hmemory : c.memory = b.memory) :
    a.Overheard σ c := by
  cases b
  cases c
  dsimp only at hseats hsubscriptions hmemory
  subst hseats hsubscriptions hmemory
  exact ⟨h.memory, h.seated, h.apart, h.lenient, h.vacant, h.matched⟩

theorem joined (hlenient : r.policy.strict = false) : a.Overheard σ (b.joined r tracked) := by
  have hfree : b.member? (b.add (.recorder r.journal r.policy.strict)).1 = none := member?_add_free
  have hmember : ∀ o', (b.joined r tracked).member? o' =
      if o' = (b.add (.recorder r.journal r.policy.strict)).1 then
        some (.recorder r.journal r.policy.strict) else b.member? o' := fun _ => member?_joined_eq
  have hsubs : (b.joined r tracked).subscriptions = b.subscriptions.changeAll
      (b.add (.recorder r.journal r.policy.strict)).1 (tracked.map .subscribe) :=
    subscriptions_joined
  generalize (b.add (.recorder r.journal r.policy.strict)).1 = o at hfree hmember hsubs
  refine h.listening memory_joined (fun o' y => ?_) (fun o' k s ho' => ?_) (fun o' n ho' => ?_)
    fun n => ?_
  · -- Only the free seat is taken, and no recorder counts among the observers.
    rw [hmember]
    split_ifs with heq
    · rw [heq, hfree]
      simp
    · exact Iff.rfl
  · rw [hmember] at ho'
    split_ifs at ho'
    · obtain ⟨-, rfl⟩ := Member.recorder.inj (Option.some.inj ho')
      exact hlenient
    · exact h.lenient o' k s ho'
  · rw [hmember] at ho'
    split_ifs at ho' with hne
    rw [hsubs, Subscriptions.has_changeAll_of_ne hne]
    exact h.vacant o' n ho'
  · rw [hsubs]
    exact Subscriptions.filter_observers_changeAll (hasObserver_of_free hfree) _

theorem left {k : Nat} {s : Bool} (ho : b.member? o = some (.recorder k s)) :
    a.Overheard σ (b.left k o) := by
  refine h.listening memory_left (fun o' y => ?_) (fun o' k' s' ho' => ?_) (fun o' n ho' => ?_)
    fun n => ?_
  · -- The seat that gets free was a recorder's, so no observer lost it.
    rw [member?_left]
    split_ifs with hne
    · rw [hne, ho]
      simp
    · exact Iff.rfl
  · rw [member?_left] at ho'
    split_ifs at ho'
    exact h.lenient o' k' s' ho'
  · rw [member?_left] at ho'
    rw [subscriptions_left ho, Bool.eq_false_iff, ne_eq, Subscriptions.has_drop, not_and]
    intro hne
    rw [if_neg hne] at ho'
    rw [h.vacant o' n ho']
    simp
  · rw [subscriptions_left ho, Subscriptions.observers_drop]
    exact Subscriptions.filter_ne (hasObserver_of_recorder ho) _

/-- The seats that are taken are not free in either. -/
theorem ne_of_free (hfree : a.member? o = none) (hfree' : b.member? o' = none)
    (ho₁ : a.isSeated o₁ = true) : o₁ ≠ o ∧ σ o₁ ≠ o' := by
  obtain ⟨z, hz, hz', -⟩ := h.member_of_seated ho₁
  constructor
  · rintro rfl
    exact absurd (hz.symm.trans hfree) (by simp)
  · rintro rfl
    exact absurd (hz'.symm.trans hfree') (by simp)

/-- **An observer comes to both**, and gets a free seat in each. -/
theorem seat {y : Observer τ} (hy : y.Anonymous) :
    Overheard (Function.update σ (a.add (.observer y)).1 (b.add (.observer y)).1)
      (a.add (.observer y)).2 (b.add (.observer y)).2 := by
  have hfree : a.member? (a.add (.observer y)).1 = none := member?_add_free
  have hfree' : b.member? (b.add (.observer y)).1 = none := member?_add_free
  have hmember : ∀ o₁, (a.add (.observer y)).2.member? o₁ =
      if o₁ = (a.add (.observer y)).1 then some (.observer y) else a.member? o₁ :=
    fun _ => member?_add_eq
  have hmember' : ∀ o₁, (b.add (.observer y)).2.member? o₁ =
      if o₁ = (b.add (.observer y)).1 then some (.observer y) else b.member? o₁ :=
    fun _ => member?_add_eq
  have hmemory : (b.add (.observer y)).2.memory = (a.add (.observer y)).2.memory := by
    rw [memory_add, memory_add, h.memory]
  have hsubs : (a.add (.observer y)).2.subscriptions = a.subscriptions := subscriptions_add
  have hsubs' : (b.add (.observer y)).2.subscriptions = b.subscriptions := subscriptions_add
  generalize (a.add (.observer y)).1 = o at hfree hmember ⊢
  generalize (b.add (.observer y)).1 = o' at hfree' hmember' ⊢
  have hne : ∀ o₁, a.isSeated o₁ = true → o₁ ≠ o ∧ σ o₁ ≠ o' :=
    fun _ => h.ne_of_free hfree hfree'
  have hseated : ∀ o₁, (a.add (.observer y)).2.isSeated o₁ = true ↔
      o₁ = o ∨ a.isSeated o₁ = true := by
    intro o₁
    unfold isSeated
    rw [hmember]
    split_ifs with heq <;> simp [heq]
  refine ⟨hmemory, fun o₁ x ho₁ => ?_, fun o₁ o₂ ho₁ ho₂ heq => ?_, fun o₁ k s ho₁ => ?_,
    fun o₁ n ho₁ => ?_, ?_⟩
  · rw [hmember] at ho₁
    split_ifs at ho₁ with heq
    · obtain rfl := Option.some.inj ho₁
      rw [heq, Function.update_self, hmember', if_pos rfl]
      exact ⟨rfl, y, rfl, hy⟩
    · rw [Function.update_of_ne heq, hmember', if_neg (hne o₁ (by simp [isSeated, ho₁])).2]
      exact h.seated o₁ x ho₁
  · rcases (hseated o₁).mp ho₁ with rfl | ho₁' <;> rcases (hseated o₂).mp ho₂ with rfl | ho₂'
    · rfl
    · rw [Function.update_self, Function.update_of_ne (hne o₂ ho₂').1] at heq
      exact absurd heq.symm (hne o₂ ho₂').2
    · rw [Function.update_self, Function.update_of_ne (hne o₁ ho₁').1] at heq
      exact absurd heq (hne o₁ ho₁').2
    · rw [Function.update_of_ne (hne o₁ ho₁').1, Function.update_of_ne (hne o₂ ho₂').1] at heq
      exact h.apart o₁ o₂ ho₁' ho₂' heq
  · rw [hmember'] at ho₁
    split_ifs at ho₁
    · exact absurd ho₁ (by simp)
    · exact h.lenient o₁ k s ho₁
  · rw [hmember'] at ho₁
    split_ifs at ho₁
    rw [hsubs']
    exact h.vacant o₁ n ho₁
  · -- Nobody was subscribed on behalf of the seats that are given.
    rw [hsubs, hsubs']
    refine h.matched.update (fun ho => (hne o ho).1 rfl) (fun n => h.vacant o' n hfree')
      (fun o₁ ho₁ => (hseated o₁).mpr (.inr ho₁)) fun o₁ heq => hasObserver_congr ?_
    rw [hmember', if_neg heq]

/-- **An observer leaves both.** -/
theorem unseat (ho : a.isSeated o = true) : Overheard σ (a.remove o).2 (b.remove (σ o)).2 := by
  obtain ⟨y, hy, hy', -⟩ := h.member_of_seated ho
  have hseated : ∀ o₁, (a.remove o).2.isSeated o₁ = true ↔ a.isSeated o₁ = true ∧ o₁ ≠ o := by
    intro o₁
    unfold isSeated
    rw [member?_remove]
    split_ifs with heq <;> simp [heq]
  have hdrop := h.matched.drop h.apart ho
  rw [← (remove_of_member hy).2, ← (remove_of_member hy').2] at hdrop
  refine ⟨?_, fun o₁ x ho₁ => ?_, fun o₁ o₂ ho₁ ho₂ heq => ?_, fun o₁ k s ho₁ => ?_,
    fun o₁ n ho₁ => ?_, fun n o₁ ho₁ => ?_, fun n => ?_⟩
  · rw [memory_remove, memory_remove, h.memory]
  · rw [member?_remove] at ho₁
    split_ifs at ho₁ with hne
    -- In the second audience as well it is one seat that gets free.
    have hσ : σ o₁ ≠ σ o := fun heq => hne (h.apart o₁ o (by simp [isSeated, ho₁]) ho heq)
    rw [member?_remove, if_neg hσ]
    exact h.seated o₁ x ho₁
  · exact h.apart o₁ o₂ ((hseated o₁).mp ho₁).1 ((hseated o₂).mp ho₂).1 heq
  · rw [member?_remove] at ho₁
    split_ifs at ho₁
    exact h.lenient o₁ k s ho₁
  · rw [member?_remove] at ho₁
    rw [(remove_of_member hy').2, Bool.eq_false_iff, ne_eq, Subscriptions.has_drop, not_and]
    intro hne
    rw [if_neg hne] at ho₁
    rw [h.vacant o₁ n ho₁]
    simp
  · exact (hseated o₁).mpr (hdrop.seated n o₁ ho₁)
  · rw [← hdrop.order n]
    refine List.filter_congr fun o₁ ho₁ => ?_
    have hne : o₁ ≠ σ o := by
      rintro rfl
      rw [(remove_of_member hy').2, Subscriptions.observers_drop] at ho₁
      exact absurd (List.mem_filter.mp ho₁).2 (by simp)
    exact hasObserver_congr (by rw [member?_remove, if_neg hne])

end Audience.Overheard

/-! ## Deeds on other seats -/

namespace Deed

/-- The deed seats and names observers only, and such as do not care where they sit. -/
def Fair (a : Audience τ) : Deed τ → Prop
  | .edit _ => True
  | .seat x => ∃ y : Observer τ, x = .observer y ∧ y.Anonymous
  | .unseat o | .subscribe o _ | .unsubscribe o _ => a.isSeated o = true

/-- The deed, with the seats mapped. -/
def through (σ : ObserverId → ObserverId) : Deed τ → Deed τ
  | .unseat o => .unseat (σ o)
  | .subscribe o n => .subscribe (σ o) n
  | .unsubscribe o n => .unsubscribe (σ o) n
  | deed => deed

/-- What comes back, with the seats mapped. -/
def Outcome.through (σ : ObserverId → ObserverId) : Outcome τ → Outcome τ
  | .seated o => .seated (σ o)
  | outcome => outcome

/-- How the seats correspond once the deed is done in both documents. -/
def seating (σ : ObserverId → ObserverId) (d e : Document τ) : Deed τ → ObserverId → ObserverId
  | .seat x => Function.update σ (d.audience.add x).1 (e.audience.add x).1
  | _ => σ

end Deed

/-! ## Two runs -/

/-- **Two documents to which the same was done since they were new**, the second of which is
accompanied by recordings that mind no read-only property. The map takes the seats in the first
to those in the second. -/
inductive Document.Accompanied (schema : Schema) :
    List Recording → (ObserverId → ObserverId) → Document τ → Document τ → Prop
  | new {rootType : String} {memory : τ} {d : Document τ}
      (h : Document.new schema rootType memory = .ok d) : Accompanied schema [] id d d
  /-- Something that is done to both. -/
  | deed {rs : List Recording} {σ : ObserverId → ObserverId} {d e : Document τ} (deed : Deed τ)
      (h : Accompanied schema rs σ d e) (hfair : deed.Fair d.audience) :
      Accompanied schema rs (deed.seating σ d e) (deed.run d).2 ((deed.through σ).run e).2
  /-- One recording more. -/
  | enroll {rs : List Recording} {σ : ObserverId → ObserverId} {d e : Document τ} (policy : Policy)
      (h : Accompanied schema rs σ d e) (hlenient : policy.strict = false) :
      Accompanied schema (rs ++ [⟨e.audience.journals.length, policy⟩]) σ d
        (Recording.new policy e).2
  | call {rs : List Recording} {σ : ObserverId → ObserverId} {d e : Document τ} (r : Recording)
      (c : Recording.Call) (h : Accompanied schema rs σ d e) (hr : r ∈ rs) (hrevert : c ≠ .revert)
      (hundo : c ≠ .undo) : Accompanied schema rs σ d (r.perform c e).2
  | ask {rs : List Recording} {σ : ObserverId → ObserverId} {d e : Document τ} (r : Recording)
      (question : Journal.Question) (h : Accompanied schema rs σ d e) (hr : r ∈ rs) :
      Accompanied schema rs σ d (r.ask question e).2

/-- What holds of the two at every moment. -/
structure Document.Together (rs : List Recording) (σ : ObserverId → ObserverId)
    (d e : Document τ) : Prop where
  aligned : d.forest.Aligned
  overheard : d.Overheard σ e
  attuned : e.audience.Attuned rs
  lenient : ∀ r ∈ rs, r.policy.strict = false

namespace Document.Together

/-- **A deed that is done to both** comes to the same in both, and they stay together. -/
theorem deed (h : d.Together rs σ e) (deed : Deed τ) (hfair : deed.Fair d.audience) :
    ((deed.through σ).run e).1 = (deed.run d).1.through (deed.seating σ d e) ∧
      Together rs (deed.seating σ d e) (deed.run d).2 ((deed.through σ).run e).2 := by
  obtain ⟨hf, hover, hattuned, hlenient⟩ := h
  cases deed with
  | edit m =>
    obtain ⟨⟨hres, hsame⟩, hf', -⟩ :=
      Edit.Alike.mutation (Document.unison_overheard σ) m d e hover hf (.refl _)
    exact ⟨congrArg Deed.Outcome.edited hres, hf', hsame, Recording.attuned_mutation m e hattuned,
      hlenient⟩
  | seat x =>
    obtain ⟨y, rfl, hy⟩ := hfair
    obtain ⟨i, l, b, rfl, hl, h⟩ := hover
    -- The seats need not be the same, so each is noted for the other.
    have hseat := Function.update_self (d.audience.add (.observer y)).1 (b.add (.observer y)).1 σ
    exact ⟨congrArg Deed.Outcome.seated hseat.symm, hf, ⟨i, l, _, rfl, hl, h.seat hy⟩,
      hattuned.seat y, hlenient⟩
  | unseat o =>
    obtain ⟨i, l, b, rfl, hl, h⟩ := hover
    obtain ⟨y, hy, hy', -⟩ := h.member_of_seated hfair
    refine ⟨?_, hf, ⟨i, l, _, rfl, hl, h.unseat hfair⟩, hattuned.unseat fun k s ho => ?_,
      hlenient⟩
    · exact congrArg Deed.Outcome.unseated
        ((Audience.remove_of_member hy').1.trans (Audience.remove_of_member hy).1.symm)
    · exact absurd (hy'.symm.trans ho) (by simp)
  | subscribe o n =>
    obtain ⟨i, l, b, rfl, hl, h⟩ := hover
    refine ⟨?_, hf, ⟨i, l, _, rfl, hl, h.subscribed hfair [.subscribe n]⟩,
      hattuned.subscriptions (Subscriptions.nodup_change hattuned.once (.subscribe n)), hlenient⟩
    have hsame : (b.subscriptions.subscribe (σ o) n).1 =
        (d.audience.subscriptions.subscribe o n).1 := by
      unfold Subscriptions.subscribe
      rw [h.has_eq hfair]
      split <;> rfl
    exact congrArg Deed.Outcome.subscribed hsame
  | unsubscribe o n =>
    obtain ⟨i, l, b, rfl, hl, h⟩ := hover
    refine ⟨?_, hf, ⟨i, l, _, rfl, hl, h.subscribed hfair [.unsubscribe n]⟩,
      hattuned.subscriptions (hattuned.once.filter _), hlenient⟩
    exact congrArg Deed.Outcome.unsubscribed (congrFun (h.has_eq hfair) n)

/-- **A call on a recording**, unless it reverts, is nothing to the document without recordings. -/
theorem accommodates (hf : d.forest.Aligned) (hlenient : ∀ r ∈ rs, r.policy.strict = false)
    (hr : r ∈ rs) : r.Accommodates (fun e : Document τ => d.Together rs σ e) := by
  have hattuned := Recording.attuned_sustains (τ := τ) hr
  refine ⟨?_, ?_, ?_, ?_, ?_⟩
  · rintro e i ⟨-, ⟨j, l, b, rfl, h⟩, ha, -⟩
    exact ⟨hf, ⟨i, l, b, rfl, h⟩, ha, hlenient⟩
  · rintro g hg hsame e ⟨-, ⟨j, l, b, rfl, hl, h⟩, ha, -⟩
    exact ⟨hf, ⟨j, l, _, rfl, hl, h.of_same rfl rfl rfl⟩, hattuned.writes g hg hsame _ ha, hlenient⟩
  · rintro e ⟨-, ⟨j, l, b, rfl, hl, h⟩, ha, -⟩
    exact ⟨hf, ⟨j, l, _, rfl, hl, h.of_same rfl rfl rfl⟩, hattuned.reduces _ ha, hlenient⟩
  · rintro e tracked ⟨-, ⟨j, l, b, rfl, hl, h⟩, ha, -⟩ hidle hsession
    exact ⟨hf, ⟨j, l, _, rfl, hl, h.joined (hlenient r hr)⟩,
      hattuned.joins _ tracked ha hidle hsession, hlenient⟩
  · rintro e ⟨-, ⟨j, l, b, rfl, hl, h⟩, ha, -⟩ hrec
    have hleaves := hattuned.leaves _ ha hrec
    obtain ⟨o, hseat, ho⟩ := ha.member_of_running hr hrec
    rw [Recording.stop_apply hrec hseat] at hleaves ⊢
    exact ⟨hf, ⟨j, l, _, rfl, hl, h.left ho⟩, hleaves, hlenient⟩

end Document.Together

theorem Document.Accompanied.together (h : Accompanied schema rs σ d e) : d.Together rs σ e := by
  induction h with
  | new h =>
    -- Both begin with nobody seated.
    obtain ⟨t, hcreate⟩ := Document.new_eq_ok h
    refine ⟨(Forest.aligned_empty _).create hcreate, ⟨_, _, _, rfl, rfl, ?_⟩, ?_, by simp⟩ <;>
      rw [Document.audience_new h]
    · exact ⟨rfl, by simp [Audience.member?], by simp [Audience.isSeated, Audience.member?],
        by simp [Audience.member?], fun _ _ _ => rfl,
        ⟨by simp [Subscriptions.observers], fun _ => rfl⟩⟩
    · exact Audience.attuned_nil _
  | deed deed _ hfair ih => exact (ih.deed deed hfair).2
  | enroll policy _ hlenient ih =>
    obtain ⟨hf, ⟨i, l, b, rfl, hl, hover⟩, ha, hall⟩ := ih
    refine ⟨hf, ⟨i, l, _, rfl, hl, hover.of_same rfl rfl rfl⟩, ha.enroll policy, fun r hr => ?_⟩
    rcases List.mem_append.mp hr with hr | hr
    · exact hall r hr
    · rw [List.mem_singleton.mp hr]
      exact hlenient
  | call r c _ hr hrevert hundo ih =>
    exact (Together.accommodates ih.aligned ih.lenient hr).perform_quiet c hrevert hundo _ ih
  | ask r question _ hr ih =>
    obtain ⟨hf, ⟨i, l, b, rfl, hl, hover⟩, ha, hall⟩ := ih
    exact ⟨hf, ⟨i, l, _, rfl, hl, hover.of_same rfl rfl rfl⟩,
      (Document.Turn.ask r question hr).attuned ha, hall⟩

/-! ## Walks of the recordings -/

theorem Document.Accompanied.reachable (h : Accompanied schema rs σ d e) :
    d.Reachable schema fun _ _ => True := by
  induction h with
  | new h => exact .new _ _ _ h
  | deed deed _ _ ih =>
    cases deed with
    | edit m => exact .edit _ m ih trivial
    | seat x => exact .other _ _ ih rfl rfl
    | unseat o => exact .other _ _ ih rfl rfl
    | subscribe o n => exact .other _ _ ih rfl rfl
    | unsubscribe o n => exact .other _ _ ih rfl rfl
  | enroll policy _ _ ih => exact ih
  | call r c _ _ _ _ ih => exact ih
  | ask r question _ _ ih => exact ih

/-- **All forests that were shown** to the audience are sound, where defaults list no child and
mixed content mentions owned nodes only. -/
theorem Document.Accompanied.shown_sound {declarations : List TypeDeclaration}
    (hb : Schema.build declarations = .ok schema) (hn : schema.NullContainment)
    (hp : schema.PlainDefaults) (ho : schema.OwningMembers) (h : Accompanied schema rs σ d e) :
    ∀ f, d.Shown f → f.Sound True := by
  induction h with
  | new h =>
    intro f hf
    rw [Shown.of_new h hf]
    exact (Reachable.sound_of_owning hb hn hp ho (.new _ _ _ h)).1
  | deed deed h' _ ih =>
    cases deed with
    | edit m =>
      obtain ⟨hf, howning⟩ := Reachable.sound_of_owning hb hn hp ho h'.reachable
      exact (m.chain hf fun _ _ => m.not_overlooks hf.toTyped howning).shown_sound ih
    | seat x => exact ih
    | unseat o => exact ih
    | subscribe o n => exact ih
    | unsubscribe o n => exact ih
  | enroll policy _ _ ih => exact ih
  | call r c _ _ _ _ ih => exact ih
  | ask r question _ _ ih => exact ih

/-- **Edits do not notice recordings.** At every moment the document with recordings has the
forest, the root and the generation of the one without; every observer has its seat in both and is
subscribed to the same nodes, of which the observers are in the same order; and whatever is done
next to both comes to the same in both. The recordings do not keep anybody waiting either: in all
forests that they were shown, walks through the contents of a node and climbs end. -/
theorem Document.Accompanied.unnoticed {declarations : List TypeDeclaration}
    (hb : Schema.build declarations = .ok schema) (hn : schema.NullContainment)
    (hp : schema.PlainDefaults) (ho : schema.OwningMembers) (h : Accompanied schema rs σ d e) :
    (e.forest = d.forest ∧ e.root = d.root ∧ e.generation = d.generation ∧
      e.audience.memory = d.audience.memory ∧
      (∀ o x, d.audience.member? o = some x → e.audience.member? (σ o) = some x ∧
        ∀ n, e.audience.subscriptions.has (σ o) n = d.audience.subscriptions.has o n) ∧
      (∀ n, (e.audience.subscriptions.observers n).filter e.audience.hasObserver =
        (d.audience.subscriptions.observers n).map σ) ∧
      ∀ deed : Deed τ, deed.Fair d.audience →
        ((deed.through σ).run e).1 = (deed.run d).1.through (deed.seating σ d e)) ∧
      ∀ f, e.Shown f →
        (∀ n, f.contains n = true → f.walk n (f.contents n).length = ⟨f.contents n, []⟩) ∧
          ∀ n, ∃ k, f.ancestor k n = none := by
  have htogether := h.together
  have hsound := h.shown_sound hb hn hp ho
  obtain ⟨i, l, b, rfl, hl, hover⟩ := htogether.overheard
  refine ⟨⟨rfl, rfl, rfl, hover.memory, fun o x hx => ⟨(hover.seated o x hx).1, fun n => ?_⟩,
    hover.matched.order, fun deed hfair => (htogether.deed deed hfair).1⟩, fun f hf => ?_⟩
  · exact congrFun (hover.has_eq (by simp [Audience.isSeated, hx])) n
  · -- Both documents refused the same changes, so both were shown the same forests.
    refine (hsound f ?_).walks_end
    rcases hf with hf | hf | ⟨v, hv, hf⟩
    · exact .inl hf
    · exact .inr (.inl hf)
    · have hmem : v.toAnnouncement ∈ d.vetoes.map Veto.toAnnouncement :=
        hl ▸ List.mem_map_of_mem hv
      obtain ⟨v', hv', hsame⟩ := List.mem_map.mp hmem
      exact .inr (.inr ⟨v', hv', (congrArg Announcement.forest hsame).trans hf⟩)

/-- A gate watches the root of an outline, on the first seat, or on the second where a session was
started before it came. It refuses an addition that it accepted when it was asked first, and does
so in both outlines. -/
theorem Document.Accompanied.unnoticed_gate :
    let blank : Document Nat := { Outline.blank with vetoes := [], audience := { memory := 0 } }
    let r : Recording := ⟨0, { strict := false }⟩
    let bare := blank.after [.create "Entry"]
    let recorded := (r.perform .start (Recording.new r.policy bare).2).2
    let seat : Deed Nat := .seat (.observer Notebook.gate)
    let σ := seat.seating id bare recorded
    let watch : Deed Nat := .subscribe ⟨0⟩ ⟨0⟩
    let d := (watch.run (seat.run bare).2).2
    let e := ((watch.through σ).run (seat.run recorded).2).2
    let m : Mutation := .add ⟨0⟩ Outline.entries (.node ⟨1⟩)
    σ ⟨0⟩ = ⟨1⟩ ∧ (m.run d).1.toOption.isNone = true ∧ (m.run e).1 = (m.run d).1 ∧
      e.audience.memory = d.audience.memory := by
  intro blank r bare recorded seat σ watch d e m
  have hgate : Notebook.gate.Anonymous := fun _ _ _ _ _ _ => rfl
  have hblank : Document.new Outline.schema "Entry" 0 = .ok blank := rfl
  have hbare : Accompanied Outline.schema [] id bare bare :=
    .deed (.edit (.create "Entry")) (.new hblank) trivial
  have hrecorded : Accompanied Outline.schema [r] id bare recorded :=
    .call r .start (.enroll r.policy hbare rfl) (.head _) (by simp) (by simp)
  have hseated : Accompanied Outline.schema [r] σ (seat.run bare).2 (seat.run recorded).2 :=
    .deed seat hrecorded ⟨_, rfl, hgate⟩
  have h : Accompanied Outline.schema [r] σ d e := .deed watch hseated rfl
  obtain ⟨⟨-, -, -, hmemory, -, -, hnext⟩, -⟩ :=
    Document.Accompanied.unnoticed Outline.build_types (by decide) (by decide) (by decide) h
  refine ⟨rfl, by decide +kernel, ?_, hmemory⟩
  exact Deed.Outcome.edited.inj (hnext (.edit m) trivial)

end TrackedGraph
