/-
Listening in.

A recorder that minds no read-only property accepts every change that can be planned; when it is
told of one it writes its journal and changes subscriptions of its own. So two audiences in which
the same observers sit, in one of them alone and in the other among such recorders, answer every
edit alike (`Audience.Overheard`). The seats need not be the same, since recorders take seats as
well; so the observers must not care where they sit. What has to be kept up is the order in which
they are asked and told: the observers of a node are, recorders aside, in the same order in both
(`Subscriptions.Matched`).
-/
import TrackedGraph.Proofs.Document.Alike
import TrackedGraph.Proofs.Recording.Undoing

set_option autoImplicit false

namespace TrackedGraph

variable {τ : Type} {a b : Audience τ} {o o' : ObserverId} {n m : NodeId} {f : Forest} {N : Notice}
  {σ : ObserverId → ObserverId}

/-! ## The order of subscriptions -/

namespace Subscriptions

variable {s t : Subscriptions} {S : ObserverId → Prop} {P : ObserverId → Bool}

/-- Who does not count may be dropped. -/
theorem filter_ne (h : P o = false) (l : List ObserverId) :
    (l.filter (· != o)).filter P = l.filter P := by
  rw [List.filter_filter]
  refine List.filter_congr fun o' _ => ?_
  by_cases ho : o' = o
  · rw [ho, h, Bool.false_and]
  · simp [ho]

/-- Who does not count may change subscriptions. -/
theorem filter_observers_changeAll (h : P o = false) (cs : List SubscriptionChange) :
    ((s.changeAll o cs).observers m).filter P = (s.observers m).filter P := by
  unfold changeAll
  induction cs generalizing s with
  | nil => rfl
  | cons c cs ih =>
    rw [List.foldl_cons, ih]
    cases c with
    | subscribe n =>
      show ((s.subscribe o n).2.observers m).filter P = _
      rw [observers_subscribe]
      split
      · rw [List.filter_append, List.filter_singleton, h]
        exact List.append_nil _
      · rfl
    | unsubscribe n =>
      show ((s.unsubscribe o n).2.observers m).filter P = _
      rw [observers_unsubscribe]
      split
      · exact filter_ne h _
      · rfl

/-- The observers of a node are on seats of the one kind in the one registry. In the other they
are in the same order, each on the seat that corresponds to it, among some that do not count. -/
structure Matched (σ : ObserverId → ObserverId) (S : ObserverId → Prop) (P : ObserverId → Bool)
    (s t : Subscriptions) : Prop where
  seated : ∀ n, ∀ o ∈ s.observers n, S o
  order : ∀ n, (t.observers n).filter P = (s.observers n).map σ

namespace Matched

variable (h : Matched σ S P s t) (hinj : ∀ o o', S o → S o' → σ o = σ o' → o = o')

include h hinj

theorem has_eq (hS : S o) (hP : P (σ o) = true) : t.has (σ o) n = s.has o n := by
  rw [Bool.eq_iff_iff, ← mem_observers, ← mem_observers]
  have hmem : σ o ∈ t.observers n ↔ σ o ∈ (s.observers n).map σ := by
    rw [← h.order, List.mem_filter, hP]
    exact (and_iff_left rfl).symm
  rw [hmem, List.mem_map]
  constructor
  · rintro ⟨o', ho', heq⟩
    rwa [← hinj o' o (h.seated n o' ho') hS heq]
  · exact fun ho => ⟨o, ho, rfl⟩

/-- What is dropped corresponds. -/
theorem filter_map (hS : S o) (n : NodeId) : ((t.observers n).filter (· != σ o)).filter P =
    ((s.observers n).filter (· != o)).map σ := by
  rw [List.filter_filter]
  simp only [Bool.and_comm (P _)]
  rw [← List.filter_filter, h.order, List.filter_map]
  refine congrArg _ (List.filter_congr fun o' ho' => ?_)
  rw [Bool.eq_iff_iff, Function.comp_apply, bne_iff_ne, bne_iff_ne]
  exact not_congr ⟨hinj o' o (h.seated n o' ho') hS, congrArg σ⟩

theorem change (hS : S o) (hP : P (σ o) = true) (c : SubscriptionChange) :
    Matched σ S P (s.change o c) (t.change (σ o) c) := by
  have hhas : ∀ n, t.has (σ o) n = s.has o n := fun n => h.has_eq hinj hS hP
  cases c with
  | subscribe n =>
    constructor <;> intro m
    · show ∀ o' ∈ (s.subscribe o n).2.observers m, S o'
      rw [observers_subscribe]
      split
      · intro o' ho'
        rcases List.mem_append.mp ho' with ho' | ho'
        · exact h.seated m o' ho'
        · rw [List.mem_singleton.mp ho']
          exact hS
      · exact h.seated m
    · show ((t.subscribe (σ o) n).2.observers m).filter P = ((s.subscribe o n).2.observers m).map σ
      rw [observers_subscribe, observers_subscribe, hhas]
      split
      · rw [List.filter_append, h.order, List.map_append, List.filter_singleton, hP]
        rfl
      · exact h.order m
  | unsubscribe n =>
    constructor <;> intro m
    · show ∀ o' ∈ (s.unsubscribe o n).2.observers m, S o'
      rw [observers_unsubscribe]
      split
      · exact fun o' ho' => h.seated m o' (List.mem_filter.mp ho').1
      · exact h.seated m
    · show ((t.unsubscribe (σ o) n).2.observers m).filter P =
        ((s.unsubscribe o n).2.observers m).map σ
      rw [observers_unsubscribe, observers_unsubscribe]
      split
      · exact h.filter_map hinj hS m
      · exact h.order m

theorem changeAll (hS : S o) (hP : P (σ o) = true) (cs : List SubscriptionChange) :
    Matched σ S P (s.changeAll o cs) (t.changeAll (σ o) cs) := by
  unfold Subscriptions.changeAll
  induction cs generalizing s t with
  | nil => exact h
  | cons c cs ih => exact ih (h.change hinj hS hP c)

theorem drop (hS : S o) : Matched σ (fun o' => S o' ∧ o' ≠ o) P (s.drop o).2 (t.drop (σ o)).2 := by
  constructor <;> intro m
  · rw [observers_drop]
    intro o' ho'
    obtain ⟨hmem, hne⟩ := List.mem_filter.mp ho'
    exact ⟨h.seated m o' hmem, by simpa using hne⟩
  · rw [observers_drop, observers_drop]
    exact h.filter_map hinj hS m

omit hinj in
/-- A further seat may correspond, if nobody is subscribed on behalf of it. -/
theorem update {S' : ObserverId → Prop} {P' : ObserverId → Bool} (hfree : ¬ S o)
    (hfree' : ∀ n, t.has o' n = false) (hS : ∀ o₁, S o₁ → S' o₁)
    (hP : ∀ o₁, o₁ ≠ o' → P' o₁ = P o₁) : Matched (Function.update σ o o') S' P' s t := by
  have hmap : ∀ n, (s.observers n).map (Function.update σ o o') = (s.observers n).map σ := by
    refine fun n => List.map_congr_left fun o₁ ho₁ => Function.update_of_ne ?_ _ _
    rintro rfl
    exact hfree (h.seated n o₁ ho₁)
  refine ⟨fun n o₁ ho₁ => hS o₁ (h.seated n o₁ ho₁), fun n => ?_⟩
  rw [hmap, ← h.order n]
  refine List.filter_congr fun o₁ ho₁ => hP o₁ ?_
  rintro rfl
  exact absurd ((mem_observers.mp ho₁).symm.trans (hfree' n)) (by simp)

end Matched

end Subscriptions

/-! ## Audiences with recorders and without -/

/-- The observer does what it does wherever it sits. -/
def Observer.Anonymous (x : Observer τ) : Prop :=
  ∀ f o o' hears N m, x.follow f o hears N m = x.follow f o' hears N m

namespace Audience

/-- Whether an observer, and no recorder, is on the seat. -/
def hasObserver (a : Audience τ) (o : ObserverId) : Bool :=
  match a.member? o with
  | some (.observer _) => true
  | _ => false

section hasObserver

variable {y : Observer τ} {k : Nat} {s : Bool}

theorem hasObserver_congr (h : b.member? o' = a.member? o) :
    b.hasObserver o' = a.hasObserver o := by
  unfold hasObserver
  rw [h]

theorem hasObserver_of_observer (h : a.member? o = some (.observer y)) :
    a.hasObserver o = true := by
  unfold hasObserver
  rw [h]

theorem hasObserver_of_recorder (h : a.member? o = some (.recorder k s)) :
    a.hasObserver o = false := by
  unfold hasObserver
  rw [h]

theorem hasObserver_of_free (h : a.member? o = none) : a.hasObserver o = false := by
  unfold hasObserver
  rw [h]

theorem hasObserver_iff : a.hasObserver o = true ↔ ∃ y, a.member? o = some (.observer y) := by
  cases ho : a.member? o with
  | none => simp [hasObserver_of_free ho]
  | some x =>
    cases x with
    | recorder k s => simp [hasObserver_of_recorder ho]
    | observer y => simp [hasObserver_of_observer ho]

end hasObserver

/-- **The observers of the first audience sit in the second as well**, on the seats that the map
gives, among recorders that mind no read-only property. -/
structure Overheard (σ : ObserverId → ObserverId) (a b : Audience τ) : Prop where
  memory : b.memory = a.memory
  seated : ∀ o x, a.member? o = some x →
    b.member? (σ o) = some x ∧ ∃ y : Observer τ, x = .observer y ∧ y.Anonymous
  apart : ∀ o o', a.isSeated o = true → a.isSeated o' = true → σ o = σ o' → o = o'
  lenient : ∀ o k s, b.member? o = some (.recorder k s) → s = false
  vacant : ∀ o n, b.member? o = none → b.subscriptions.has o n = false
  matched : Subscriptions.Matched σ (a.isSeated · = true) b.hasObserver
    a.subscriptions b.subscriptions

namespace Overheard

variable (h : a.Overheard σ b)

include h

theorem member_of_seated (ho : a.isSeated o = true) : ∃ y : Observer τ,
    a.member? o = some (.observer y) ∧ b.member? (σ o) = some (.observer y) ∧ y.Anonymous := by
  obtain ⟨x, hx⟩ := Option.isSome_iff_exists.mp ho
  obtain ⟨hb, y, rfl, hy⟩ := h.seated o x hx
  exact ⟨y, hx, hb, hy⟩

theorem hasObserver (ho : a.isSeated o = true) : b.hasObserver (σ o) = true := by
  obtain ⟨y, -, hb, -⟩ := h.member_of_seated ho
  exact hasObserver_of_observer hb

theorem has_eq (ho : a.isSeated o = true) : b.subscriptions.has (σ o) = a.subscriptions.has o :=
  funext fun _ => h.matched.has_eq h.apart ho (h.hasObserver ho)

/-- Both may remember something else. -/
theorem remember (x : τ) : Overheard σ { a with memory := x } { b with memory := x } :=
  ⟨rfl, h.seated, h.apart, h.lenient, h.vacant, h.matched⟩

/-- Observers may change their subscriptions. -/
theorem subscribed (ho : a.isSeated o = true) (cs : List SubscriptionChange) :
    Overheard σ { a with subscriptions := a.subscriptions.changeAll o cs }
      { b with subscriptions := b.subscriptions.changeAll (σ o) cs } := by
  refine ⟨h.memory, h.seated, h.apart, h.lenient, fun o' n ho' => ?_,
    h.matched.changeAll h.apart ho (h.hasObserver ho) cs⟩
  obtain ⟨y, -, hb, -⟩ := h.member_of_seated ho
  have hne : o' ≠ σ o := by
    rintro rfl
    exact absurd (hb.symm.trans ho') (by simp)
  exact (Subscriptions.has_changeAll_of_ne hne cs).trans (h.vacant o' n ho')

/-- Recorders may come, go, and change what they are subscribed to and what they write. -/
theorem listening {c : Audience τ} (hmemory : c.memory = b.memory)
    (hmember : ∀ o y, c.member? o = some (.observer y) ↔ b.member? o = some (.observer y))
    (hlenient : ∀ o k s, c.member? o = some (.recorder k s) → s = false)
    (hvacant : ∀ o n, c.member? o = none → c.subscriptions.has o n = false)
    (horder : ∀ n, (c.subscriptions.observers n).filter b.hasObserver =
      (b.subscriptions.observers n).filter b.hasObserver) : a.Overheard σ c := by
  have hsame : c.hasObserver = b.hasObserver := by
    funext o
    rw [Bool.eq_iff_iff, hasObserver_iff, hasObserver_iff]
    exact exists_congr fun y => hmember o y
  refine ⟨hmemory.trans h.memory, fun o x hx => ?_, h.apart, hlenient, hvacant,
    h.matched.seated, fun n => ?_⟩
  · obtain ⟨hb, y, rfl, hy⟩ := h.seated o x hx
    exact ⟨(hmember _ y).mpr hb, y, rfl, hy⟩
  · rw [hsame, horder]
    exact h.matched.order n

/-! ### Announcements -/

/-- Whoever is the first observer of the one list is the first of the other one. -/
theorem exists_first {y : Observer τ} {os os' : List ObserverId}
    (hos : ∀ o ∈ os, a.isSeated o = true) (hx : b.member? o' = some (.observer y))
    (horder : (o' :: os').filter b.hasObserver = os.map σ) :
    ∃ o rest, os = o :: rest ∧ σ o = o' ∧ a.isSeated o = true ∧
      a.member? o = some (.observer y) ∧ y.Anonymous ∧
      (∀ o ∈ rest, a.isSeated o = true) ∧ os'.filter b.hasObserver = rest.map σ := by
  rw [List.filter_cons_of_pos (hasObserver_of_observer hx)] at horder
  cases os with
  | nil => exact absurd horder (by simp)
  | cons o rest =>
    rw [List.forall_mem_cons] at hos
    obtain ⟨rfl, hrest⟩ := List.cons.inj horder
    obtain ⟨y', ha, hb, hy⟩ := h.member_of_seated hos.1
    obtain rfl : y = y' := Member.observer.inj (Option.some.inj (hx.symm.trans hb))
    exact ⟨o, rest, rfl, rfl, hos.1, ha, hy, hos.2, hrest⟩

section noticed

variable (hf : f.Aligned) (hbefore : f.Ownable N.node N.property N.before)
  (hafter : f.Ownable N.node N.property N.after)

include hf hbefore hafter

/-- **The observers are asked in the same order**, and the recorders accept. -/
theorem askAll {os os' : List ObserverId} (hos : ∀ o ∈ os, a.isSeated o = true)
    (horder : os'.filter b.hasObserver = os.map σ) :
    (askAll f N os' b).1 = (askAll f N os a).1 ∧
      (askAll f N os a).2.Overheard σ (askAll f N os' b).2 := by
  -- By induction on the list that is the longer one: who does not count in it is passed over.
  induction os' generalizing a b os with
  | nil =>
    obtain rfl := List.map_eq_nil_iff.mp horder.symm
    exact ⟨rfl, h⟩
  | cons o' os' ih =>
    cases hx : b.member? o' with
    | none =>
      rw [List.filter_cons_of_neg (by simp [hasObserver_of_free hx])] at horder
      rw [Audience.askAll, hx]
      exact ih h hos horder
    | some x =>
      cases x with
      | recorder k s =>
        obtain rfl := h.lenient o' k s hx
        obtain ⟨q, hq⟩ := hf.exists_plan hbefore hafter
        rw [List.filter_cons_of_neg (by simp [hasObserver_of_recorder hx])] at horder
        rw [Audience.askAll, hx]
        simp only [ask, hq, Except.map]
        exact ih h hos horder
      | observer y =>
        obtain ⟨o, rest, rfl, rfl, -, ha, -, hseated, hrest⟩ := h.exists_first hos hx horder
        rw [Audience.askAll, hx, Audience.askAll, ha]
        have hask : ∀ c : Audience τ, ask f N (.observer y) c = ((y.judge f N c.memory).1,
            { c with memory := (y.judge f N c.memory).2 }) := fun _ => rfl
        dsimp only
        rw [hask, hask, h.memory]
        rcases y.judge f N a.memory with ⟨_ | _, x⟩
        · exact ⟨rfl, h.remember x⟩
        · exact ih (h.remember x) hseated hrest

omit hf hbefore hafter in
/-- **The observers are told in the same order**, and the recorders change nothing for them. -/
theorem tellAll {os os' : List ObserverId} (hos : ∀ o ∈ os, a.isSeated o = true)
    (horder : os'.filter b.hasObserver = os.map σ) :
    (tellAll f N os a).Overheard σ (tellAll f N os' b) := by
  induction os' generalizing a b os with
  | nil =>
    obtain rfl := List.map_eq_nil_iff.mp horder.symm
    exact h
  | cons o' os' ih =>
    rw [tellAll_cons]
    cases hx : b.member? o' with
    | none =>
      rw [List.filter_cons_of_neg (by simp [hasObserver_of_free hx])] at horder
      exact ih h hos horder
    | some x =>
      cases x with
      | recorder k s =>
        -- A recorder writes its journal and changes subscriptions of its own, which do not count.
        have hmember : ∀ o'', (tell f N o' (.recorder k s) b).member? o'' = b.member? o'' :=
          fun _ => rfl
        have hcount := hasObserver_of_recorder hx
        rw [List.filter_cons_of_neg (by simp [hcount])] at horder
        have htold : a.Overheard σ (tell f N o' (.recorder k s) b) := by
          refine h.listening rfl (fun o'' y => by rw [hmember]) (fun o'' => ?_)
            (fun o'' n ho'' => ?_)
            fun n => Subscriptions.filter_observers_changeAll hcount _
          · rw [hmember]
            exact h.lenient o''
          · have hne : o'' ≠ o' := by
              rintro rfl
              rw [hmember, hx] at ho''
              exact absurd ho'' (by simp)
            exact (Subscriptions.has_changeAll_of_ne hne _).trans (h.vacant o'' n ho'')
        exact ih htold hos horder
      | observer y =>
        obtain ⟨o, rest, rfl, rfl, ho, ha, hy, hseated, hrest⟩ := h.exists_first hos hx horder
        rw [tellAll_cons, ha]
        have hfollow : y.follow f (σ o) (b.subscriptions.has (σ o)) N b.memory =
            y.follow f o (a.subscriptions.has o) N a.memory := by
          rw [h.has_eq ho, h.memory]
          exact hy _ _ _ _ _ _
        simp only [tell, hfollow]
        exact ih ((h.subscribed ho _).remember _) hseated hrest

theorem poll : (b.poll f N).1 = (a.poll f N).1 ∧ (a.poll f N).2.Overheard σ (b.poll f N).2 :=
  h.askAll hf hbefore hafter (h.matched.seated _) (h.matched.order _)

/-- **What is announced goes alike**. -/
theorem announce : (b.announce f N).1 = (a.announce f N).1 ∧
    (a.announce f N).2.Overheard σ (b.announce f N).2 := by
  obtain ⟨hres, hsame⟩ := h.askAll hf hbefore hafter (h.matched.seated N.node)
    (h.matched.order N.node)
  have hmember : ∀ os (c : Audience τ) o, (Audience.askAll f N os c).2.member? o = c.member? o :=
    fun _ _ _ => member?_askAll
  unfold Audience.announce
  dsimp only
  rcases ha : Audience.askAll f N (a.subscriptions.observers N.node) a with ⟨ra, a'⟩
  rcases hb : Audience.askAll f N (b.subscriptions.observers N.node) b with ⟨rb, b'⟩
  have hma := hmember (a.subscriptions.observers N.node) a
  have hmb := hmember (b.subscriptions.observers N.node) b
  rw [ha] at hma
  rw [hb] at hmb
  rw [ha, hb] at hres hsame
  obtain rfl : rb = ra := hres
  cases rb with
  | error fault => exact ⟨rfl, hsame⟩
  | ok _ =>
    -- To be asked moves nobody, so those who are told are those who were asked.
    refine ⟨rfl, hsame.tellAll (fun o ho => ?_) ?_⟩
    · unfold isSeated
      rw [hma]
      exact h.matched.seated _ o ho
    · exact (List.filter_congr fun o _ => hasObserver_congr (hmb o)).trans
        (h.matched.order N.node)

end noticed

end Overheard

end Audience

/-! ## Documents with recorders and without -/

/-- The documents differ in their audiences, where the second one is overheard, in how many
sessions were started, and in who was asked about the changes that were refused. -/
def Document.Overheard (σ : ObserverId → ObserverId) (d e : Document τ) : Prop :=
  ∃ i l b, e = { d with sessions := i, vetoes := l, audience := b } ∧
    l.map Veto.toAnnouncement = d.vetoes.map Veto.toAnnouncement ∧ d.audience.Overheard σ b

/-- **Edits go alike** where recorders listen in and where they do not. -/
theorem Document.unison_overheard (σ : ObserverId → ObserverId) :
    Unison (Overheard σ : Document τ → Document τ → Prop) where
  forest := by
    rintro d _ ⟨i, l, b, rfl, -⟩
    rfl
  refusals := by
    rintro d _ ⟨i, l, b, rfl, hl, -⟩
    simpa [Document.refusals] using congrArg List.length hl
  poll := by
    rintro d _ ⟨i, l, b, rfl, hl, h⟩ hf N hbefore hafter
    obtain ⟨hres, hsame⟩ := h.poll hf hbefore hafter
    unfold Edit.poll
    dsimp only
    rcases hd : d.audience.poll d.forest N with ⟨rd, a'⟩
    rcases he : b.poll d.forest N with ⟨re, b'⟩
    rw [hd, he] at hres hsame
    obtain rfl : re = rd := hres
    cases re with
    | ok _ => exact ⟨rfl, i, l, b', rfl, hl, hsame⟩
    | error fault => exact ⟨rfl, i, _, b', rfl, by simp [hl], hsame⟩
  announce := by
    rintro d _ ⟨i, l, b, rfl, hl, h⟩ hf N hbefore hafter
    obtain ⟨hres, hsame⟩ := h.announce hf hbefore hafter
    unfold Edit.announce
    dsimp only
    rcases hd : d.audience.announce d.forest N with ⟨rd, a'⟩
    rcases he : b.announce d.forest N with ⟨re, b'⟩
    rw [hd, he] at hres hsame
    obtain rfl : re = rd := hres
    cases re with
    | ok _ => exact ⟨rfl, i, l, b', rfl, hl, hsame⟩
    | error fault => exact ⟨rfl, i, _, b', rfl, by simp [hl], hsame⟩
  write := by
    rintro d _ ⟨i, l, b, rfl, h⟩ f
    exact ⟨i, l, b, rfl, h⟩
  advance := by
    rintro d _ ⟨i, l, b, rfl, h⟩
    exact ⟨i, l, b, rfl, h⟩
  count := by
    rintro d _ ⟨i, l, b, rfl, -⟩ d₁ _ ⟨i₁, l₁, b₁, rfl, h⟩ k _ rfl
    exact ⟨i₁, l₁, b₁, rfl, h⟩

end TrackedGraph
