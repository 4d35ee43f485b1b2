/-
A session of recording.

Starting a session seats a recorder and subscribes it to the contents of the roots. From
then on it hears the contents of the roots it has not been severed from, over any run of
edits, suspensions and whatever else the audience does (`Session.recorded`).
-/
import TrackedGraph.Proofs.Document.Shaping
import TrackedGraph.Proofs.Recording.Following

set_option autoImplicit false

namespace TrackedGraph

open Edit

variable {τ : Type} {d d' d₀ : Document τ} {o : ObserverId} {n m : NodeId} {p : PropertyId}
  {roots tracked : List NodeId} {r : Recording} {schema : Schema}

/-! ## Mixed content that owns what it mentions -/

/-- Where mixed content mentions owned nodes only, it claims whatever it mentions. -/
theorem Forest.Typed.mem_claims_of_entry {f : Forest} {s : Slot} {g : Feature} {e : Entry Value}
    (ht : f.Typed) (ho : f.schema.OwningMembers) (hg : f.feature n p = .ok g)
    (hx : g.isMixed = true) (hs : f.slot n p = .ok s) (he : e ∈ s.value.entries)
    (hm : e.value.node? = some m) : (m, e.property) ∈ f.claims n p s.value := by
  have hfits := ht.fits n p g s hg (ht.shaped.owner_of_mixed hg hx) hs
  cases hset : s.isSet with
  | false =>
    rw [hfits.rest hset] at he
    simp [Property.restValue, hx, Value.entries, Value.mixed?] at he
  | true =>
    obtain ⟨entries, hv, hall⟩ := (Forest.fits_mixed hx).mp (hfits.fits hset)
    rw [hv] at he ⊢
    replace he : e ∈ entries := he
    obtain ⟨⟨h, hh, howner⟩, k, hk, hitem, -⟩ := hall e he
    obtain rfl := ok_unique hh hk
    obtain ⟨t, htn, hht⟩ := Forest.feature_eq_ok.mp hh
    -- A member that refers without owning is what the schema excludes.
    have hrole := ho t e.property h hht (by rw [howner]; simp)
    have hown : h.owns = true := by
      rw [Forest.node?_eq_some hm] at hitem
      unfold Schema.itemFits at hitem
      simp only [Property.owns, beq_iff_eq]
      cases hr : h.role with
      | containment => rfl
      | reference => exact absurd hr hrole
      | mixed => simp [hr] at hitem
      | _ => cases hscalar : h.scalar <;> simp [hr, hscalar, ScalarType.accepts] at hitem
    exact Forest.mem_claims.mpr ⟨g, hg, .inr ⟨hx, Forest.ownsAt_iff.mpr ⟨h, hh, hown⟩,
      e, he, rfl, hm⟩⟩

/-- Mixed content that mentions owned nodes only overlooks no child. -/
theorem Forest.Typed.not_overlooks {f : Forest} {v : Value} (ht : f.Typed)
    (ho : f.schema.OwningMembers) : ¬ f.Overlooks n p v := by
  rintro ⟨s, _, place, hs, hcv, hcn, hcs, -⟩
  obtain ⟨⟨c, q⟩, hq, rfl⟩ := List.mem_map.mp hcv
  refine hcs ?_
  obtain ⟨g, hg, ⟨hown, -⟩ | ⟨hx, -⟩⟩ := Forest.mem_claims.mp hq
  · rw [Forest.claims_of_containment hg hown, List.map_map]
    exact List.mem_map.mpr ⟨_, hcn, rfl⟩
  · have hfits := ht.fits n p g s hg (ht.shaped.owner_of_mixed hg hx) hs
    have hentry : ∃ e ∈ s.value.entries, e.value.node? = some c := by
      cases hset : s.isSet with
      | false =>
        rw [hfits.rest hset] at hcn
        simp [Property.restValue, hx, Value.nodes] at hcn
      | true =>
        obtain ⟨entries, hv, -⟩ := (Forest.fits_mixed hx).mp (hfits.fits hset)
        rw [hv] at hcn ⊢
        exact List.mem_filterMap.mp hcn
    obtain ⟨e, he, hc⟩ := hentry
    exact List.mem_map.mpr ⟨_, ht.mem_claims_of_entry ho hg hx hs he hc, rfl⟩

theorem Mutation.not_overlooks {f : Forest} (m : Mutation) (ht : f.Typed)
    (ho : f.schema.OwningMembers) : ¬ m.Overlooks f := by
  cases m with
  | set n p v => exact ht.not_overlooks ho
  | _ => exact id

/-- **Where mixed content mentions owned nodes only**, and defaults list no child, every
document that is reached keeps places and slots in agreement. -/
theorem Document.Reachable.sound_of_owning {declarations : List TypeDeclaration} {schema : Schema}
    (hb : Schema.build declarations = .ok schema) (hn : schema.NullContainment)
    (hp : schema.PlainDefaults) (ho : schema.OwningMembers)
    (h : d.Reachable schema fun _ _ => True) :
    d.forest.Sound True ∧ d.forest.schema.OwningMembers := by
  have hr : schema.Regular := ⟨Schema.coherent_of_build hb, hn, hp⟩
  have howning : ∀ d' : Document τ, d'.Reachable schema (fun _ _ => True) →
      d'.forest.schema.OwningMembers := fun d' hd' => by
    rw [hd'.schema_eq hr.coherent]
    exact ho
  refine ⟨h.sound hr fun _ d' m hd' _ _ => ?_, howning d h⟩
  have hweak : d'.forest.Sound False := hd'.sound hr fun hs => absurd hs id
  exact m.not_overlooks hweak.toTyped (howning d' hd')

/-! ## Starting -/

theorem Audience.member?_add {a : Audience τ} {x : Member τ} :
    (a.add x).2.member? (a.add x).1 = some x := by
  unfold Audience.add Audience.member?
  split
  · next i hi =>
    obtain ⟨hlt, -⟩ := List.findIdx?_eq_some_iff_getElem.mp hi
    simp [hlt]
  · simp

/-- The audience once a recorder has joined it. -/
def Audience.joined (a : Audience τ) (r : Recording) (tracked : List NodeId) : Audience τ :=
  let (o, a) := a.add (.recorder r.journal r.policy.strict)
  let a := { a with subscriptions := a.subscriptions.changeAll o (tracked.map .subscribe) }
  a.setJournal r.journal { a.journal r.journal with seat := some o, recording := true }

theorem Recording.join_apply :
    r.join tracked d = (.ok (), { d with audience := d.audience.joined r tracked }) := rfl

/-- A member is given a seat that nobody has. -/
theorem Audience.member?_add_free {a : Audience τ} {x : Member τ} :
    a.member? (a.add x).1 = none := by
  unfold Audience.add Audience.member?
  split
  · next i hi =>
    obtain ⟨hlt, hnone, -⟩ := List.findIdx?_eq_some_iff_getElem.mp hi
    rw [List.getElem?_eq_getElem hlt, Option.isNone_iff_eq_none.mp hnone]
    rfl
  · rw [List.getElem?_eq_none (Nat.le_refl _)]
    rfl

theorem Audience.subscriptions_add {a : Audience τ} {x : Member τ} :
    (a.add x).2.subscriptions = a.subscriptions := by
  unfold Audience.add
  split <;> rfl

theorem Audience.subscriptions_joined {a : Audience τ} : (a.joined r tracked).subscriptions =
    a.subscriptions.changeAll (a.add (.recorder r.journal r.policy.strict)).1
      (tracked.map .subscribe) := by
  rw [← Audience.subscriptions_add (a := a) (x := .recorder r.journal r.policy.strict)]
  rfl

theorem Audience.has_joined {a : Audience τ} :
    (a.joined r tracked).subscriptions.has (a.add (.recorder r.journal r.policy.strict)).1 m = true ↔
      a.subscriptions.has (a.add (.recorder r.journal r.policy.strict)).1 m = true ∨ m ∈ tracked := by
  rw [Audience.subscriptions_joined]
  exact Subscriptions.has_changeAll_subscribe tracked

theorem Audience.member?_joined {a : Audience τ} :
    (a.joined r tracked).member? (a.add (.recorder r.journal r.policy.strict)).1 =
      some (.recorder r.journal r.policy.strict) :=
  Audience.member?_add

/-- The seat that the journal notes is the one the recorder was given. -/
theorem Audience.seat_joined {a : Audience τ}
    (h : ((a.joined r tracked).journal r.journal).seat = some o) :
    (a.add (.recorder r.journal r.policy.strict)).1 = o := by
  unfold Audience.joined at h
  simp only [Audience.journal_setJournal] at h
  split_ifs at h with hk
  · exact Option.some.inj h
  · have hle := Nat.le_of_not_lt fun hlt => hk ⟨trivial, hlt⟩
    simp [Audience.journal, List.getElem?_eq_none hle] at h

theorem forM_typeOf (h : ∀ x ∈ roots, d.forest.contains x = true) :
    (roots.forM fun root => do let _ ← Edit.query (·.typeOf root) : Edit τ Unit) d = (.ok (), d) := by
  induction roots with
  | nil => rfl
  | cons x xs ih =>
    obtain ⟨t, ht⟩ := Forest.contains_iff.mp (h x List.mem_cons_self)
    refine (bind_of_ok (a := ()) (s := d) ?_).trans (ih fun y hy => h y (List.mem_cons_of_mem _ hy))
    exact bind_of_ok (congrArg (·, d) ht)

/-- **Starting a session**, where it can be started. -/
theorem Recording.startFrom_apply (hidle : r.isRunning d = false)
    (h : ∀ x ∈ roots, d.forest.contains x = true) :
    r.startFrom roots d = r.join (d.forest.closure roots) { d with
      sessions := d.sessions + 1
      audience := d.audience.setJournal r.journal
        ((d.audience.journal r.journal).startSession ⟨d.sessions, roots⟩
          (d.forest.closure roots)) } := by
  unfold Recording.startFrom
  refine (bind_of_ok (show r.read d = (.ok (d.audience.journal r.journal), d) from rfl)).trans ?_
  rw [if_neg (by unfold Recording.isRunning at hidle; simp [hidle])]
  exact (bind_of_ok (k := fun _ => _) (forM_typeOf h)).trans rfl

/-- Looking the roots up changes nothing, and goes through only if they all exist. -/
theorem forM_typeOf_ends (roots : List NodeId) (d : Document τ) :
    (roots.forM fun root => do let _ ← Edit.query (·.typeOf root) : Edit τ Unit).Ends d
      fun res d' => d' = d ∧ (res = .ok () → ∀ x ∈ roots, d.forest.contains x = true) := by
  induction roots with
  | nil => exact ⟨rfl, by simp⟩
  | cons x xs ih =>
    refine Ends.bind (R := fun res d' => d' = d ∧ (res = .ok () → d.forest.contains x = true))
      ?_ ?_ ?_
    · refine Ends.query (fun t ht => ⟨rfl, fun _ => Forest.contains_iff.mpr ⟨t, ht⟩⟩) ?_
      exact fun e _ => ⟨rfl, fun he => absurd he (by simp)⟩
    · rintro ⟨⟩ d' ⟨rfl, hx⟩
      refine ih.mono fun res d' hxs => ⟨hxs.1, fun hok => ?_⟩
      exact List.forall_mem_cons.mpr ⟨hx rfl, hxs.2 hok⟩
    · exact fun e d' hd => ⟨hd.1, fun he => absurd he (by simp)⟩

/-- **Starting a session** goes through only where it can be started, and changes nothing
where it does not. -/
theorem Recording.startFrom_ends (r : Recording) (roots : List NodeId) (d : Document τ) :
    (r.startFrom roots).Ends d fun res d' =>
      r.isRunning d = false ∧ (∀ x ∈ roots, d.forest.contains x = true) ∨
        d' = d ∧ ∃ e, res = .error e := by
  unfold Recording.startFrom
  refine Ends.bind (R := fun res d' => d' = d ∧ res = .ok (d.audience.journal r.journal))
    ⟨rfl, rfl⟩ ?_ fun e d' hd => absurd hd.2 (by simp)
  rintro j d' ⟨rfl, hj⟩
  obtain rfl := Except.ok.inj hj
  by_cases hrun : (d'.audience.journal r.journal).recording = true
  · rw [if_pos hrun]
    exact .inr ⟨rfl, _, rfl⟩
  · rw [if_neg hrun]
    refine Ends.bind (forM_typeOf_ends roots d') (fun _ _ hd => ?_) fun e _ hd =>
      .inr ⟨hd.1, e, rfl⟩
    exact .inl ⟨Bool.eq_false_iff.mpr hrun, hd.2 rfl⟩

theorem Recording.of_startFrom_ok (h : (r.startFrom roots d).1 = .ok ()) :
    r.isRunning d = false ∧ ∀ x ∈ roots, d.forest.contains x = true := by
  rcases r.startFrom_ends roots d with hstart | ⟨-, e, he⟩
  · exact hstart
  · rw [h] at he
    exact absurd he (by simp)

/-- A session is started with its recorder subscribed to the contents of the roots. -/
theorem Recording.startFrom_recorded (h : r.startFrom roots d = (.ok (), d'))
    (hf : d.forest.Sound True) (hseat : (d'.audience.journal r.journal).seat = some o)
    (hclean : ∀ n, ¬ d.Hears o n) :
    d'.forest = d.forest ∧ d'.history = d.history ∧
      d'.Recorded o r.journal r.policy.strict roots [] := by
  obtain ⟨hidle, hroots⟩ := Recording.of_startFrom_ok (congrArg Prod.fst h)
  rw [Recording.startFrom_apply hidle hroots, Recording.join_apply, Prod.mk.injEq] at h
  generalize ha : d.audience.setJournal r.journal _ = a at h
  have hsubs : a.subscriptions = d.audience.subscriptions := by
    rw [← ha]
    rfl
  obtain ⟨-, rfl⟩ := h
  refine ⟨rfl, rfl, ?_⟩
  obtain rfl : (a.add (.recorder r.journal r.policy.strict)).1 = o := Audience.seat_joined hseat
  have hears : ∀ m, (a.joined r (d.forest.closure roots)).subscriptions.has
      (a.add (.recorder r.journal r.policy.strict)).1 m = true ↔ m ∈ d.forest.closure roots := by
    intro m
    rw [Audience.has_joined, hsubs]
    exact or_iff_right (hclean m)
  refine ⟨⟨hf, Audience.member?_joined, Forest.tracks_closure hf hears⟩, hroots,
    fun _ x hx => (hears x).mpr ((Forest.mem_closure hf).mpr ⟨x, hx, hroots x hx, .refl⟩), by simp⟩

/-! ## Running -/

/-- A run of a session: edits by anybody, suspensions, and whatever else the audience does
as long as the recorder keeps its seat and its subscriptions. -/
inductive Recording.Session (r : Recording) (o : ObserverId) (d₁ : Document τ) :
    Document τ → Prop
  | start : Session r o d₁ d₁
  | edit (d : Document τ) (m : Mutation) (h : Session r o d₁ d) : Session r o d₁ (m.run d).2
  | suspend (d : Document τ) (h : Session r o d₁ d) : Session r o d₁ (r.suspend d).2
  | unsuspend (d : Document τ) (h : Session r o d₁ d) : Session r o d₁ (r.unsuspend d).2
  | other (d d' : Document τ) (h : Session r o d₁ d) (hf : d'.forest = d.forest)
      (hh : d'.history = d.history) (hm : d'.audience.member? o = d.audience.member? o)
      (hs : ∀ n, d'.Hears o n ↔ d.Hears o n) : Session r o d₁ d'

/-- **A recorder follows the tree for as long as the session runs.** -/
theorem Recording.Session.recorded {k : Nat} {strict : Bool} {l : List Announcement}
    (h : r.Session o d₀ d) (h₀ : d₀.Recorded o k strict roots l)
    (ho : d₀.forest.schema.OwningMembers) :
    d.forest.schema.OwningMembers ∧
      ∃ l', d.history = d₀.history ++ l' ∧ d.Recorded o k strict roots (l ++ l') := by
  induction h with
  | start => exact ⟨ho, [], (List.append_nil _).symm, by rw [List.append_nil]; exact h₀⟩
  | edit d m _ ih =>
    obtain ⟨hown, l₁, hl₁, hd⟩ := ih
    have hchain := m.chain hd.sound fun _ _ => m.not_overlooks hd.sound.toTyped hown
    obtain ⟨l₂, hl₂, hd₂⟩ := hchain.recorded hd
    refine ⟨by rw [hchain.schema]; exact hown, l₁ ++ l₂, ?_, ?_⟩
    · rw [hl₂, hl₁, List.append_assoc]
    · rw [← List.append_assoc]
      exact hd₂
  | suspend d _ ih =>
    obtain ⟨hown, l₁, hl₁, hd⟩ := ih
    exact ⟨hown, l₁, hl₁, hd.congr rfl rfl fun _ => Iff.rfl⟩
  | unsuspend d _ ih =>
    obtain ⟨hown, l₁, hl₁, hd⟩ := ih
    exact ⟨hown, l₁, hl₁, hd.congr rfl rfl fun _ => Iff.rfl⟩
  | other d d' _ hf hh hm hs ih =>
    obtain ⟨hown, l₁, hl₁, hd⟩ := ih
    exact ⟨by rw [hf]; exact hown, l₁, hh.trans hl₁, hd.congr hf hm hs⟩

/-- **A recorder is subscribed to the contents of the roots it has not been severed from.**
It hears exactly the contents of all roots until a change severs one, and it misses some
of them right after every change that does. -/
theorem Recording.Session.hears_iff {declarations : List TypeDeclaration} {d₁ : Document τ}
    (hb : Schema.build declarations = .ok schema) (hn : schema.NullContainment)
    (hp : schema.PlainDefaults) (ho : schema.OwningMembers)
    (h₀ : d₀.Reachable schema fun _ _ => True)
    (hstart : r.startFrom roots d₀ = (.ok (), d₁))
    (hseat : (d₁.audience.journal r.journal).seat = some o) (hclean : ∀ n, ¬ d₀.Hears o n)
    (h : r.Session o d₁ d) :
    (∀ n, d.Hears o n ↔ ∃ x ∈ roots, d.Hears o x ∧ n ∈ d.forest.contents x) ∧
      ((∀ a ∈ d.history.drop d₁.history.length, ¬ a.Severs roots) →
        ∀ n, d.Hears o n ↔ n ∈ d.forest.closure roots) ∧
      ∀ a, (d.history.drop d₁.history.length).getLast? = some a → a.Severs roots →
        ∃ n ∈ d.forest.closure roots, ¬ d.Hears o n := by
  have hr : schema.Regular := ⟨Schema.coherent_of_build hb, hn, hp⟩
  have howning : ∀ d' : Document τ, d'.Reachable schema (fun _ _ => True) →
      d'.forest.schema.OwningMembers := fun d' hd' => by
    rw [hd'.schema_eq hr.coherent]
    exact ho
  have hf : d₀.forest.Sound True := h₀.sound hr fun _ d' m hd' _ _ => by
    have hweak : d'.forest.Sound False := hd'.sound hr fun hs => absurd hs id
    exact m.not_overlooks hweak.toTyped (howning d' hd')
  obtain ⟨hf₁, -, hd₁⟩ := Recording.startFrom_recorded hstart hf hseat hclean
  obtain ⟨-, l, hl, hd⟩ := h.recorded hd₁ (by rw [hf₁]; exact howning d₀ h₀)
  rw [List.nil_append] at hd
  rw [hl, List.drop_left]
  refine ⟨fun n => hd.tracks.iff.trans ?_, fun hnot n => hd.tracks.iff.trans ?_, fun a ha hsev => ?_⟩
  · simp only [Forest.mem_contents hd.sound]
    constructor
    · rintro ⟨x, hx, hear, hwithin⟩
      exact ⟨x, hx, hear, hd.exist x hx, hwithin⟩
    · rintro ⟨x, hx, hear, -, hwithin⟩
      exact ⟨x, hx, hear, hwithin⟩
  · rw [Forest.mem_closure hd.sound]
    constructor
    · rintro ⟨x, hx, -, hwithin⟩
      exact ⟨x, hx, hd.exist x hx, hwithin⟩
    · rintro ⟨x, hx, -, hwithin⟩
      exact ⟨x, hx, hd.heard hnot x hx, hwithin⟩
  · obtain ⟨x, hx, hmiss⟩ := hd.missed a ha hsev
    exact ⟨x, (Forest.mem_closure hd.sound).mpr ⟨x, hx, hd.exist x hx, .refl⟩, hmiss⟩

/-- An outline of one entry. -/
def Outline.blank : Document Unit where
  forest := ⟨Outline.schema, [⟨⟨0⟩, [⟨.list [], false⟩, ⟨.null, false⟩], none⟩]⟩
  root := ⟨0⟩
  audience := { journals := [{}], memory := () }

/-- The recording that writes the journal of the outline. -/
def Outline.recording : Recording := ⟨0, {}⟩

theorem Outline.blank_reachable (allowed : Document Unit → Mutation → Prop) :
    Outline.blank.Reachable Outline.schema allowed :=
  .other { Outline.blank with audience := { memory := () } } _ (.new "Entry" () _ rfl) rfl rfl

/-- Two entries, one below the other, both roots of a session. -/
def Outline.nested : Document Unit :=
  (recording.startFrom [⟨0⟩, ⟨1⟩]
    (blank.after [.create "Entry", .add ⟨0⟩ entries (.node ⟨1⟩)])).2

/-- The recorder hears both entries after a title was set, and only the upper one once the
lower one was taken out, though it is a root. -/
theorem Recording.Session.hears_iff_nested :
    let d := Outline.nested.after [.set ⟨0⟩ Outline.title (.str "A")]
    let d' := Outline.nested.after [.remove ⟨0⟩ Outline.entries 0]
    (∀ n, d.Hears ⟨0⟩ n ↔ n ∈ d.forest.closure [⟨0⟩, ⟨1⟩]) ∧
      ∃ n ∈ d'.forest.closure [⟨0⟩, ⟨1⟩], ¬ d'.Hears ⟨0⟩ n := by
  have hreach : (Outline.blank.after
      [.create "Entry", .add ⟨0⟩ Outline.entries (.node ⟨1⟩)]).Reachable Outline.schema
        fun _ _ => True := .edit _ _ (.edit _ _ (Outline.blank_reachable _) trivial) trivial
  have hstart : Outline.recording.startFrom [⟨0⟩, ⟨1⟩] (Outline.blank.after
      [.create "Entry", .add ⟨0⟩ Outline.entries (.node ⟨1⟩)]) = (.ok (), Outline.nested) := by
    refine Prod.ext ?_ rfl
    rfl
  have hseat : (Outline.nested.audience.journal 0).seat = some ⟨0⟩ := by decide +kernel
  have hnobody : (Outline.blank.after [.create "Entry", .add ⟨0⟩ Outline.entries
      (.node ⟨1⟩)]).audience.subscriptions = {} := by decide +kernel
  have hclean : ∀ n, ¬ (Outline.blank.after
      [.create "Entry", .add ⟨0⟩ Outline.entries (.node ⟨1⟩)]).Hears ⟨0⟩ n := fun n h => by
    rw [Document.Hears, hnobody] at h
    exact absurd h (by simp [Subscriptions.has])
  intro d d'
  refine ⟨(hears_iff Outline.build_types (by decide) (by decide) (by decide) hreach hstart hseat
    hclean (.edit _ _ .start)).2.1 (by decide +kernel), ?_⟩
  refine (hears_iff Outline.build_types (by decide) (by decide) (by decide) hreach hstart hseat
    hclean (.edit _ _ .start)).2.2 _ rfl (by decide +kernel)

end TrackedGraph
