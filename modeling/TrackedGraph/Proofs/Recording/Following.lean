/-
A recorder follows the tree.

While a recorder sits in the audience, every step of an edit leaves it subscribed to the
contents of those session roots that it is subscribed to itself (`Step.follows`). A root
keeps its subscription until a tracked node lets a child go that is the root or has it
below. Such a change severs the root from the session: its contents are dropped with the
child's, though it goes on being a root.
-/
import TrackedGraph.Proofs.Audience
import TrackedGraph.Proofs.Document.Reachable
import TrackedGraph.Proofs.Tracking
import TrackedGraph.Recording

set_option autoImplicit false

namespace TrackedGraph

variable {τ : Type} {d d' : Document τ} {o : ObserverId} {n m c r : NodeId}
  {roots : List NodeId} {k : Nat} {strict : Bool}

/-! ## Plans -/

theorem Tracking.plan_eq_ok {f : Forest} {N : Notice} {p : Tracking.Plan}
    (h : Tracking.plan strict f N = .ok p) :
    Tracking.movement f N = .ok (p.leaving, p.entering) ∧ f.slot N.node N.property = .ok p.prior := by
  simp only [Tracking.plan, bind_eq_ok] at h
  obtain ⟨t, -, g, -, h⟩ := h
  split_ifs at h
  · exact absurd h (by simp)
  · simp only [bind_eq_ok] at h
    obtain ⟨⟨leaving, entering⟩, hm, h⟩ := h
    simp only [pure_eq_ok, Except.ok.injEq] at h
    obtain ⟨s, hs, rfl⟩ := h
    exact ⟨hm, hs⟩

/-- What a plan drops and adds is what sits below the children that a write frees, and
below those that enter the slot. -/
theorem Moves.mem_contents {f : Forest} {N : Notice} {g : Feature} {old new : Slot}
    {freed : List NodeId} {taken : List (NodeId × PropertyId)} {leaving entering : List NodeId}
    (hf : f.Sound True) (hw : f.Rewrite True N.node N.property g old new freed taken)
    (hm : Moves f N old freed taken) (h : Tracking.movement f N = .ok (leaving, entering)) :
    (m ∈ leaving.flatMap f.contents ↔ ∃ c ∈ freed, f.Within m c) ∧
      (m ∈ entering.flatMap f.contents ↔
        ∃ c, f.Enters N.node N.property old taken c ∧ f.Within m c) := by
  obtain ⟨leaving', entering', hm', hleaving, hentering⟩ := hm
  rw [h, Except.ok.injEq, Prod.mk.injEq] at hm'
  obtain ⟨rfl, rfl⟩ := hm'
  simp only [List.mem_flatMap, Forest.mem_contents hf]
  constructor
  · constructor
    · rintro ⟨c, hc, -, hwithin⟩
      exact ⟨c, (hleaving c).mp hc, hwithin⟩
    · rintro ⟨c, hc, hwithin⟩
      exact ⟨c, (hleaving c).mpr hc, (hw.under_of_freed hf hc).contains, hwithin⟩
  · constructor
    · rintro ⟨c, hc, -, hwithin⟩
      exact ⟨c, (hentering c).mp hc, hwithin⟩
    · rintro ⟨c, hc, hwithin⟩
      -- Who enters is taken by the slot, and so exists.
      obtain ⟨x, hx, rfl⟩ := List.mem_map.mp hc.1
      exact ⟨x.1, (hentering _).mpr hc, hw.fits.contains_of_claims hf.regular hw.feature
        (hw.claimed _ hx), hwithin⟩

/-! ## One step -/

/-- Whether the observer on a seat is subscribed to a node, as a proposition. -/
def Document.Hears (d : Document τ) (o : ObserverId) (n : NodeId) : Prop :=
  d.audience.subscriptions.has o n = true

/-- A recorder has the seat, and it is subscribed to the contents of the roots that it is
subscribed to. -/
structure Document.Follows (d : Document τ) (o : ObserverId) (k : Nat) (strict : Bool)
    (roots : List NodeId) : Prop where
  sound : d.forest.Sound True
  seated : d.audience.member? o = some (.recorder k strict)
  tracks : d.forest.Tracks roots (d.Hears o)

/-- What a change that was announced and accepted did to a recorder's subscriptions. -/
theorem Document.Follows.hears_announce {N : Notice} (hd : d.Follows o k strict roots)
    (h : (Edit.announce N d).1 = .ok ()) :
    d.Hears o N.node ∧ (∃ p, Tracking.plan strict d.forest N = .ok p ∧ ∀ m,
        ((Edit.announce N d).2.Hears o m ↔ d.Hears o m ∧ m ∉ p.leaving.flatMap d.forest.contents ∨
          m ∈ p.entering.flatMap d.forest.contents)) ∨
      ¬ d.Hears o N.node ∧ ∀ m, ((Edit.announce N d).2.Hears o m ↔ d.Hears o m) := by
  have htold := (announce_apply N d).1.symm.trans h
  unfold Document.Hears
  rw [audience_announce]
  by_cases hn : d.audience.subscriptions.has o N.node = true
  · exact .inl ⟨hn, Audience.announce_has htold hd.seated hn⟩
  · exact .inr ⟨hn, fun m => by rw [Audience.announce_has_of_not hn]⟩

theorem Document.Follows.congr (hd : d.Follows o k strict roots) (hf : d'.forest = d.forest)
    (hm : d'.audience.member? o = d.audience.member? o)
    (hs : ∀ m, d'.Hears o m ↔ d.Hears o m) : d'.Follows o k strict roots :=
  ⟨by rw [hf]; exact hd.sound, hm.trans hd.seated, by rw [hf]; exact hd.tracks.congr hs⟩

/-- Asking and being refused are nothing to a recorder. -/
theorem hears_poll {N : Notice} : (Edit.poll N d).2.Hears o m ↔ d.Hears o m := by
  unfold Document.Hears
  rw [(poll_apply N d).2]
  simp only [Audience.poll]
  rw [Audience.askAll_memory]

theorem hears_refused {N : Notice} {e : Fault} (h : (Edit.announce N d).1 = .error e) :
    (Edit.announce N d).2.Hears o m ↔ d.Hears o m := by
  unfold Document.Hears
  rw [audience_announce, Audience.announce_error ((announce_apply N d).1.symm.trans h)]

theorem member?_poll {N : Notice} :
    (Edit.poll N d).2.audience.member? o = d.audience.member? o := by
  rw [(poll_apply N d).2]
  exact Audience.member?_askAll

theorem member?_announced {N : Notice} :
    (Edit.announce N d).2.audience.member? o = d.audience.member? o := by
  rw [audience_announce]
  exact Audience.member?_announce

theorem journals_poll {N : Notice} : (Edit.poll N d).2.audience.journals = d.audience.journals := by
  rw [(poll_apply N d).2]
  simp only [Audience.poll]
  rw [Audience.askAll_memory]

theorem journals_refused {N : Notice} {e : Fault} (h : (Edit.announce N d).1 = .error e) :
    (Edit.announce N d).2.audience.journals = d.audience.journals := by
  rw [audience_announce, Audience.announce_error ((announce_apply N d).1.symm.trans h)]

theorem journals_announce_length {N : Notice} :
    (Edit.announce N d).2.audience.journals.length = d.audience.journals.length := by
  rw [audience_announce]
  exact Audience.length_journals_announce

section audience

variable {strict : Prop}

/-- Nobody takes a seat or leaves it in the course of an edit, and no journal is started. -/
theorem Step.member? (h : Step strict d d') : d'.audience.member? o = d.audience.member? o := by
  cases h with
  | asked N => exact member?_poll
  | refused N e h => exact member?_announced
  | changed N g old new freed taken h hc hw hm => exact member?_announced
  | unwritten N g h hn hg ho hm => exact member?_announced
  | created t n f h => rfl
  | counted k => rfl

theorem Step.journals_length (h : Step strict d d') :
    d'.audience.journals.length = d.audience.journals.length := by
  cases h with
  | asked N => rw [journals_poll]
  | refused N e h => exact journals_announce_length
  | changed N g old new freed taken h hc hw hm => exact journals_announce_length
  | unwritten N g h hn hg ho hm => exact journals_announce_length
  | created t n f h => rfl
  | counted k => rfl

end audience

/-- **A step leaves a recorder on its seat**, subscribed to the contents of the roots that
it is subscribed to. -/
theorem Step.follows (h : Step True d d') (hd : d.Follows o k strict roots) :
    d'.Follows o k strict roots := by
  cases h with
  | asked N => exact hd.congr (forest_poll N) member?_poll fun _ => hears_poll
  | refused N e h => exact hd.congr (forest_announce N) member?_announced fun _ => hears_refused h
  | changed N g old new freed taken h hc hw hm =>
    refine ⟨hd.sound.write hw, member?_announced.trans hd.seated, ?_⟩
    rcases hd.hears_announce h with ⟨hn, p, hp, hhears⟩ | ⟨hn, hhears⟩
    · refine hd.tracks.write hd.sound hw hn fun m => (hhears m).trans ?_
      obtain ⟨hleaving, hentering⟩ := (hm trivial).mem_contents (m := m) hd.sound hw
        (Tracking.plan_eq_ok hp).1
      rw [hleaving, hentering]
      simp only [not_exists, not_and]
    · exact (hd.tracks.write_of_not hd.sound hw hn).congr hhears
  | unwritten N g h hn hg ho hm =>
    refine hd.congr (forest_announce N) member?_announced fun m => ?_
    rcases hd.hears_announce h with ⟨hn, p, hp, hhears⟩ | ⟨hn, hhears⟩
    · have hmove := (Tracking.plan_eq_ok hp).1
      rw [hm, Except.ok.injEq, Prod.mk.injEq] at hmove
      rw [hhears, ← hmove.1, ← hmove.2]
      simp
    · exact hhears m
  | created t n f h =>
    refine ⟨hd.sound.create h, hd.seated, ⟨fun a b hu hb => ?_, fun m hm => ?_⟩⟩
    · refine hd.tracks.down a b ?_ hb
      obtain ⟨q, hq⟩ := hu
      rw [Forest.place?_create h] at hq
      exact ⟨q, hq⟩
    · obtain ⟨r, hr, hHr, hwithin⟩ := hd.tracks.up m hm
      refine ⟨r, hr, hHr, hwithin.of_under fun a b hu => ?_⟩
      obtain ⟨q, hq⟩ := hu
      rw [← Forest.place?_create h] at hq
      exact ⟨q, hq⟩
  | counted k => exact hd.congr rfl rfl fun _ => Iff.rfl

/-! ## Severed roots -/

/-- The children that a change takes out. -/
def Announcement.leaving (a : Announcement) : List NodeId :=
  match Tracking.movement a.forest a.notice with
  | .ok (leaving, _) => leaving
  | .error _ => []

theorem Announcement.leaving_eq {a : Announcement} {leaving entering : List NodeId}
    (h : Tracking.movement a.forest a.notice = .ok (leaving, entering)) : a.leaving = leaving := by
  unfold Announcement.leaving
  rw [h]

/-- The change takes a child out of the tracked tree that is a root of the session, or has
one below it. -/
def Announcement.Severs (roots : List NodeId) (a : Announcement) : Prop :=
  a.notice.node ∈ a.forest.closure roots ∧
    ∃ c ∈ a.leaving, ∃ r ∈ roots, r ∈ a.forest.contents c

instance (roots : List NodeId) (a : Announcement) : Decidable (a.Severs roots) :=
  inferInstanceAs (Decidable (_ ∧ _))

/-- A recorder follows the tree, and of the changes `l` since the start of the session, none
has severed a root as long as it hears all roots; it misses one right after a change that
does. -/
structure Document.Recorded (d : Document τ) (o : ObserverId) (k : Nat) (strict : Bool)
    (roots : List NodeId) (l : List Announcement) : Prop extends d.Follows o k strict roots where
  exist : ∀ r ∈ roots, d.forest.contains r = true
  heard : (∀ a ∈ l, ¬ a.Severs roots) → ∀ r ∈ roots, d.Hears o r
  missed : ∀ a, l.getLast? = some a → a.Severs roots → ∃ r ∈ roots, ¬ d.Hears o r

theorem Document.Recorded.congr {l : List Announcement} (hd : d.Recorded o k strict roots l)
    (hf : d'.forest = d.forest) (hm : d'.audience.member? o = d.audience.member? o)
    (hs : ∀ m, d'.Hears o m ↔ d.Hears o m) : d'.Recorded o k strict roots l := by
  refine ⟨hd.toFollows.congr hf hm hs, by rw [hf]; exact hd.exist, fun h r hr => ?_, ?_⟩
  · exact (hs r).mpr (hd.heard h r hr)
  · intro a ha hsev
    obtain ⟨r, hr, hmiss⟩ := hd.missed a ha hsev
    exact ⟨r, hr, fun h => hmiss ((hs r).mp h)⟩

section severing

variable {l : List Announcement} {N : Notice}

/-- A root is heard still after a change that severs none. -/
theorem Document.Recorded.hears_root (hd : d.Recorded o k strict roots l)
    (h : (Edit.announce N d).1 = .ok ()) (hnot : ¬ Announcement.Severs roots ⟨N, d.forest⟩)
    (hr : r ∈ roots) (hears : d.Hears o r) : (Edit.announce N d).2.Hears o r := by
  rcases hd.hears_announce h with ⟨hn, p, hp, hhears⟩ | ⟨-, hhears⟩
  · refine (hhears r).mpr (.inl ⟨hears, fun hin => hnot ?_⟩)
    obtain ⟨c, hc, hrc⟩ := List.mem_flatMap.mp hin
    obtain ⟨r', hr', -, hwithin⟩ := hd.tracks.up _ hn
    refine ⟨(Forest.mem_closure hd.sound).mpr ⟨r', hr', hd.exist r' hr', hwithin⟩, c, ?_, r, hr, hrc⟩
    rw [Announcement.leaving_eq (Tracking.plan_eq_ok hp).1]
    exact hc
  · exact (hhears r).mpr hears

/-- After a change that severs a root, a root is not heard: that one if the change was heard,
else one further up. -/
theorem Document.Recorded.misses_root {g : Feature} {old new : Slot} {freed : List NodeId}
    {taken : List (NodeId × PropertyId)} (hd : d.Recorded o k strict roots l)
    (h : (Edit.announce N d).1 = .ok ())
    (hw : d.forest.Rewrite True N.node N.property g old new freed taken)
    (hm : Moves d.forest N old freed taken) (hsev : Announcement.Severs roots ⟨N, d.forest⟩) :
    ∃ r ∈ roots, ¬ (Edit.announce N d).2.Hears o r := by
  obtain ⟨hin, c, hc, r, hr, hrc⟩ := hsev
  rcases hd.hears_announce h with ⟨-, p, hp, hhears⟩ | ⟨hn, hhears⟩
  · refine ⟨r, hr, fun hear => ?_⟩
    rw [Announcement.leaving_eq (Tracking.plan_eq_ok hp).1] at hc
    obtain ⟨hleaving, hentering⟩ := hm.mem_contents (m := r) hd.sound hw (Tracking.plan_eq_ok hp).1
    have hleaves := List.mem_flatMap.mpr ⟨c, hc, hrc⟩
    obtain ⟨x, hx, hrx⟩ := hleaving.mp hleaves
    rcases (hhears r).mp hear with ⟨-, hnot⟩ | henter
    · exact hnot hleaves
    · obtain ⟨y, hy, hry⟩ := hentering.mp henter
      exact hw.not_within_both hd.sound hx hrx hy hry
  · obtain ⟨r', hr', -, hwithin⟩ := (Forest.mem_closure hd.sound).mp hin
    exact ⟨r', hr', fun hear => hn (hd.tracks.within hwithin ((hhears r').mp hear))⟩

end severing

/-- **A step of an edit**, with the change it adds to the history. -/
theorem Step.recorded {l : List Announcement} (h : Step True d d')
    (hd : d.Recorded o k strict roots l) :
    ∃ l', d'.history = d.history ++ l' ∧ d'.Recorded o k strict roots (l ++ l') := by
  have hfollows := h.follows hd.toFollows
  have hexist : ∀ r ∈ roots, d'.forest.contains r = true := by
    intro r hr
    obtain ⟨t, ht⟩ := Forest.contains_iff.mp (hd.exist r hr)
    exact Forest.contains_iff.mpr ⟨t, h.typeOf ht⟩
  -- Steps that announce nothing keep the subscriptions.
  have quiet : d'.history = d.history → (∀ m, d'.Hears o m ↔ d.Hears o m) →
      ∃ l', d'.history = d.history ++ l' ∧ d'.Recorded o k strict roots (l ++ l') := by
    intro hhist hs
    refine ⟨[], by rw [hhist, List.append_nil], ?_⟩
    rw [List.append_nil]
    refine ⟨hfollows, hexist, fun h r hr => (hs r).mpr (hd.heard h r hr), fun a ha hsev => ?_⟩
    obtain ⟨r, hr, hmiss⟩ := hd.missed a ha hsev
    exact ⟨r, hr, fun h => hmiss ((hs r).mp h)⟩
  -- Of those that announce a change it matters whether that severs a root.
  have announced : ∀ a, d'.history = d.history ++ [a] →
      (¬ a.Severs roots → ∀ r ∈ roots, d.Hears o r → d'.Hears o r) →
      (a.Severs roots → ∃ r ∈ roots, ¬ d'.Hears o r) →
      ∃ l', d'.history = d.history ++ l' ∧ d'.Recorded o k strict roots (l ++ l') := by
    intro a hhist hkept hmissed
    refine ⟨[a], hhist, hfollows, hexist, fun hnot r hr => ?_, fun b hb hsev => hmissed ?_⟩
    · rw [List.forall_mem_append] at hnot
      exact hkept (hnot.2 a (List.mem_singleton_self a)) r hr (hd.heard hnot.1 r hr)
    · rw [List.getLast?_concat, Option.some.injEq] at hb
      rw [hb]
      exact hsev
  cases h with
  | asked N => exact quiet (history_poll N) fun _ => hears_poll
  | refused N e h => exact quiet (history_announce_error h) fun _ => hears_refused h
  | created t n f h => exact quiet rfl fun _ => Iff.rfl
  | counted k => exact quiet rfl fun _ => Iff.rfl
  | changed N g old new freed taken h hc hw hm =>
    exact announced _ (history_announce_ok h) (fun hnot r hr => hd.hears_root h hnot hr)
      (hd.misses_root h hw (hm trivial))
  | unwritten N g h hn hg ho hm =>
    refine announced _ (history_announce_ok h) (fun hnot r hr => hd.hears_root h hnot hr) fun hsev => ?_
    -- Where nothing leaves no root does.
    obtain ⟨-, c, hc, -⟩ := hsev
    rw [Announcement.leaving_eq hm] at hc
    exact absurd hc (by simp)

theorem Chain.recorded {l : List Announcement} (h : Chain True d d')
    (hd : d.Recorded o k strict roots l) :
    ∃ l', d'.history = d.history ++ l' ∧ d'.Recorded o k strict roots (l ++ l') := by
  induction h with
  | refl => exact ⟨[], (List.append_nil _).symm, by rw [List.append_nil]; exact hd⟩
  | tail _ hs ih =>
    obtain ⟨l₁, hl₁, hd₁⟩ := ih
    obtain ⟨l₂, hl₂, hd₂⟩ := hs.recorded hd₁
    refine ⟨l₁ ++ l₂, by rw [hl₂, hl₁, List.append_assoc], ?_⟩
    rw [← List.append_assoc]
    exact hd₂

end TrackedGraph
