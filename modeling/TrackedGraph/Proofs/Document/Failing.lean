/-
What a failed edit announces.

An edit that fails may have announced changes that were carried out: the children it takes in
were released before somebody refused, and were put back after that. While this goes on a child
sits where it sat before the edit, or nowhere; and a child that enters a slot is one that is put
back, so it sat below the node of that slot before (`Document.Inside`). This is shown part by
part. Only the last change of an edit brings in a child from elsewhere, and an edit whose last
change is accepted does not fail (`Mutation.inside`).
-/
import TrackedGraph.Proofs.Document.Restoring
import TrackedGraph.Proofs.Document.Unrefused
import TrackedGraph.Proofs.Recording.Following

set_option autoImplicit false

namespace TrackedGraph

variable {τ α β : Type} {d : Document τ} {f f₀ : Forest} {h₀ : List Announcement} {N : Notice}
  {n c : NodeId} {p : PropertyId} {v : Value} {restore : List Whereabouts → Edit τ Unit}

/-! ## Children that enter -/

/-- The children that a change brings in. -/
def Announcement.entering (a : Announcement) : List NodeId :=
  match Tracking.movement a.forest a.notice with
  | .ok (_, entering) => entering
  | .error _ => []

theorem Announcement.entering_eq {a : Announcement} {leaving entering : List NodeId}
    (h : Tracking.movement a.forest a.notice = .ok (leaving, entering)) : a.entering = entering := by
  rw [Announcement.entering, h]

theorem Forest.mem_nodes_of_owned {cs : List NodeId} (h : f.owned n p v = .ok cs) (hc : c ∈ cs) :
    c ∈ v.nodes := by
  rw [Forest.owned_eq_claims h] at hc
  obtain ⟨⟨_, q⟩, hq, rfl⟩ := List.mem_map.mp hc
  exact Forest.mem_nodes_of_mem_claims hq

/-- What enters is named by the value that comes, and nothing enters by a removal or a move. -/
theorem Announcement.mem_entering {a : Announcement} (h : c ∈ a.entering) :
    c ∈ a.notice.after.nodes ∧ a.notice.kind ≠ .remove ∧ a.notice.kind ≠ .move := by
  cases hm : Tracking.movement a.forest a.notice with
  | error e =>
    unfold entering at h
    rw [hm] at h
    exact absurd h List.not_mem_nil
  | ok moved =>
    obtain ⟨leaving, entering⟩ := moved
    rw [Announcement.entering_eq hm] at h
    unfold Tracking.movement at hm
    cases hk : a.notice.kind with
    | move =>
      rw [hk] at hm
      obtain ⟨-, rfl⟩ := Prod.mk.injEq .. ▸ Except.ok.inj hm
      exact absurd h List.not_mem_nil
    | remove =>
      simp only [hk, bind_eq_ok, pure_eq_ok, Except.ok.injEq, Prod.mk.injEq] at hm
      obtain ⟨_, -, -, rfl⟩ := hm
      exact absurd h List.not_mem_nil
    | add =>
      simp only [hk, bind_eq_ok, pure_eq_ok, Except.ok.injEq, Prod.mk.injEq] at hm
      obtain ⟨_, hnew, -, rfl⟩ := hm
      exact ⟨Forest.mem_nodes_of_owned hnew h, by simp, by simp⟩
    | set =>
      simp only [hk, bind_eq_ok, pure_eq_ok, Except.ok.injEq, Prod.mk.injEq] at hm
      obtain ⟨_, -, _, hnew, -, rfl⟩ := hm
      exact ⟨Forest.mem_nodes_of_owned hnew (List.mem_filter.mp h).1, by simp, by simp⟩
    | unset =>
      simp only [hk, bind_eq_ok, pure_eq_ok, Except.ok.injEq, Prod.mk.injEq] at hm
      obtain ⟨_, -, _, hnew, -, rfl⟩ := hm
      exact ⟨Forest.mem_nodes_of_owned hnew (List.mem_filter.mp h).1, by simp, by simp⟩

/-! ## Documents inside a forest -/

/-- Whatever sits somewhere sits where it does in the other forest. -/
def Forest.PlacedIn (f f₀ : Forest) : Prop :=
  ∀ c place, f.place? c = some place → f₀.place? c = some place

theorem Forest.PlacedIn.under (h : f.PlacedIn f₀) {a b : NodeId} (hu : f.Under a b) :
    f₀.Under a b := by
  obtain ⟨q, hq⟩ := hu
  exact ⟨q, h _ _ hq⟩

theorem Forest.PlacedIn.within (h : f.PlacedIn f₀) {a b : NodeId} (hw : f.Within a b) :
    f₀.Within a b := hw.of_under fun _ _ => h.under

/-- **What was announced beyond `h₀` happened inside of the forest**: no child sat elsewhere, and
the children that entered a slot were below its node. -/
structure Document.Inside (f₀ : Forest) (h₀ : List Announcement) (d : Document τ) : Prop where
  places : d.forest.PlacedIn f₀
  announced : ∃ l, d.history = h₀ ++ l ∧ ∀ a ∈ l, a.forest.PlacedIn f₀ ∧
    ∀ c ∈ a.entering, f₀.Under c a.notice.node

theorem Document.inside_self (d : Document τ) : d.Inside d.forest d.history :=
  ⟨fun _ _ h => h, [], (List.append_nil _).symm, by simp⟩

/-- The whereabouts are those of the forest. -/
def Whereabouts.In (f₀ : Forest) (w : Whereabouts) : Prop := f₀.place? w.child = some w.place

/-- Whereabouts name the child and its place. -/
theorem Forest.place?_of_whereabouts_some {w : Whereabouts} (h : f.whereabouts c = .ok (some w)) :
    f.place? w.child = some w.place := by
  unfold whereabouts at h
  cases hp : f.place? c with
  | none =>
    rw [hp] at h
    exact absurd h (by simp)
  | some place =>
    -- Whatever the position is, it is found for this child and this place.
    suffices hw : w.child = c ∧ w.place = place by rw [hw.1, hw.2, hp]
    simp only [hp, bind_eq_ok] at h
    obtain ⟨g, -, h⟩ := h
    split at h
    · simp only [bind_eq_ok] at h
      obtain ⟨entries, -, h⟩ := h
      split at h
      · obtain rfl := Option.some.inj (Except.ok.inj h)
        exact ⟨rfl, rfl⟩
      · exact absurd h (by simp)
    · split_ifs at h
      · simp only [bind_eq_ok] at h
        obtain ⟨items, -, h⟩ := h
        split at h
        · obtain rfl := Option.some.inj (Except.ok.inj h)
          exact ⟨rfl, rfl⟩
        · exact absurd h (by simp)
      · obtain rfl := Option.some.inj (Except.ok.inj h)
        exact ⟨rfl, rfl⟩

namespace Document.Inside

open Edit (Keeps Yields Releasing)

/-- The edit keeps the document inside of the forest, and the whereabouts that it returns are
those of the forest. -/
abbrev Releases (f₀ : Forest) (h₀ : List Announcement) (x : Edit τ (List Whereabouts)) : Prop :=
  Yields (Document.Inside f₀ h₀) (∀ w ∈ ·, Whereabouts.In f₀ w) x

/-! ## Steps -/

theorem poll (N : Notice) : Keeps (Document.Inside f₀ h₀) (Edit.poll N : Edit τ Unit) := by
  intro d hd
  rw [(poll_apply N d).2]
  exact ⟨hd.places, hd.announced⟩

theorem announced_at (hd : d.Inside f₀ h₀)
    (hN : ∀ c ∈ (Announcement.mk N d.forest).entering, f₀.Under c N.node) :
    (Edit.announce N d).2.Inside f₀ h₀ := by
  obtain ⟨l, hl, hall⟩ := hd.announced
  rw [(announce_apply N d).2]
  by_cases h : (Edit.announce N d).1 = .ok ()
  · rw [if_pos h]
    refine ⟨hd.places, l ++ [⟨N, d.forest⟩], by rw [hl, List.append_assoc], fun a ha => ?_⟩
    rcases List.mem_append.mp ha with ha | ha
    · exact hall a ha
    · rw [List.mem_singleton.mp ha]
      exact ⟨hd.places, hN⟩
  · rw [if_neg h]
    exact ⟨hd.places, l, by rw [hl, List.append_nil], hall⟩

theorem announce (hN : ∀ f : Forest, ∀ c ∈ (Announcement.mk N f).entering, f₀.Under c N.node) :
    Keeps (Document.Inside f₀ h₀) (Edit.announce N : Edit τ Unit) :=
  fun d hd => announced_at hd (hN d.forest)

theorem setPlace {place : Option Place} (h : ∀ q, place = some q → f₀.place? c = some q) :
    Keeps (Document.Inside f₀ h₀) (Edit.setPlace c place : Edit τ Unit) := by
  intro d hd
  unfold Edit.setPlace
  cases d.forest.node c with
  | error e => exact hd
  | ok _ =>
    refine ⟨fun x q hx => ?_, hd.announced⟩
    rw [Forest.place?_setPlace] at hx
    split_ifs at hx with heq
    · rw [heq.1]
      exact h q hx
    · exact hd.places x q hx

theorem modifySlot (g : Slot → Slot) :
    Keeps (Document.Inside f₀ h₀) (Edit.modifySlot n p g : Edit τ Unit) := by
  intro d hd
  unfold Edit.modifySlot
  cases d.forest.node n with
  | error e => exact hd
  | ok node =>
    dsimp only
    cases node.slots[p.index]? with
    | none => exact hd
    | some s =>
      refine ⟨fun x q hx => hd.places x q ?_, hd.announced⟩
      rw [← Forest.place?_setSlot]
      exact hx

theorem advance : Keeps (Document.Inside f₀ h₀) (Edit.advance : Edit τ Unit) :=
  fun _ hd => ⟨hd.places, hd.announced⟩

/-- Letting children go keeps a document inside: nothing enters. -/
theorem releasing : Releasing fun _ (x : Edit τ _) => Keeps (Document.Inside f₀ h₀) x where
  __ := Keeps.composable
  announce _ hN := announce fun _ _ hc =>
    hN.elim (fun h => absurd h (Announcement.mem_entering hc).2.1)
      fun h => absurd h (Announcement.mem_entering hc).2.2
  free _ := setPlace fun _ h => absurd h (by simp)
  modifySlot _ _ := modifySlot
  advance := advance

theorem count (i : Nat) (hd : d.Inside f₀ h₀) :
    Document.Inside f₀ h₀ { d with repairRefusals := i } := ⟨hd.places, hd.announced⟩

theorem mending {x : Edit τ α} {repair : Edit τ Unit} (hx : Keeps (Document.Inside f₀ h₀) x)
    (hr : Keeps (Document.Inside f₀ h₀) repair) :
    Keeps (Document.Inside f₀ h₀) (x.mending repair) :=
  fun d hd => (Yields.mending (.of_keeps hx fun _ => trivial) hr (fun _ i => count i) d hd).1

/-- Writing a value that names no children but those that sat in the slot. -/
theorem overwrite {isSet : Bool} (hv : v.entries = [])
    (hin : ∀ c ∈ v.nodes, f₀.place? c = some ⟨n, p⟩) :
    Keeps (Document.Inside f₀ h₀) (Edit.overwrite n p v isSet : Edit τ Unit) := by
  refine .bind (.query _) fun old => .bind (.query _) fun outgoing => .bind_query ?_
  rintro incoming ⟨f, hincoming⟩
  have hlink : Keeps (Document.Inside f₀ h₀) (Edit.link n p v incoming : Edit τ Unit) := by
    unfold Edit.link
    split
    · next entries =>
      obtain rfl : entries = [] := hv
      exact .pure ()
    · refine .forM_mem fun c hc => setPlace fun q hq => ?_
      rw [← Option.some.inj hq]
      exact hin c (Forest.mem_nodes_of_owned hincoming hc)
  exact .bind (releasing.unlink _) fun _ => .bind hlink fun _ =>
    .bind (modifySlot _) fun _ => advance

/-! ## Children that are released and put back -/

/-- Nothing enters a slot by way of a value that names no child but one from this place. -/
theorem announce_of_nodes (hin : ∀ c ∈ N.after.nodes, f₀.Under c N.node) :
    Keeps (Document.Inside f₀ h₀) (Edit.announce N : Edit τ Unit) :=
  announce fun _ _ hc => hin _ (Announcement.mem_entering hc).1

section restoring

variable (hrestore : ∀ ws : List Whereabouts, (∀ w ∈ ws, w.In f₀) →
  Keeps (Document.Inside f₀ h₀) (restore ws))

include hrestore

/-- Replacing by a value that names no children but those that sat in the slot. -/
theorem replace {release : List NodeId → Edit τ (List Whereabouts)} (hv : v.entries = [])
    (hin : ∀ c ∈ v.nodes, f₀.place? c = some ⟨n, p⟩)
    (hrelease : ∀ cs, Releases f₀ h₀ (release cs)) :
    Keeps (Document.Inside f₀ h₀) (Edit.replace release restore n p v) := by
  refine .bind (.query _) fun incoming => .bind (.query _) fun slot => .bind (poll _) fun _ =>
    .bind_yields (hrelease _) fun moved hmoved => ?_
  have hannounce : Keeps (Document.Inside f₀ h₀)
      (Edit.announce ⟨n, p, .set, slot.value, v, none, slot.isSet⟩ : Edit τ Unit) :=
    announce_of_nodes fun c hc => ⟨p, hin c hc⟩
  exact .bind (mending hannounce (hrestore moved hmoved)) fun _ => .bind (.query _) fun _ =>
    overwrite hv hin

omit hrestore in
/-- **Releasing** a child tells where it sat. -/
theorem release (c : NodeId) : Releases f₀ h₀ (Edit.release c : Edit τ _) := by
  intro d hd
  unfold Edit.release
  refine Edit.Ends.query (fun w hw => ?_) fun e _ => ⟨hd, fun ws hws => absurd hws (by simp)⟩
  cases w with
  | none => exact Yields.pure (by simp) d hd
  | some w =>
    have hin : ∀ x ∈ [w], Whereabouts.In f₀ x := by
      intro x hx
      rw [List.mem_singleton.mp hx]
      exact hd.places _ _ (Forest.place?_of_whereabouts_some hw)
    have hend : ∀ {α : Type} (x : Edit τ α), Keeps (Document.Inside f₀ h₀) x →
        Releases f₀ h₀ (x >>= fun _ => pure [w]) := fun x hx =>
      .bind (.of_keeps hx fun _ => trivial) fun _ _ => .pure hin
    dsimp only
    split
    · exact hend _ (releasing.removeMixed _) d hd
    · exact hend _ (releasing.remove _) d hd
    · exact hend _ (replace (fun _ _ => .pure ()) rfl (fun _ hc => absurd hc List.not_mem_nil)
        fun _ => .pure (by simp)) d hd

theorem releaseAll {here : List NodeId} (cs : List NodeId) {moved : List Whereabouts}
    (hmoved : ∀ w ∈ moved, Whereabouts.In f₀ w) :
    Releases f₀ h₀ (Edit.releaseAll restore here moved cs) := by
  induction cs generalizing moved with
  | nil => exact .pure hmoved
  | cons c cs ih =>
    unfold Edit.releaseAll
    split
    · exact ih hmoved
    · refine .bind (.mending (release c) (hrestore moved hmoved) fun _ i => count i)
        fun placed hplaced => ih fun w hw => ?_
      rcases List.mem_append.mp hw with hw | hw
      · exact hmoved w hw
      · exact hplaced w hw

theorem setBy (hv : v.entries = []) (hin : ∀ c ∈ v.nodes, f₀.place? c = some ⟨n, p⟩) :
    Keeps (Document.Inside f₀ h₀) (Edit.setBy restore n p v) :=
  replace hrestore hv hin fun cs => .bind (.of_keeps (.query _) fun _ => trivial) fun _ _ =>
    releaseAll hrestore cs (by simp)

/-- An admitted insertion, with a value that names no child but one that sat in the slot. -/
theorem bringIn {incoming : Option NodeId} {q : PropertyId} (w : Slot → Slot)
    (hN : ∀ c ∈ N.after.nodes, f₀.Under c N.node)
    (hin : ∀ c, incoming = some c → f₀.place? c = some ⟨N.node, q⟩) :
    Keeps (Document.Inside f₀ h₀) (Edit.bringIn restore N incoming q w) := by
  have hplace : Keeps (Document.Inside f₀ h₀)
      (incoming.forM (Edit.setPlace · (some ⟨N.node, q⟩)) : Edit τ Unit) := by
    cases incoming with
    | none => exact .pure _
    | some c =>
      refine setPlace fun place hplace => ?_
      rw [← Option.some.inj hplace]
      exact hin c rfl
  have hend : ∀ moved : List Whereabouts, (∀ w ∈ moved, w.In f₀) → Keeps (Document.Inside f₀ h₀) (do
      (Edit.announce N).mending (restore moved)
      incoming.forM (Edit.setPlace · (some ⟨N.node, q⟩))
      Edit.modifySlot N.node N.property w
      Edit.advance : Edit τ Unit) := fun moved hmoved =>
    .bind (mending (announce_of_nodes hN) (hrestore moved hmoved)) fun _ => .bind hplace fun _ =>
      .bind (modifySlot _) fun _ => advance
  refine .bind (poll _) fun _ => ?_
  cases incoming with
  | none => exact .bind_yields (Yields.pure (List.forall_mem_nil _)) hend
  | some c => exact .bind_yields (release c) hend

/-- Inserting an item that names no child but one that sat in the list. -/
theorem insertBy {item : Value} (index : Nat)
    (hin : ∀ c ∈ item.nodes, f₀.place? c = some ⟨n, p⟩) :
    Keeps (Document.Inside f₀ h₀) (Edit.insertBy restore n p index item) := by
  rw [Edit.insertBy_eq]
  refine .bind_query ?_
  rintro incoming ⟨f, hincoming⟩
  obtain ⟨g, -, -, -, -, -, hsome, -⟩ := Forest.admitItem_eq_ok.mp hincoming
  refine .bind (.query _) fun slot => bringIn hrestore _ (fun c hc => ⟨p, hin c hc⟩) fun c hc => ?_
  rw [hsome] at hc
  split_ifs at hc
  rw [Forest.node?_eq_some hc] at hin
  exact hin c (List.mem_singleton_self _)

/-- Inserting an entry that names no child but one that sat in the mixed content. -/
theorem insertMixedBy {member : PropertyId} (index : Nat)
    (hin : ∀ c ∈ v.nodes, f₀.place? c = some ⟨n, member⟩) :
    Keeps (Document.Inside f₀ h₀) (Edit.insertMixedBy restore n index member v) := by
  have hnode : ∀ c, v.node? = some c → f₀.place? c = some ⟨n, member⟩ := by
    intro c hc
    rw [Forest.node?_eq_some hc] at hin
    exact hin c (List.mem_singleton_self _)
  rw [Edit.insertMixedBy_eq]
  refine .bind_query ?_
  rintro ⟨mixed, incoming⟩ ⟨f, hincoming⟩
  obtain ⟨g, -, -, -, -, -, -, hsome, -⟩ := Forest.admitEntry_eq_ok.mp hincoming
  refine .bind (.query _) fun slot => bringIn hrestore _ (fun c hc => ?_) fun c hc => ?_
  · obtain ⟨e, he, hc⟩ := List.mem_filterMap.mp hc
    rw [List.mem_singleton.mp he] at hc
    exact ⟨member, hnode c hc⟩
  · rw [hsome] at hc
    split_ifs at hc
    exact hnode c hc

end restoring

/-- **Putting children back** where they sat. -/
theorem putBack (depth : Nat) (ws : List Whereabouts) (hws : ∀ w ∈ ws, Whereabouts.In f₀ w) :
    Keeps (Document.Inside f₀ h₀) (Edit.putBack depth ws : Edit τ Unit) := by
  induction depth generalizing ws with
  | zero => exact .throw _
  | succ depth ih =>
    refine .forM_mem fun w hw => ?_
    have hin : ∀ c ∈ (Value.node w.child).nodes, f₀.place? c = some w.place := by
      intro c hc
      rw [List.mem_singleton.mp hc]
      exact hws w (List.mem_reverse.mp hw)
    obtain ⟨child, ⟨container, p⟩, position⟩ := w
    cases position with
    | mixed i => exact insertMixedBy ih i hin
    | listed i => exact insertBy ih i hin
    | single => exact setBy ih rfl hin

end Document.Inside

/-! ## Edits that fail -/

namespace Edit

/-- **The last change of an edit**, with a repair at hand: it is refused, and nothing but the
repair follows; or it is accepted and nothing is refused any more. -/
theorem mending_announce_ends {repair : Edit τ Unit} {rest : Unit → Edit τ α}
    (hd : d.Inside f₀ h₀) (hrepair : Keeps (Document.Inside f₀ h₀) repair)
    (hrest : ∀ d₁, Keeps (Document.Silent d₁) (rest ())) :
    ((announce N).mending repair >>= rest).Ends d fun _ d' =>
      d'.Inside f₀ h₀ ∨ d'.refusals = d.refusals := by
  have hann : (announce N).Ends d fun r d' => (∀ e, r = .error e → d'.Inside f₀ h₀) ∧
      (r = .ok () → d'.refusals = d.refusals) := by
    refine ⟨fun e he => ?_, fun hok => Edit.Unrefused.announce N d () hok⟩
    obtain ⟨l, hl, hall⟩ := hd.announced
    refine ⟨by rw [forest_announce]; exact hd.places, l, ?_, hall⟩
    rw [history_announce_error he, hl]
  refine Ends.bind (Ends.mending (fun _ _ h => h) (fun e d₁ h => ?_) hann) ?_
    fun e d₁ h => .inl (h.1 e rfl)
  · exact ⟨fun _ _ => Document.Inside.count _ (hrepair d₁ (h.1 e rfl)), fun he => absurd he (by simp)⟩
  · rintro ⟨⟩ d₁ ⟨-, h⟩
    exact .inr ((hrest d₁ d₁ ⟨rfl, rfl⟩).refusals.trans (h rfl))

/-- What goes before the last change keeps inside, and unless it fails nobody refuses. -/
theorem Ends.before {Q : α → Prop} {x : Edit τ α} {k : α → Edit τ β} {i : Nat}
    (hx : Yields (Document.Inside f₀ h₀) Q x) (hquiet : Unrefused x) (hd : d.Inside f₀ h₀)
    (hi : d.refusals = i)
    (hk : ∀ a d₁, Q a → d₁.Inside f₀ h₀ → d₁.refusals = i →
      (k a).Ends d₁ fun _ d' => d'.Inside f₀ h₀ ∨ d'.refusals = i) :
    (x >>= k).Ends d fun _ d' => d'.Inside f₀ h₀ ∨ d'.refusals = i := by
  have h := hx d hd
  have hq := hquiet d
  unfold Ends at h
  unfold Ends
  rw [bind_apply]
  rcases hxd : x d with ⟨e | a, d₁⟩ <;> rw [hxd] at h hq
  · exact .inl h.1
  · exact hk a d₁ (h.2 a rfl) h.1 ((hq a rfl).trans hi)

/-- **An admitted insertion**, up to whether it is accepted. -/
theorem bringIn_ends_inside {incoming : Option NodeId} {q : PropertyId} {w : Slot → Slot}
    (hd : d.Inside f₀ h₀) : (bringIn (putBack restoreDepth) N incoming q w).Ends d
      fun _ d' => d'.Inside f₀ h₀ ∨ d'.refusals = d.refusals := by
  have hplace : ∀ d₁, Keeps (Document.Silent d₁)
      (incoming.forM (setPlace · (some ⟨N.node, q⟩)) : Edit τ Unit) := fun d₁ => by
    cases incoming with
    | none => exact .pure _
    | some c => exact .setPlace _
  -- A refusal is repaired among places of the start, and what is accepted counts no refusal.
  have hend : ∀ (moved : List Whereabouts) (d₁ : Document τ), (∀ w ∈ moved, w.In f₀) →
      d₁.Inside f₀ h₀ → d₁.refusals = d.refusals → (do
        (announce N).mending (putBack restoreDepth moved)
        incoming.forM (setPlace · (some ⟨N.node, q⟩))
        modifySlot N.node N.property w
        advance : Edit τ Unit).Ends d₁ fun _ d' => d'.Inside f₀ h₀ ∨ d'.refusals = d.refusals := by
    intro moved d₁ hmoved hd₁ hi
    rw [← hi]
    exact mending_announce_ends hd₁ (.putBack _ _ hmoved) fun d₂ => .bind (hplace d₂) fun _ =>
      .bind (.modifySlot _) fun _ => .advance
  refine Ends.before (Q := fun _ => True) (.of_keeps (.poll _) fun _ => trivial) (.poll _) hd rfl
    fun _ d₁ _ hd₁ hi => ?_
  cases incoming with
  | none => exact hend [] d₁ (List.forall_mem_nil _) hd₁ hi
  | some c =>
    exact Ends.before (Document.Inside.release c) Unrefused.compositional.release hd₁ hi hend

variable {e : Fault}

section failing

variable (hf : d.forest.Sound True) (hd : d.Inside f₀ h₀)

include hf

/-- If an edit that may be made fails, somebody has refused. -/
theorem inside_of_moving {x : Edit τ α} {P : NodeId → Prop} {may : Prop}
    {done : List Whereabouts → α → Forest → Forest → Prop} (he : (x d).1 = .error e)
    (hmoving : Moving True (putBack restoreDepth) P d may done (x d).1 (x d).2) (hmay : may)
    (hends : x.Ends d fun _ d' => d'.Inside f₀ h₀ ∨ d'.refusals = d.refusals) :
    (x d).2.Inside f₀ h₀ := by
  rw [he] at hmoving
  have hrefused := hmoving.lt_refusals hf hmay fun ws d₁ hf₁ => putBack_chain _ ws d₁ hf₁
  exact Or.resolve_right hends (Nat.ne_of_gt hrefused)

include hd

/-- **A set that fails.** -/
theorem set_inside (he : (set n p v d).1 = .error e) : (set n p v d).2.Inside f₀ h₀ := by
  rcases hin : d.forest.admitValue n p v with e' | incoming
  · have heq : set n p v d = (.error e', d) := bind_of_error (congrArg (·, d) hin)
    rw [heq]
    exact hd
  · obtain ⟨g, hg, -⟩ := Forest.admitValue_eq_ok.mp hin
    obtain ⟨slot, hs⟩ := hf.slot_of_feature n p g hg
    refine inside_of_moving hf he (setBy_ends hf (fun ws d₁ hf₁ => putBack_chain _ ws d₁ hf₁)
      fun _ ⟨a, ha⟩ => absurd (he.symm.trans ha) (by simp)).2 ⟨trivial, incoming, hin⟩ ?_
    have hquiet : Compositional fun _ (x : Edit τ _) => Unrefused x := Unrefused.compositional
    unfold set setBy replace
    rw [ends_query_of_ok hin, ends_query_of_ok hs]
    refine Ends.before (Q := fun _ => True) (.of_keeps (.poll _) fun _ => trivial) (.poll _) hd rfl
      fun _ d₁ _ hd₁ hi₁ => ?_
    refine Ends.before (.bind (Q := fun _ => True) (.of_keeps (.query _) fun _ => trivial)
      fun slot _ => Document.Inside.releaseAll (.putBack _) incoming (List.forall_mem_nil _))
      (.bind (.query _) fun _ => hquiet.releaseAll (hquiet.putBack _) _ _) hd₁ hi₁
      fun moved d₂ hmoved hd₂ hi₂ => ?_
    rw [← hi₂]
    exact mending_announce_ends hd₂ (.putBack _ _ hmoved) fun _ => .bind (.query _) fun _ =>
      .overwrite _ _

/-- **An insertion that fails.** -/
theorem insert_inside {index : Nat} {item : Value} (he : (insert n p index item d).1 = .error e) :
    (insert n p index item d).2.Inside f₀ h₀ := by
  rcases hin : d.forest.admitItem n p index item with e' | incoming
  · have heq : insert n p index item d = (.error e', d) := bind_of_error (congrArg (·, d) hin)
    rw [heq]
    exact hd
  · obtain ⟨g, -, hg, -⟩ := Forest.admitItem_eq_ok.mp hin
    obtain ⟨slot, hs⟩ := hf.slot_of_feature n p g hg
    refine inside_of_moving hf he (insertBy_ends hf (fun ws d₁ hf₁ => putBack_chain _ ws d₁ hf₁)).2
      ⟨trivial, incoming, hin⟩ ?_
    unfold insert
    rw [insertBy_eq, ends_query_of_ok hin, ends_query_of_ok hs]
    exact bringIn_ends_inside hd

theorem insertMixed_inside {index : Nat} {member : PropertyId}
    (he : (insertMixed n index member v d).1 = .error e) :
    (insertMixed n index member v d).2.Inside f₀ h₀ := by
  rcases hin : d.forest.admitEntry n index member v with e' | ⟨mixed, incoming⟩
  · have heq : insertMixed n index member v d = (.error e', d) :=
      bind_of_error (congrArg (·, d) hin)
    rw [heq]
    exact hd
  · obtain ⟨g, entries, -, -, hes, -⟩ := Forest.admitEntry_eq_ok.mp hin
    obtain ⟨slot, hs, -⟩ := Forest.sequence_eq_ok.mp hes
    refine inside_of_moving hf he
      (insertMixedBy_ends hf (fun ws d₁ hf₁ => putBack_chain _ ws d₁ hf₁)).2
      ⟨trivial, _, hin⟩ ?_
    unfold insertMixed
    rw [insertMixedBy_eq, ends_query_of_ok hin]
    dsimp only
    rw [ends_query_of_ok hs]
    exact bringIn_ends_inside hd

/-- **An unset that fails.** No child enters, since defaults name none, and what cannot be
written was not written. -/
theorem unset_inside (he : (unset n p d).1 = .error e) : (unset n p d).2.Inside f₀ h₀ := by
  obtain ⟨-, -, ⟨a, ha, -⟩ | ⟨-, hforest, -⟩⟩ := unset_ends hf (n := n) (p := p)
  · exact absurd (he.symm.trans ha) (by simp)
  refine ⟨by rw [hforest]; exact hd.places, ?_⟩
  show (unset n p).Ends d fun _ d' => ∃ l, d'.history = h₀ ++ l ∧ ∀ a ∈ l, a.forest.PlacedIn f₀ ∧
    ∀ c ∈ a.entering, f₀.Under c a.notice.node
  unfold unset
  refine Ends.query (fun g hg => ?_) fun _ _ => hd.announced
  cases ho : g.owner with
  | some m =>
    simp only [Option.isSome_some, if_true]
    exact Ends.query (fun _ _ => hd.announced) fun _ _ => hd.announced
  | none =>
    simp only [Option.isSome_none, Bool.false_eq_true, if_false]
    obtain ⟨slot, hs⟩ := hf.slot_of_feature n p g hg
    rw [ends_query_of_ok hs]
    have hmove : Tracking.movement d.forest
        ⟨n, p, .unset, slot.value, g.restValue, none, slot.isSet⟩ =
          .ok (((d.forest.claims n p slot.value).map Prod.fst).filter fun _ => true, []) := by
      simp only [Tracking.movement, hf.toTyped.shaped.owned_slot hg ho hs, Forest.owned_restValue hg,
        Forest.claims_restValue hf.regular hg, bind_ok, pure_eq_ok, List.map_nil, List.filter_nil,
        List.contains_nil, Bool.not_false]
    -- What is announced lets nobody enter.
    have hd₁ := Document.Inside.announced_at (N := ⟨n, p, .unset, slot.value, g.restValue, none,
      slot.isSet⟩) hd fun c hc => by
        rw [Announcement.entering_eq hmove] at hc
        exact absurd hc List.not_mem_nil
    refine Ends.bind (R := fun _ d' => d'.Inside f₀ h₀) hd₁ (fun _ d₁ hd₁ => ?_)
      fun _ _ hd₁ => hd₁.announced
    obtain ⟨l, hl, hall⟩ := hd₁.announced
    refine ⟨l, ?_, hall⟩
    rw [(Document.Silent.overwrite g.restValue false d₁ ⟨rfl, rfl⟩).history, hl]

end failing

end Edit

/-- If the edit fails, it has stayed inside. -/
def FailsInside (f₀ : Forest) (h₀ : List Announcement) (r : Except Fault α) (d' : Document τ) :
    Prop := ∀ e, r = .error e → d'.Inside f₀ h₀

/-- A failure of the whole is a failure of its part. -/
theorem Edit.Ends.failsInside_bind {x : Edit τ α} {b : α → β} (h : x.Ends d (FailsInside f₀ h₀)) :
    (do return b (← x) : Edit τ β).Ends d (FailsInside f₀ h₀) := by
  refine h.bind (fun a d' _ e he => ?_) fun e d' h e' _ => h e rfl
  have he : (.ok (b a) : Except Fault β) = .error e := he
  exact absurd he (by simp)

/-- **An edit that fails** has announced changes inside of the forest alone: children that left
their places, and children that went back to them. -/
theorem Mutation.inside (m : Mutation) (hf : d.forest.Sound True) :
    m.run.Ends d (FailsInside d.forest d.history) := by
  have hd := Document.inside_self d
  have hfault : ∀ {α : Type} (r : Except Fault α), FailsInside d.forest d.history r d :=
    fun _ _ _ => hd
  have hcreate : ∀ t, (Edit.createOf t : Edit τ NodeId).Ends d
      (FailsInside d.forest d.history) := by
    intro t e he
    unfold Edit.createOf at he ⊢
    cases h : d.forest.create t with
    | error e' => exact hd
    | ok a =>
      simp only [h] at he
      exact absurd he (by simp)
  have hinsert : ∀ n p i item, (Edit.insert n p i item : Edit τ Unit).Ends d
      (FailsInside d.forest d.history) := fun n p i item e he => Edit.insert_inside hf hd he
  have hinsertMixed : ∀ n i p v, (Edit.insertMixed n i p v : Edit τ Unit).Ends d
      (FailsInside d.forest d.history) := fun n i p v e he => Edit.insertMixed_inside hf hd he
  -- Behind queries, which announce nothing, every edit is one of a few.
  cases m with
  | create typeName =>
    exact (Edit.Ends.query (fun t _ => hcreate t) fun e _ => hfault _).failsInside_bind
  | createOf t => exact (hcreate t).failsInside_bind
  | set n p v =>
    exact Edit.Ends.failsInside_bind (x := Edit.set n p v) fun e he => Edit.set_inside hf hd he
  | unset n p =>
    exact Edit.Ends.failsInside_bind (x := Edit.unset n p) fun e he => Edit.unset_inside hf hd he
  | add n p item =>
    exact (Edit.Ends.query (fun items _ => hinsert n p items.length item)
      fun e _ => hfault _).failsInside_bind
  | insert n p i item => exact (hinsert n p i item).failsInside_bind
  | remove n p i =>
    exact Edit.Ends.failsInside_bind (x := Edit.remove n p i) fun e _ =>
      Document.Inside.releasing.remove i d hd
  | move n p i j =>
    exact Edit.Ends.failsInside_bind (x := Edit.move n p i j) fun e _ =>
      Document.Inside.releasing.move i j d hd
  | addMixed n p v =>
    exact (Edit.Ends.query (fun _ _ => Edit.Ends.query (fun es _ => hinsertMixed n es.length p v)
      fun e _ => hfault _) fun e _ => hfault _).failsInside_bind
  | insertMixed n i p v => exact (hinsertMixed n i p v).failsInside_bind
  | removeMixed n i =>
    exact Edit.Ends.failsInside_bind (x := Edit.removeMixed n i) fun e _ =>
      Document.Inside.releasing.removeMixed i d hd
  | detach n =>
    refine (Edit.Ends.failsInside_bind (x := Edit.release n) (b := fun _ => ())
      fun e _ => (Document.Inside.release n d hd).1).failsInside_bind

end TrackedGraph
