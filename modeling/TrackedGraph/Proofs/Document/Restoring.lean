/-
Failed edits.

An edit that fails without having released a child leaves the forest as it was. One that
has released children puts them back, the last one first, and each of them goes back by a
single write, since it sits nowhere and nothing is released for it. So a failed edit leaves
the forest as it was unless a child is refused where it came from: by the audience, which
the document counts, or by mixed content that mentions the child besides owning it.
-/
import TrackedGraph.Proofs.Document.Reachable
import TrackedGraph.Proofs.Forest.Restoring

set_option autoImplicit false

namespace TrackedGraph

open Forest (Lift Lifts)

variable {τ α : Type} {strict : Prop} {schema : Schema} {d d' : Document τ} {f : Forest}
  {w : Whereabouts} {ws : List Whereabouts} {restore : List Whereabouts → Edit τ Unit}
  {P : NodeId → Prop}

/-! ## One child -/

/-- Children that sit nowhere are not released. -/
theorem Forest.Lifts.eq_nil {f' : Forest} (h : Lifts strict f ws f')
    (hp : ∀ w ∈ ws, f.place? w.child = none) : ws = [] := by
  cases h with
  | start => rfl
  | next f₁ _ ws w h hw =>
    obtain ⟨_, _, _, _, -, -, -, -, hplace, -⟩ := hw
    have hnone := hp w (List.mem_append_right _ List.mem_cons_self)
    rw [h.place?_of_some hplace] at hnone
    exact absurd hnone (by simp)

/-- An edit that may be made fails only if somebody refuses. -/
theorem Moving.lt_refusals {may : Prop} {done : List Whereabouts → α → Forest → Forest → Prop}
    {e : Fault} (h : Moving strict restore P d may done (.error e) d') (hf : d.forest.Sound strict)
    (hmay : may) (hrestore : ∀ (ws : List Whereabouts) (d₁ : Document τ), d₁.forest.Sound strict →
      Chain strict d₁ (restore ws d₁).2) : d.refusals < d'.refusals := by
  cases h with
  | nothing _ _ _ _ hm => exact hm hmay
  | undone _ d₁ ws hl _ _ hm =>
    exact Nat.lt_of_lt_of_le (hm hmay) (hrestore ws d₁ (hl.sound hf)).refusals_le

/-- An edit that takes children in succeeds if it may be made and nobody refuses. -/
theorem Moving.exists_done {may : Prop} {done : List Whereabouts → α → Forest → Forest → Prop}
    {r : Except Fault α} (h : Moving strict restore P d may done r d')
    (hf : d.forest.Sound strict) (hmay : may) (hrefusals : d'.refusals = d.refusals)
    (hrestore : ∀ (ws : List Whereabouts) (d₁ : Document τ), d₁.forest.Sound strict →
      Chain strict d₁ (restore ws d₁).2) :
    ∃ a ws f₁, r = .ok a ∧ Lifts strict d.forest ws f₁ ∧ (∀ w ∈ ws, P w.child) ∧
      done ws a f₁ d'.forest := by
  cases r with
  | error e => exact absurd (h.lt_refusals hf hmay hrestore) (by omega)
  | ok a =>
    cases h with
    | done _ _ ws f₁ hl hps hdone _ => exact ⟨a, ws, f₁, rfl, hl, hps, hdone⟩

/-- If the child that it takes in sits nowhere, nothing is released. -/
theorem Moving.of_no_refusal {may : Prop} {done : List Whereabouts → α → Forest → Forest → Prop}
    {r : Except Fault α} (h : Moving strict restore P d may done r d')
    (hf : d.forest.Sound strict) (hp : ∀ c, P c → d.forest.place? c = none) (hmay : may)
    (hrefusals : d'.refusals = d.refusals)
    (hrestore : ∀ (ws : List Whereabouts) (d₁ : Document τ), d₁.forest.Sound strict →
      Chain strict d₁ (restore ws d₁).2) :
    ∃ a, r = .ok a ∧ done [] a d.forest d'.forest := by
  obtain ⟨a, ws, f₁, rfl, hl, hps, hdone⟩ := h.exists_done hf hmay hrefusals hrestore
  obtain rfl := hl.eq_nil fun w hw => hp _ (hps w hw)
  obtain rfl := hl.of_nil
  exact ⟨a, rfl, hdone⟩

/-- What was released sits nowhere. -/
theorem Forest.Lift.place?_of_node {f' : Forest} {c : NodeId} (h : Lift True f w f')
    (hc : (Value.node w.child).node? = some c) : f'.place? c = none := by
  rw [← Option.some.inj hc, h.place?, if_pos rfl]

namespace Edit

section reinsert

variable (hf : f.Sound True) (h : Lift True f w d.forest)
  (hrestore : ∀ (ws : List Whereabouts) (d₁ : Document τ), d₁.forest.Sound True →
    Chain True d₁ (restore ws d₁).2)

include hf h hrestore

theorem insertBy_restores {i : Nat} (hpos : w.position = .listed i) :
    (insertBy restore w.place.container w.place.property i (.node w.child)).Ends d
      fun r d' => d'.refusals = d.refusals → r = .ok () ∧ d'.forest = f := by
  obtain ⟨host, g, old, hh, hsuits, -, -, hnew, hback⟩ := h.write_back hf
  have hg : d.forest.feature w.place.container host = .ok g := h.feature.trans hh.host_feature
  rw [hpos] at hsuits hnew hback
  obtain ⟨rfl, hown⟩ := hh.of_not_mixed hf.toTyped.shaped hsuits.2
  refine (insertBy_ends (h.sound hf) hrestore).mono fun r d' hmoving hrefusals => ?_
  obtain ⟨a, rfl, g', old', hg', hs', hf'⟩ := hmoving.2.of_no_refusal (h.sound hf)
    (fun c hc => h.place?_of_node hc.1) ⟨trivial, _, h.admitItem hf hpos⟩ hrefusals hrestore
  obtain rfl := ok_unique hg hg'
  obtain rfl := ok_unique hnew hs'
  refine ⟨rfl, hf'.trans ?_⟩
  rw [if_pos hown]
  exact hback

theorem setBy_restores (hpos : w.position = .single) :
    (setBy restore w.place.container w.place.property (.node w.child)).Ends d
      fun r d' => d'.refusals = d.refusals → r = .ok () ∧ d'.forest = f := by
  obtain ⟨host, g, old, hh, hsuits, -, -, hnew, hback⟩ := h.write_back hf
  have hg : d.forest.feature w.place.container host = .ok g := h.feature.trans hh.host_feature
  rw [hpos] at hsuits hnew hback
  obtain ⟨rfl, hown⟩ := hh.of_not_mixed hf.toTyped.shaped hsuits.2
  have hclaims : d.forest.claims w.place.container w.place.property (.node w.child) =
      [(w.child, w.place.property)] := by
    rw [Forest.claims_of_containment hg hown]
    rfl
  have hin : ∀ c, c ∈ (d.forest.claims w.place.container w.place.property
      (.node w.child)).map Prod.fst → (Value.node w.child).node? = some c := by
    intro c hc
    rw [hclaims] at hc
    rw [List.mem_singleton.mp hc]
    rfl
  -- The slot was emptied by the release, so setting it drives nobody out.
  have hlost : d.forest.lostChildren w.place.container w.place.property
      (old.without .single).value (.node w.child) = [] := by
    unfold Forest.lostChildren
    rw [show (old.without .single).value = .null from rfl, Forest.claims_null]
    rfl
  refine (setBy_ends (h.sound hf) hrestore).mono fun r d' hmoving hrefusals => ?_
  obtain ⟨a, rfl, g', old', hg', hs', -, hf'⟩ :=
    (hmoving fun _ _ => not_overlooks rfl).2.of_no_refusal (h.sound hf)
      (fun c hc => h.place?_of_node (hin c hc.1)) ⟨trivial, _, h.admitValue hf hpos⟩ hrefusals
      hrestore
  obtain rfl := ok_unique hg hg'
  obtain rfl := ok_unique hnew hs'
  refine ⟨rfl, hf'.trans ?_⟩
  rw [hclaims, hlost, hsuits.1]
  exact hback

theorem insertMixedBy_restores {i : Nat} (hpos : w.position = .mixed i) :
    (insertMixedBy restore w.place.container i w.place.property (.node w.child)).Ends d
      fun r d' => d'.refusals = d.refusals → r = .ok () ∧ d'.forest = f ∨
        (∃ e, r = .error e) ∧ d'.forest = d.forest ∧ f.Doubled w.child := by
  obtain ⟨host, g, old, hh, hsuits, -, -, hnew, hback⟩ := h.write_back hf
  rw [hpos] at hsuits hnew hback
  obtain ⟨k, mixed, hk, hown, ho, -, rfl⟩ := hh.of_mixed hsuits.2
  by_cases hadmit : ∃ o, d.forest.admitEntry w.place.container i w.place.property
      (.node w.child) = .ok o
  · refine (insertMixedBy_ends (h.sound hf) hrestore).mono fun r d' hmoving hrefusals => .inl ?_
    obtain ⟨a, rfl, k', mixed, old', hk', ho', hs', hf'⟩ := hmoving.2.of_no_refusal (h.sound hf)
      (fun c hc => h.place?_of_node hc.1) ⟨trivial, hadmit⟩ hrefusals hrestore
    obtain rfl := ok_unique (h.feature.trans hk) hk'
    rw [ho, Option.some.injEq] at ho'
    subst ho'
    obtain rfl := ok_unique hnew hs'
    refine ⟨rfl, hf'.trans ?_⟩
    rw [if_pos hown]
    exact hback
  · -- The child is refused by the admission, and nothing happens.
    have hdoubled : f.Doubled w.child :=
      (h.admitEntry hf hpos).resolve_right fun ⟨_, hok⟩ => hadmit ⟨_, hok⟩
    unfold insertMixedBy
    refine Ends.query (fun o ho => absurd ⟨o, ho⟩ hadmit) fun e _ _ => ?_
    exact .inr ⟨⟨e, rfl⟩, rfl, hdoubled⟩

/-- **A child goes back where it was released** unless somebody refuses, or the mixed
content it comes from mentions it. -/
theorem reinsert_restores :
    (reinsert restore w).Ends d fun r d' => d'.refusals = d.refusals →
      r = .ok () ∧ d'.forest = f ∨
        (∃ e, r = .error e) ∧ d'.forest = d.forest ∧ f.Doubled w.child := by
  unfold reinsert
  cases hpos : w.position with
  | mixed i => exact insertMixedBy_restores hf h hrestore hpos
  | listed i => exact (insertBy_restores hf h hrestore hpos).mono fun _ _ h hr => .inl (h hr)
  | single => exact (setBy_restores hf h hrestore hpos).mono fun _ _ h hr => .inl (h hr)

end reinsert

/-- **All children go back**, or one that is mentioned where it came from stays out. -/
theorem putBack_restores {depth : Nat} (hf : f.Sound True) (h : Lifts True f ws d.forest) :
    (putBack (depth + 1) ws).Ends d fun _ d' => d'.refusals = d.refusals →
      d'.forest = f ∨ ∃ w ∈ ws, f.Doubled w.child ∧ d'.forest.place? w.child = none := by
  have hput : ∀ (ws : List Whereabouts) (d₁ : Document τ), d₁.forest.Sound True →
      Chain True d₁ (putBack depth ws d₁).2 := fun ws d₁ hf₁ => putBack_chain _ ws d₁ hf₁
  rw [putBack_succ]
  generalize hd : d.forest = f₁ at h
  -- The releases are undone in reverse, the last one first.
  induction h generalizing d with
  | start => exact fun _ => .inl hd
  | next f₁ f₂ ws w hl hw ih =>
    have hf₁ := hl.sound hf
    rw [← hd] at hw
    rw [List.reverse_append, List.reverse_singleton, List.singleton_append]
    refine Ends.bind (R := fun r d₁ => Chain True d d₁ ∧ (d₁.refusals = d.refusals →
      r = .ok () ∧ d₁.forest = f₁ ∨ (∃ e, r = .error e) ∧ d₁.forest = d.forest ∧
        f₁.Doubled w.child)) ⟨reinsert_ends (hw.sound hf₁) hput, reinsert_restores hf₁ hw hput⟩ ?_ ?_
    · rintro ⟨⟩ d₁ ⟨hc₁, h₁⟩ hrefusals
      have hc₂ : Chain True d₁ (ws.reverse.forM (reinsert (putBack depth)) d₁).2 :=
        forM_reinsert_chain hput _ (hc₁.sound (hw.sound hf₁))
      have hle₁ := hc₁.refusals_le
      have hle₂ := hc₂.refusals_le
      have hrefusals : (ws.reverse.forM (reinsert (putBack depth)) d₁).2.refusals = d.refusals :=
        hrefusals
      rcases h₁ (by omega) with ⟨-, hforest⟩ | ⟨⟨e, he⟩, -⟩
      · rcases ih hforest (by omega) with hdone | ⟨x, hx, hlost⟩
        · exact .inl hdone
        · exact .inr ⟨x, List.mem_append_left _ hx, hlost⟩
      · exact absurd he (by simp)
    · -- The child is not taken back, and so it is mentioned twice.
      rintro e d₁ ⟨-, h₁⟩ hrefusals
      rcases h₁ hrefusals with ⟨he, -⟩ | ⟨-, hforest, hdoubled⟩
      · exact absurd he (by simp)
      · refine .inr ⟨w, List.mem_append_right _ List.mem_cons_self, hl.doubled hdoubled, ?_⟩
        rw [hforest, hw.place?, if_pos rfl]

end Edit

/-! ## Every edit -/

/-- The edit would make the node a child. -/
def Mutation.TakesIn (f : Forest) (c : NodeId) : Mutation → Prop
  | .set n p v => c ∈ (f.claims n p v).map Prod.fst
  | .add n p item | .insert n p _ item => item.node? = some c ∧ f.ownsAt n p = true
  | .addMixed n member v | .insertMixed n _ member v =>
    v.node? = some c ∧ f.ownsAt n member = true
  | _ => False

/-- What a failed edit leaves, as long as nobody refuses to have children back: the forest
as it was, or one in which a doubled child with `P` sits nowhere. -/
def Restored (P : NodeId → Prop) (d : Document τ) (r : Except Fault α) (d' : Document τ) : Prop :=
  (∃ e, r = .error e) → d'.repairRefusals = d.repairRefusals →
    d'.forest = d.forest ∨ ∃ c, P c ∧ d.forest.Doubled c ∧ d'.forest.place? c = none

theorem AllOrNothing.restored {may : Prop} {done : α → Forest → Prop} {r : Except Fault α}
    (h : AllOrNothing strict d may done r d') : Restored P d r d' := by
  rintro ⟨e, rfl⟩ -
  obtain ⟨-, -, ⟨a, ha, -⟩ | ⟨-, hf, -⟩⟩ := h
  · exact absurd ha (by simp)
  · exact .inl hf

theorem Moving.restored {may : Prop} {done : List Whereabouts → α → Forest → Forest → Prop}
    {r : Except Fault α} (hf : d.forest.Sound True)
    (h : Moving True (Edit.putBack Edit.restoreDepth) P d may done r d') : Restored P d r d' := by
  rintro ⟨e, rfl⟩ hrepair
  cases h with
  | nothing _ _ hforest _ _ => exact .inl hforest
  | undone _ d₁ ws hl hp hr _ =>
    have hle := (Edit.putBack_chain Edit.restoreDepth ws d₁ (hl.sound hf)).refusals_le
    have hcount : d₁.repairRefusals +
        ((Edit.putBack Edit.restoreDepth ws d₁).2.refusals - d₁.refusals) = d.repairRefusals :=
      hrepair
    have hback : (Edit.putBack (63 + 1) ws).Ends d₁ _ := Edit.putBack_restores hf hl
    rcases hback (by show (Edit.putBack Edit.restoreDepth ws d₁).2.refusals = _; omega) with
      hdone | ⟨w, hw, hdoubled, hnone⟩
    · exact .inl hdone
    · exact .inr ⟨w.child, hp w hw, hdoubled, hnone⟩

/-- A failure of a part is a failure of the whole. -/
theorem Edit.Ends.restored_bind {β : Type} {x : Edit τ α} {b : α → β}
    (h : x.Ends d (Restored P d)) : (do return b (← x) : Edit τ β).Ends d (Restored P d) := by
  refine h.bind (fun a d' _ => ?_) fun e d' h _ => h ⟨e, rfl⟩
  rintro ⟨e, he⟩
  have : (.ok (b a) : Except Fault β) = .error e := he
  exact absurd this (by simp)

/-- **A failed edit leaves the forest as it was**, or it has lost a doubled child. -/
theorem Mutation.restored (m : Mutation) (hf : d.forest.Sound True) :
    m.run.Ends d (Restored (fun c => m.TakesIn d.forest c) d) := by
  have hput : ∀ (ws : List Whereabouts) (d₁ : Document τ), d₁.forest.Sound True →
      Chain True d₁ (Edit.putBack Edit.restoreDepth ws d₁).2 :=
    fun ws d₁ hf₁ => Edit.putBack_chain _ ws d₁ hf₁
  have hfault : ∀ {β : Type} (P : NodeId → Prop) (e : Fault),
      Restored P d (.error e : Except Fault β) d := fun _ _ _ _ => .inl rfl
  have hcreate : ∀ P t, (Edit.createOf t : Edit τ NodeId).Ends d (Restored P d) := by
    rintro P t ⟨e, he⟩ -
    left
    unfold Edit.createOf at he ⊢
    cases h : d.forest.create t with
    | error e' => rfl
    | ok a =>
      simp only [h] at he
      exact absurd he (by simp)
  have hinsert : ∀ n p i item, (Edit.insert n p i item : Edit τ Unit).Ends d
      (Restored (fun c => item.node? = some c ∧ d.forest.ownsAt n p = true) d) :=
    fun n p i item => (Edit.insertBy_ends hf hput).mono fun _ _ h => h.2.restored hf
  have hinsertMixed : ∀ n i p v, (Edit.insertMixed n i p v : Edit τ Unit).Ends d
      (Restored (fun c => v.node? = some c ∧ d.forest.ownsAt n p = true) d) :=
    fun n i p v => (Edit.insertMixedBy_ends hf hput).mono fun _ _ h => h.2.restored hf
  cases m with
  | create typeName =>
    exact Edit.Ends.restored_bind (Edit.Ends.query (fun t _ => hcreate _ t) fun e _ => hfault _ e)
  | createOf t => exact Edit.Ends.restored_bind (hcreate _ t)
  | set n p v =>
    refine Edit.Ends.restored_bind ((Edit.setBy_ends hf hput).mono fun r d' h hr hrepair => ?_)
    have hmoving := (h fun _ ⟨a, ha⟩ => absurd (hr.choose_spec.symm.trans ha) (by simp)).2
    rcases hmoving.restored hf hr hrepair with hdone | ⟨c, ⟨hc, -⟩, hlost⟩
    · exact .inl hdone
    · exact .inr ⟨c, hc, hlost⟩
  | unset n p => exact Edit.Ends.restored_bind ((Edit.unset_ends hf).mono fun _ _ h => h.restored)
  | add n p item =>
    exact Edit.Ends.restored_bind
      (Edit.Ends.query (fun items _ => hinsert n p items.length item) fun e _ => hfault _ e)
  | insert n p i item => exact Edit.Ends.restored_bind (hinsert n p i item)
  | remove n p i => exact Edit.Ends.restored_bind ((Edit.remove_ends hf).mono fun _ _ h => h.restored)
  | move n p i j => exact Edit.Ends.restored_bind ((Edit.move_ends hf).mono fun _ _ h => h.restored)
  | addMixed n p v =>
    exact Edit.Ends.restored_bind (Edit.Ends.query
      (fun _ _ => Edit.Ends.query (fun es _ => hinsertMixed n es.length p v) fun e _ => hfault _ e)
      fun e _ => hfault _ e)
  | insertMixed n i p v => exact Edit.Ends.restored_bind (hinsertMixed n i p v)
  | removeMixed n i =>
    exact Edit.Ends.restored_bind ((Edit.removeMixed_ends hf).mono fun _ _ h => h.restored)
  | detach n =>
    exact Edit.Ends.restored_bind (Edit.Ends.restored_bind
      ((Edit.release_ends hf n).mono fun _ _ h => h.restored))

/-- **A failed edit leaves the forest as it was**, whatever the audience does, as long as it
does not refuse to have children back. Only a child that the edit takes in, and that the
mixed content it sits in mentions once more, can be lost. -/
theorem Document.Reachable.forest_of_failed {declarations : List TypeDeclaration} {m : Mutation}
    {e : Fault} (hb : Schema.build declarations = .ok schema) (hn : schema.NullContainment)
    (hp : schema.PlainDefaults) (h : d.Reachable schema fun _ _ => True)
    (ha : d.forest.Agrees) (he : (m.run d).1 = .error e)
    (hr : (m.run d).2.repairRefusals = d.repairRefusals) :
    (m.run d).2.forest = d.forest ∨ ∃ c, m.TakesIn d.forest c ∧ d.forest.Doubled c ∧
      (m.run d).2.forest.place? c = none := by
  have hweak : d.forest.Sound False :=
    h.sound ⟨Schema.coherent_of_build hb, hn, hp⟩ fun hs => absurd hs id
  have hf : d.forest.Sound True := ⟨hweak.toTyped, fun _ => hweak.toTyped.agrees_iff.mp ha⟩
  exact m.restored hf ⟨e, he⟩ hr

/-- Accepts the first addition it is asked about and no other. -/
def Notebook.gate : Observer Nat where
  name := "gate"
  judge := fun _ n seen =>
    if n.kind = .add then (if seen = 0 then .ok () else .error (.other "closed"), seen + 1)
    else (.ok (), seen)
  follow := fun _ _ _ _ seen => ([], seen)

/-- A notebook of three pages, the second below the first. -/
def Notebook.shelf : Document Nat :=
  (blank 0).after [.create "Page", .create "Page", .add ⟨0⟩ pages (.node ⟨1⟩)]

/-- The gate watches the third page. -/
def Notebook.gated : Document Nat :=
  { shelf with audience := { shelf.audience with
    seats := [some (.observer gate)]
    subscriptions := ⟨[(⟨2⟩, ⟨0⟩)]⟩ } }

/-- A page that is to move is released before the gate refuses it. It is back afterwards. -/
theorem Document.Reachable.forest_of_failed_gate :
    let m : Mutation := .add ⟨2⟩ Notebook.pages (.node ⟨1⟩)
    (∃ e, (m.run Notebook.gated).1 = .error e) ∧
      (m.run Notebook.gated).2.forest = Notebook.gated.forest := by
  intro m
  have hreach : ∀ allowed : Document Nat → Mutation → Prop,
      (∀ d m, ¬ m.Overlooks d.forest → allowed d m) →
      Notebook.gated.Reachable Notebook.schema allowed := by
    intro allowed hall
    have hshelf : Notebook.shelf.Reachable Notebook.schema allowed :=
      .edit _ _ (.edit _ _ (.edit _ _ (.new "Page" 0 _ (Notebook.new_eq_blank 0)) (hall _ _ id))
        (hall _ _ id)) (hall _ _ id)
    exact .other _ _ hshelf rfl rfl
  have hf : Notebook.gated.forest.Sound True :=
    (hreach (fun d m => ¬ m.Overlooks d.forest) fun _ _ h => h).sound Notebook.schema_regular
      fun _ _ _ _ h _ => h
  obtain ⟨e, he⟩ : ∃ e, (m.run Notebook.gated).1 = .error e := by
    have hnone : (m.run Notebook.gated).1.toOption.isNone = true := by decide +kernel
    cases h : (m.run Notebook.gated).1 with
    | error e => exact ⟨e, rfl⟩
    | ok a =>
      rw [h] at hnone
      exact absurd hnone (by simp [Except.toOption])
  refine ⟨⟨e, he⟩, (Document.Reachable.forest_of_failed Notebook.build_types (by decide)
    (by decide) (hreach _ fun _ _ _ => trivial) (hf.toTyped.agrees_iff.mpr (hf.linked trivial))
    he (by decide +kernel)).resolve_right ?_⟩
  rintro ⟨c, ⟨hc, -⟩, ⟨n, q, k, mixed, entries, hplace, hk, ho, -⟩, -⟩
  obtain rfl : (⟨1⟩ : NodeId) = c := Option.some.inj hc
  have hpages : Notebook.gated.forest.place? ⟨1⟩ = some ⟨⟨0⟩, Notebook.pages⟩ := rfl
  rw [hpages, Option.some.injEq, Place.mk.injEq] at hplace
  obtain ⟨rfl, rfl⟩ := hplace
  obtain rfl := Except.ok.inj hk
  cases ho

end TrackedGraph
