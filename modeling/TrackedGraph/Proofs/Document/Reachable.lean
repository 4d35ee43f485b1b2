/-
Reachable documents, and what holds of their forests.

A document is reached from a new one by edits, whoever sits in the audience at the time
and however the edits end. The forests of all reachable documents are typed. Places and
slots agree in them as long as no edit overlooks a child, and they disagree right after
the first accepted one that does: `set` on mixed content leaves a child where it is if
the present sequence so much as refers to it, and takes it in all the same.
-/
import TrackedGraph.Proofs.Document.Intake
import TrackedGraph.Proofs.Forest.Agreement

set_option autoImplicit false

namespace TrackedGraph

open Forest (Lift Lifts)

variable {τ : Type} {strict : Prop} {schema : Schema} {d : Document τ}

/-- The documents that allowed edits lead to. The audience, the journals and the counts may
be changed in between in any way. -/
inductive Document.Reachable (schema : Schema) (allowed : Document τ → Mutation → Prop) :
    Document τ → Prop
  | new (rootType : String) (memory : τ) (d : Document τ)
      (h : Document.new schema rootType memory = .ok d) : Reachable schema allowed d
  | edit (d : Document τ) (m : Mutation) (h : Reachable schema allowed d) (ha : allowed d m) :
      Reachable schema allowed (m.run d).2
  | other (d d' : Document τ) (h : Reachable schema allowed d) (hf : d'.forest = d.forest)
      (hr : d'.root = d.root) : Reachable schema allowed d'

/-- A new document is its forest's only node. -/
theorem Document.new_eq_ok {rootType : String} {memory : τ}
    (h : Document.new schema rootType memory = .ok d) :
    ∃ t, (Forest.empty schema).create t = .ok (d.root, d.forest) := by
  simp only [Document.new, bind_eq_ok] at h
  obtain ⟨t, -, ⟨n, f⟩, hf, h⟩ := h
  simp only [pure_eq_ok, Except.ok.injEq] at h
  subst h
  exact ⟨t, hf⟩

theorem Document.audience_new {rootType : String} {memory : τ}
    (h : Document.new schema rootType memory = .ok d) : d.audience = { memory } := by
  simp only [Document.new, bind_eq_ok, pure_eq_ok, Except.ok.injEq] at h
  obtain ⟨_, -, ⟨_, _⟩, -, rfl⟩ := h
  rfl

/-- What new forests are and edits keep, every reachable forest is. -/
theorem Document.Reachable.forest_induction {P : Forest → Prop}
    {allowed : Document τ → Mutation → Prop}
    (hnew : ∀ t n f, (Forest.empty schema).create t = .ok (n, f) → P f)
    (hedit : ∀ d m, d.Reachable schema allowed → allowed d m → P d.forest →
      P (m.run d).2.forest)
    (h : d.Reachable schema allowed) : P d.forest := by
  induction h with
  | new rootType memory d h =>
    obtain ⟨t, ht⟩ := Document.new_eq_ok h
    exact hnew t _ _ ht
  | edit d m h ha ih => exact hedit d m h ha ih
  | other d d' _ hf _ ih =>
    rw [hf]
    exact ih

/-- **Reachable forests are sound.** -/
theorem Document.Reachable.sound {allowed : Document τ → Mutation → Prop} (hr : schema.Regular)
    (hallowed : strict → ∀ d m, d.Reachable schema allowed → allowed d m →
      (∃ a, (m.run d).1 = .ok a) → ¬ m.Overlooks d.forest)
    (h : d.Reachable schema allowed) : d.forest.Sound strict :=
  h.forest_induction (fun _ _ _ ht => (Forest.sound_empty hr).create ht)
    fun d m h ha hf => (m.chain hf fun hs => hallowed hs d m h ha).sound hf

namespace Forest

variable {f f' : Forest} {n c : NodeId} {p q : PropertyId} {s : Slot} {w : Whereabouts}
  {ws : List Whereabouts}

/-- A release takes nothing from a slot but the child. In a single-valued slot this rests
on what the slot held before all releases, `f₀`. -/
theorem Lift.claims_of_ne {f₀ : Forest} (ht : f₀.Typed) (h : Lift strict f w f')
    (hplace : ∀ c place, f.place? c = some place → f₀.place? c = some place)
    (hfeature : ∀ n p, f.feature n p = f₀.feature n p) {s₀ : Slot}
    (hs₀ : f₀.slot n p = .ok s₀) (hc₀ : (c, q) ∈ f₀.claims n p s₀.value)
    (hs : f.slot n p = .ok s) (hc : (c, q) ∈ f.claims n p s.value) (hne : w.child ≠ c) :
    ∃ s', f'.slot n p = .ok s' ∧ (c, q) ∈ f.claims n p s'.value := by
  obtain ⟨host, g, old, freed, hh, hsuits, hold, hfound, hp, -, -, rfl⟩ := h
  by_cases heq : (w.place.container, host) = (n, p)
  swap
  · -- Another slot is left alone.
    exact ⟨s, (slot_write_of_ne heq).trans hs, hc⟩
  obtain ⟨rfl, rfl⟩ := Prod.mk.injEq .. ▸ heq
  obtain rfl := ok_unique hs hold
  refine ⟨s.without w.position, slot_write_self hs, ?_⟩
  have hg := hh.host_feature
  obtain ⟨child, place, position⟩ := w
  cases position with
  | single =>
    -- A single value that is owned is the one child, and that is the one released.
    have hh₀ : f₀.Hosts place host g := by
      obtain ⟨k, hk, hown, hhost, hg, hgo⟩ := hh
      exact ⟨k, (hfeature _ _).symm.trans hk, hown, hhost, (hfeature _ _).symm.trans hg, hgo⟩
    have hclaims := (ht.single hh₀ hsuits.1 hsuits.2 (hplace _ _ hp) hs₀).2.2
    rw [hclaims, List.mem_singleton, Prod.mk.injEq] at hc₀
    exact absurd hc₀.1.symm hne
  | listed i =>
    obtain ⟨items, hv, hi⟩ := hfound
    -- What is before the child stays, and what is behind it.
    have hwithout : (s.removeItem i).value = .list (items.eraseIdx i) := by
      unfold Slot.removeItem
      rw [hv]
    rw [hv, eq_take_cons_drop hi, claims_list_append] at hc
    rw [show s.without (.listed i) = s.removeItem i from rfl, hwithout,
      List.eraseIdx_eq_take_drop_succ, claims_list_append]
    rcases List.mem_append.mp hc with hc | hc
    · exact List.mem_append_left _ hc
    · rw [show (.node child :: items.drop (i + 1) : List Value) =
        [.node child] ++ items.drop (i + 1) from rfl, claims_list_append] at hc
      rcases List.mem_append.mp hc with hc | hc
      · exact absurd (by simpa [Value.nodes, Value.node?] using mem_nodes_of_mem_claims hc)
          (Ne.symm hne)
      · exact List.mem_append_right _ hc
  | mixed i =>
    obtain ⟨entries, hv, hi⟩ := hfound
    have hwithout : (s.removeEntry i).value = .mixed (entries.eraseIdx i) := by
      unfold Slot.removeEntry
      rw [hv]
    rw [hv, eq_take_cons_drop hi, claims_mixed_append] at hc
    rw [show s.without (.mixed i) = s.removeEntry i from rfl, hwithout,
      List.eraseIdx_eq_take_drop_succ, claims_mixed_append]
    rcases List.mem_append.mp hc with hc | hc
    · exact List.mem_append_left _ hc
    · rw [show (⟨place.property, .node child⟩ :: entries.drop (i + 1) : MixedContent) =
        [⟨place.property, .node child⟩] ++ entries.drop (i + 1) from rfl,
        claims_mixed_append] at hc
      rcases List.mem_append.mp hc with hc | hc
      · exact absurd (by simpa [Value.nodes, Value.node?] using mem_nodes_of_mem_claims hc)
          (Ne.symm hne)
      · exact List.mem_append_right _ hc

theorem Lifts.claims_of_ne (ht : f.Typed) (h : Lifts strict f ws f')
    (hs : f.slot n p = .ok s) (hc : (c, q) ∈ f.claims n p s.value)
    (hne : ∀ w ∈ ws, w.child ≠ c) :
    ∃ s', f'.slot n p = .ok s' ∧ (c, q) ∈ f.claims n p s'.value := by
  induction h with
  | start => exact ⟨s, hs, hc⟩
  | next f₁ f' ws w h hw ih =>
    obtain ⟨s₁, hs₁, hc₁⟩ := ih fun x hx => hne x (List.mem_append_left _ hx)
    have hclaims : ∀ v, f₁.claims n p v = f.claims n p v := fun v => claims_congr fun q => h.feature
    rw [← hclaims] at hc₁
    obtain ⟨s', hs', hc'⟩ := hw.claims_of_ne ht (fun c place => h.place?_of_some)
      (fun n p => h.feature) hs hc hs₁ hc₁ (hne w (List.mem_append_right _ List.mem_cons_self))
    rw [hclaims] at hc'
    exact ⟨s', hs', hc'⟩

end Forest

/-! ## Overlooked children -/

/-- **A set that overlooks a child breaks the agreement** if it is accepted: the child is
then listed in two places. -/
theorem Mutation.not_agrees_of_overlooks {m : Mutation} {a : Mutation.Outcome}
    (hf : d.forest.Sound True) (hover : m.Overlooks d.forest) (hok : (m.run d).1 = .ok a) :
    ¬ (m.run d).2.forest.Agrees := by
  have hweak : d.forest.Sound False := ⟨hf.toTyped, False.elim⟩
  have hsound : (m.run d).2.forest.Sound False :=
    (m.chain hweak fun h => absurd h id).sound hweak
  cases m with
  | set n p v =>
    have hends : (Mutation.set n p v).run.Ends d fun r d' => r = .ok a →
        ∃ ws f₁, Lifts False d.forest ws f₁ ∧
          (∀ w ∈ ws, w.child ∈ (d.forest.claims n p v).map Prod.fst ∧
            ∀ s, d.forest.slot n p = .ok s → w.child ∉ s.value.nodes) ∧
          Forest.Written False f₁ n p v d'.forest := by
      refine Edit.Ends.bind (Edit.setBy_ends hweak fun ws d₁ => Edit.putBack_chain _ ws d₁) ?_
        fun _ _ _ h => absurd h (by simp)
      intro _ d' h _
      cases (h fun hs => absurd hs id).2 with
      | done _ _ ws f₁ hl hp hdone hr => exact ⟨ws, f₁, hl, hp, hdone⟩
    obtain ⟨ws, f₁, hlifts, hp, g, old, hg, hs₁, hw, hf'⟩ := hends hok
    rw [hsound.toTyped.agrees_iff]
    intro hlinked
    obtain ⟨s, c, ⟨k, r⟩, hs, hcv, hcn, hcs, hplace⟩ := hover
    have hl := hf.linked trivial
    have hclaims : ∀ m q u, f₁.claims m q u = d.forest.claims m q u :=
      fun m q u => Forest.claims_congr fun q => hlifts.feature
    have hne : ∀ w ∈ ws, w.child ≠ c := by
      rintro w hwm rfl
      exact (hp w hwm).2 s hs hcn
    -- The child stays listed where it sat.
    obtain ⟨host, u, hu, hcu⟩ := hl.listed c k r hplace
    obtain ⟨u', hu', hcu'⟩ := hlifts.claims_of_ne hf.toTyped hu hcu hne
    have hother : (n, p) ≠ (k, host) := by
      intro heq
      obtain ⟨rfl, rfl⟩ := Prod.mk.injEq .. ▸ heq
      obtain rfl := ok_unique hs hu
      exact hcs (List.mem_map_of_mem hcu)
    -- It is listed in the slot that was set as well.
    have hold : (Mutation.run (.set n p v) d).2.forest.slot k host = .ok u' := by
      rw [hf', Forest.slot_write_of_ne hother]
      exact hu'
    have hnew : (Mutation.run (.set n p v) d).2.forest.slot n p =
        .ok ⟨v, !g.many || !v.isEmpty⟩ := by
      rw [hf']
      exact Forest.slot_write_self hs₁
    have hclaims' : ∀ m q u, (Mutation.run (.set n p v) d).2.forest.claims m q u =
        d.forest.claims m q u := by
      intro m q u
      rw [hf', Forest.claims_write, hclaims]
    obtain ⟨rfl, rfl⟩ := hlinked.slot_unique hsound.toTyped.shaped hold
      (by rw [hclaims']; exact List.mem_map_of_mem hcu') hnew (by rw [hclaims']; exact hcv)
    exact hother rfl
  | _ => exact absurd hover id

/-- **Places and slots agree in every document that is reached without an accepted edit
that overlooks a child**, and no longer after the first one that does. -/
theorem Document.Reachable.forest_agrees {declarations : List TypeDeclaration}
    (hb : Schema.build declarations = .ok schema) (hn : schema.NullContainment)
    (hp : schema.PlainDefaults)
    (h : d.Reachable schema fun d m => ¬ (m.Overlooks d.forest ∧ ∃ a, (m.run d).1 = .ok a)) :
    d.forest.Agrees ∧ ∀ m : Mutation, m.Overlooks d.forest → (∃ a, (m.run d).1 = .ok a) →
      ¬ (m.run d).2.forest.Agrees := by
  have hr : schema.Regular := ⟨Schema.coherent_of_build hb, hn, hp⟩
  have hf : d.forest.Sound True :=
    h.sound hr fun _ _ _ _ ha hok hover => ha ⟨hover, hok⟩
  exact ⟨hf.toTyped.agrees_iff.mpr (hf.linked trivial),
    fun m hover ⟨_, hok⟩ => m.not_agrees_of_overlooks hf hover hok⟩

/-- A document that edits made out of a new one. -/
def Document.after (d : Document τ) (ms : List Mutation) : Document τ :=
  ms.foldl (fun d m => (m.run d).2) d

/-- A notebook with one page. -/
def Notebook.blank (memory : τ) : Document τ where
  forest := ⟨Notebook.schema, [⟨⟨0⟩, [⟨.mixed [], false⟩, ⟨.null, false⟩, ⟨.null, false⟩, ⟨.list [], false⟩,
    ⟨.null, false⟩], none⟩]⟩
  root := ⟨0⟩
  audience := { memory }

theorem Notebook.new_eq_blank (memory : τ) :
    Document.new Notebook.schema "Page" memory = .ok (blank memory) := rfl

/-- A page is put below the first one, which mentions it in its body as well. Places and slots
agree then, and no longer once the body takes the page in as a part. -/
theorem Document.Reachable.forest_agrees_notebook :
    let d := (Notebook.blank ()).after [.create "Page", .add ⟨0⟩ Notebook.pages (.node ⟨1⟩),
      .addMixed ⟨0⟩ Notebook.mentions (.node ⟨1⟩)]
    let m : Mutation := .set ⟨0⟩ Notebook.body (.mixed [⟨Notebook.parts, .node ⟨1⟩⟩])
    d.forest.Agrees ∧ ¬ (m.run d).2.forest.Agrees := by
  intro d m
  have h := Document.Reachable.forest_agrees (d := d) Notebook.build_types (by decide) (by decide)
    (.edit _ _ (.edit _ _ (.edit _ _ (.new "Page" () _ (Notebook.new_eq_blank ())) And.left) And.left)
      And.left)
  refine ⟨h.1, h.2 m ⟨⟨.mixed [⟨Notebook.mentions, .node ⟨1⟩⟩], true⟩, ⟨1⟩, ⟨⟨0⟩, Notebook.pages⟩,
    rfl, by decide, by decide, by decide, rfl⟩ ⟨.done, rfl⟩⟩

end TrackedGraph
