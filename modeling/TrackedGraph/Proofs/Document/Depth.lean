/-
How deep restorations go.

A child that is put back may be refused, after others were released for it, and then these
have to be put back in turn: that is why `putBack` takes a depth. It does not come to that.
What was released sits nowhere, so nothing is released when it is put back, and there is
nothing to make good if it is refused. Restorations go one level deep, and every depth from
one on makes the same edits (`Mutation.run_eq_runTo`). That places and slots agree is not
asked for.

Both halves rest on what an edit hands to its repair: the children that it has released, and
of these only such as its value names (`setBy_congr`, `insertBy_congr`, `insertMixedBy_congr`).
-/
import TrackedGraph.Proofs.Document.Restoring

set_option autoImplicit false

namespace TrackedGraph

open Forest (Lifts)

variable {τ α β : Type} {d d₀ : Document τ} {f f' : Forest} {ws moved : List Whereabouts}
  {w : Whereabouts} {restore restore' : List Whereabouts → Edit τ Unit} {n c x : NodeId}
  {p q : PropertyId} {v : Value}

namespace Forest

/-- The children are different ones and sit nowhere. -/
def Released (f : Forest) (ws : List Whereabouts) : Prop :=
  (ws.map (·.child)).Nodup ∧ ∀ w ∈ ws, f.place? w.child = none

/-- What was released one after the other sits nowhere at the end. -/
theorem Lifts.released (h : Lifts False f ws f') : f'.Released ws := by
  have hnone : ∀ {f' : Forest} {ws : List Whereabouts}, Lifts False f ws f' →
      ∀ c ∈ ws.map (·.child), f'.place? c = none := by
    intro f' ws h c hc
    rw [h.place?, if_pos hc]
  refine ⟨?_, fun w hw => hnone h _ (List.mem_map_of_mem hw)⟩
  induction h with
  | start => exact List.nodup_nil
  | next f₁ f' ws w h hw ih =>
    -- The last one sat somewhere when the others did not any more.
    obtain ⟨-, -, -, -, -, -, -, -, hplace, -⟩ := hw
    rw [List.map_append, List.map_singleton]
    refine List.nodup_append.mpr ⟨ih, List.nodup_singleton _, fun a ha b hb hab => ?_⟩
    rw [List.mem_singleton.mp hb] at hab
    rw [← hab, hnone h a ha] at hplace
    exact absurd hplace (by simp)

theorem Lifts.append {f₁ : Forest} {ws' : List Whereabouts} (h : Lifts False f ws f₁)
    (h' : Lifts False f₁ ws' f') : Lifts False f (ws ++ ws') f' := by
  induction h' with
  | start =>
    rw [List.append_nil]
    exact h
  | next f₂ f' ws' w _ hw ih =>
    rw [← List.append_assoc]
    exact .next f₂ f' _ w ih hw

theorem place?_write_eq_none {s : Slot} {freed : List NodeId} {taken : List (NodeId × PropertyId)}
    (hx : f.place? x = none) (hnot : x ∉ taken.map Prod.fst) :
    (f.write n p s freed taken).place? x = none := by
  rw [place?_write_of_not_taken hnot, hx, ite_self]

end Forest

namespace Edit

/-! ## What is handed to a repair -/

/-- Edits that start alike and go on alike are alike. -/
theorem bind_congr_at {x x' : Edit τ α} {k k' : α → Edit τ β} (hx : x' d = x d)
    (h : ∀ a d₁, x d = (.ok a, d₁) → k a d₁ = k' a d₁) : (x >>= k) d = (x' >>= k') d := by
  rw [bind_apply, bind_apply, hx]
  rcases hxd : x d with ⟨_ | a, d₁⟩
  · rfl
  · exact h a d₁ hxd

theorem bind_query_congr {q : Forest → Except Fault α} {k k' : α → Edit τ β}
    (h : ∀ a, q d.forest = .ok a → k a d = k' a d) : (query q >>= k) d = (query q >>= k') d := by
  refine bind_congr_at rfl fun a d₁ hq => ?_
  obtain ⟨ha, rfl⟩ := Prod.mk.injEq .. ▸ hq
  exact h a ha

/-- A repair matters only for the document that a failure leaves. -/
theorem mending_congr {x : Edit τ α} {y y' : Edit τ Unit}
    (h : ∀ e d₁, x d = (.error e, d₁) → (y d₁).2 = (y' d₁).2) :
    x.mending y d = x.mending y' d := by
  unfold mending
  rcases hx : x d with ⟨e | a, d₁⟩
  · simp only [h e d₁ hx]
  · rfl

/-- The two ways to put children back come to the same for all that may be released of the
nodes given, in the forest or in one that was announced a change. -/
def SameFor (restore restore' : List Whereabouts → Edit τ Unit) (f : Forest)
    (cs : List NodeId) : Prop :=
  ∀ ws f₁, Lifts False f ws f₁ → (∀ w ∈ ws, w.child ∈ cs) → ∀ d₁ : Document τ, d₁.forest = f₁ →
    (restore ws d₁).2 = (restore' ws d₁).2

theorem announce_mending_congr {cs : List NodeId} {N : Notice}
    (h : SameFor restore restore' f cs) (hl : Lifts False f ws d.forest)
    (hcs : ∀ w ∈ ws, w.child ∈ cs) :
    (announce N).mending (restore ws) d = (announce N).mending (restore' ws) d := by
  refine mending_congr fun e d₁ hx => h ws d.forest hl hcs d₁ ?_
  rw [← forest_announce (d := d) (N := N), hx]

/-- Of a child that is released: it is found where it sits, if it sits anywhere. -/
theorem lifts_of_release {d₁ : Document τ} (hf : d.forest.Sound False)
    (h : release c d = (.ok ws, d₁)) :
    Lifts False d.forest ws d₁.forest ∧ ∀ w ∈ ws, w.child = c := by
  have hends := release_ends hf c
  unfold Ends at hends
  rw [h] at hends
  obtain ⟨-, -, hdone⟩ := hends.of_ok
  rcases hdone with ⟨-, rfl, hf₁⟩ | ⟨w, hwhere, rfl, hlift⟩
  · rw [hf₁]
    exact ⟨.start, by simp⟩
  · refine ⟨.next _ _ [] w .start hlift, fun x hx => ?_⟩
    rw [List.mem_singleton.mp hx]
    exact (hf.toTyped.of_whereabouts hwhere).1

theorem forest_of_release_error {d₁ : Document τ} {e : Fault} (hf : d.forest.Sound False)
    (h : release c d = (.error e, d₁)) : d₁.forest = d.forest := by
  have hends := release_ends hf c
  unfold Ends at hends
  rw [h] at hends
  obtain ⟨-, -, ⟨a, ha, -⟩ | ⟨-, hf₁, -⟩⟩ := hends
  · exact absurd ha (by simp)
  · exact hf₁

/-- An edit that succeeds was not mended. -/
theorem of_mending_ok {x : Edit τ α} {y : Edit τ Unit} {a : α} {d₁ : Document τ}
    (h : x.mending y d = (.ok a, d₁)) : x d = (.ok a, d₁) := by
  unfold mending at h
  rcases hx : x d with ⟨e | a', d₁'⟩
  · rw [hx] at h
    exact absurd (congrArg Prod.fst h) (by simp)
  · rw [hx] at h
    exact h

/-- **Releasing several children** hands those released before to the repair. -/
theorem releaseAll_congr (here : List NodeId) {cs all : List NodeId} (hf₀ : d₀.forest.Sound False)
    (hl : Lifts False d₀.forest moved d.forest) (hmoved : ∀ w ∈ moved, w.child ∈ all)
    (hcs : ∀ c ∈ cs, c ∈ all) (h : SameFor restore restore' d₀.forest all) :
    releaseAll restore here moved cs d = releaseAll restore' here moved cs d ∧
      ∀ ws d₁, releaseAll restore here moved cs d = (.ok ws, d₁) →
        Lifts False d₀.forest ws d₁.forest ∧ ∀ w ∈ ws, w.child ∈ all := by
  induction cs generalizing moved d with
  | nil =>
    refine ⟨rfl, fun ws d₁ heq => ?_⟩
    obtain ⟨hws, rfl⟩ := Prod.mk.injEq .. ▸ heq
    rw [← Except.ok.inj hws]
    exact ⟨hl, hmoved⟩
  | cons c cs ih =>
    have hcs' : ∀ x ∈ cs, x ∈ all := fun x hx => hcs x (List.mem_cons_of_mem c hx)
    unfold releaseAll
    by_cases hc : here.contains c = true
    · rw [if_pos hc, if_pos hc]
      exact ih hl hmoved hcs'
    · rw [if_neg hc, if_neg hc]
      have hf := hl.sound hf₀
      -- A release that fails leaves the forest, so both repairs start from what the releases left.
      have hmend : (release c).mending (restore moved) d =
          (release c).mending (restore' moved) d :=
        mending_congr fun e d₁ hx =>
          h moved d.forest hl hmoved d₁ (forest_of_release_error hf hx)
      have hnext : ∀ placed d₁, (release c).mending (restore moved) d = (.ok placed, d₁) →
          Lifts False d₀.forest (moved ++ placed) d₁.forest ∧
            ∀ w ∈ moved ++ placed, w.child ∈ all := by
        intro placed d₁ hx
        obtain ⟨hlift, hchild⟩ := lifts_of_release hf (of_mending_ok hx)
        refine ⟨hl.append hlift, fun w hw => ?_⟩
        rcases List.mem_append.mp hw with hw | hw
        · exact hmoved w hw
        · rw [hchild w hw]
          exact hcs c List.mem_cons_self
      rw [bind_apply, bind_apply, ← hmend]
      rcases hx : (release c).mending (restore moved) d with ⟨e | placed, d₁⟩
      · exact ⟨rfl, fun ws d₂ heq => absurd (congrArg Prod.fst heq) (by simp)⟩
      · obtain ⟨hl₁, hmoved₁⟩ := hnext placed d₁ hx
        exact ih hl₁ hmoved₁ hcs'

/-- **Setting a value** hands children to the repair that the value names. -/
theorem setBy_congr (hf : d.forest.Sound False)
    (h : SameFor restore restore' d.forest v.nodes) :
    setBy restore n p v d = setBy restore' n p v d := by
  unfold setBy replace
  refine bind_query_congr fun cs hcs => bind_query_congr fun slot hslot => ?_
  have hnodes : ∀ c ∈ cs, c ∈ v.nodes := by
    obtain ⟨-, -, -, -, rfl, -, -⟩ := Forest.admitValue_eq_ok.mp hcs
    intro c hc
    obtain ⟨⟨_, q⟩, hq, rfl⟩ := List.mem_map.mp hc
    exact Forest.mem_nodes_of_mem_claims hq
  refine bind_congr_at rfl fun _ d₁ hpoll => ?_
  have hf₁ : d₁.forest = d.forest := by
    rw [← forest_poll (d := d), hpoll]
  rw [← hf₁] at hf h hslot
  -- The slot is as it was, and says which children are to stay.
  have hquery : query (·.slot n p) d₁ = (.ok slot, d₁) := congrArg (·, d₁) hslot
  obtain ⟨heq, hmoved⟩ := releaseAll_congr slot.value.nodes hf .start (by simp) hnodes h
  refine bind_congr_at ?_ fun moved d₂ hreleased => ?_
  · show (query (·.slot n p) >>= fun s => releaseAll restore' s.value.nodes [] cs) d₁ =
      (query (·.slot n p) >>= fun s => releaseAll restore s.value.nodes [] cs) d₁
    rw [bind_of_ok hquery, bind_of_ok hquery]
    exact heq.symm
  · obtain ⟨hl, hchildren⟩ := hmoved moved d₂ ((bind_of_ok hquery).symm.trans hreleased)
    exact bind_congr_at (announce_mending_congr h hl hchildren).symm fun _ _ _ => rfl

/-- **An insertion** hands the child to the repair that comes in. -/
theorem bringIn_congr {N : Notice} {incoming : Option NodeId} {g : Slot → Slot}
    (hf : d.forest.Sound False) (h : SameFor restore restore' d.forest incoming.toList) :
    bringIn restore N incoming q g d = bringIn restore' N incoming q g d := by
  unfold bringIn
  refine bind_congr_at rfl fun _ d₁ hpoll => ?_
  have hf₁ : d₁.forest = d.forest := by
    rw [← forest_poll (d := d) N, hpoll]
  rw [← hf₁] at hf h
  -- The repair is handed the child that was released, and nobody else.
  have hrest : ∀ moved d₂, Lifts False d₁.forest moved d₂.forest →
      (∀ w ∈ moved, w.child ∈ incoming.toList) →
      ((announce N).mending (restore moved) >>= fun _ => do
        incoming.forM (setPlace · (some ⟨N.node, q⟩))
        modifySlot N.node N.property g
        advance : Edit τ Unit) d₂ =
      ((announce N).mending (restore' moved) >>= fun _ => do
        incoming.forM (setPlace · (some ⟨N.node, q⟩))
        modifySlot N.node N.property g
        advance : Edit τ Unit) d₂ := fun moved d₂ hl hchildren =>
    bind_congr_at (announce_mending_congr h hl hchildren).symm fun _ _ _ => rfl
  cases incoming with
  | none => exact hrest [] d₁ .start (by simp)
  | some c =>
    refine bind_congr_at rfl fun moved d₂ hreleased => ?_
    obtain ⟨hl, hchild⟩ := lifts_of_release hf hreleased
    exact hrest moved d₂ hl fun w hw => by simp [hchild w hw]

theorem insertBy_congr {i : Nat} (hf : d.forest.Sound False)
    (h : SameFor restore restore' d.forest v.node?.toList) :
    insertBy restore n p i v d = insertBy restore' n p i v d := by
  rw [insertBy_eq, insertBy_eq]
  refine bind_query_congr fun incoming hin => bind_query_congr fun slot _ => ?_
  obtain ⟨g, -, -, -, -, -, rfl, -⟩ := Forest.admitItem_eq_ok.mp hin
  refine bringIn_congr hf fun ws f₁ hl hcs => h ws f₁ hl fun w hw => ?_
  have hw' := hcs w hw
  split at hw'
  · exact hw'
  · exact absurd hw' (by simp)

theorem insertMixedBy_congr {i : Nat} (hf : d.forest.Sound False)
    (h : SameFor restore restore' d.forest v.node?.toList) :
    insertMixedBy restore n i p v d = insertMixedBy restore' n i p v d := by
  rw [insertMixedBy_eq, insertMixedBy_eq]
  refine bind_query_congr fun ⟨mixed, incoming⟩ hin => bind_query_congr fun slot _ => ?_
  obtain ⟨g, entries, -, -, -, -, -, rfl, -⟩ := Forest.admitEntry_eq_ok.mp hin
  refine bringIn_congr hf fun ws f₁ hl hcs => h ws f₁ hl fun w hw => ?_
  have hw' := hcs w hw
  split at hw'
  · exact hw'
  · exact absurd hw' (by simp)

/-! ## Putting children back -/

/-- Nothing that sits nowhere is released, so a repair is of nothing if it is called. -/
theorem sameFor_of_away (hnil : ∀ d₁ : Document τ, (restore [] d₁).2 = (restore' [] d₁).2)
    (hc : f.place? c = none) : SameFor restore restore' f [c] := by
  rintro ws f₁ hl hcs d₁ -
  obtain rfl : ws = [] := hl.eq_nil fun w hw => by rw [List.mem_singleton.mp (hcs w hw), hc]
  exact hnil d₁

/-- A child that sits nowhere is put back without use of the repair. -/
theorem reinsert_congr (hf : d.forest.Sound False)
    (hnil : ∀ d₁ : Document τ, (restore [] d₁).2 = (restore' [] d₁).2)
    (hw : d.forest.place? w.child = none) : reinsert restore w d = reinsert restore' w d := by
  unfold reinsert
  cases w.position with
  | mixed i => exact insertMixedBy_congr hf (sameFor_of_away hnil hw)
  | listed i => exact insertBy_congr hf (sameFor_of_away hnil hw)
  | single => exact setBy_congr hf (sameFor_of_away hnil hw)

/-- Who sits nowhere while another child is put back does so afterwards. -/
theorem reinsert_away (hf : d.forest.Sound False)
    (hrestore : ∀ (ws : List Whereabouts) (d₁ : Document τ), d₁.forest.Sound False →
      Chain False d₁ (restore ws d₁).2) :
    (reinsert restore w).Ends d fun r d' => r = .ok () → ∀ x, x ≠ w.child →
      d.forest.place? x = none → d'.forest.place? x = none := by
  -- A release puts nobody anywhere, and the write that follows puts nobody but the child.
  have hlifts : ∀ {ws f₁ x}, Lifts False d.forest ws f₁ → d.forest.place? x = none →
      f₁.place? x = none := by
    intro ws f₁ x hl hx
    rw [hl.place?, hx, ite_self]
  have htaken : ∀ {x : NodeId} {owns : Bool} {q : PropertyId}, x ≠ w.child →
      x ∉ ((if owns then (Value.node w.child).node?.toList else []).map (·, q)).map Prod.fst := by
    intro x owns q hx
    cases owns <;> simp [Value.node?, hx]
  unfold reinsert
  cases w.position with
  | mixed i =>
    refine (insertMixedBy_ends hf hrestore).mono fun r d' h hr x hx hnone => ?_
    subst hr
    cases h.2 with
    | done _ _ ws f₁ hl _ hdone _ =>
      obtain ⟨_, _, _, -, -, -, hf'⟩ := hdone
      rw [hf']
      exact Forest.place?_write_eq_none (hlifts hl hnone) (htaken hx)
  | listed i =>
    refine (insertBy_ends hf hrestore).mono fun r d' h hr x hx hnone => ?_
    subst hr
    cases h.2 with
    | done _ _ ws f₁ hl _ hdone _ =>
      obtain ⟨_, _, -, -, hf'⟩ := hdone
      rw [hf']
      exact Forest.place?_write_eq_none (hlifts hl hnone) (htaken hx)
  | single =>
    refine (setBy_ends hf hrestore).mono fun r d' h hr x hx hnone => ?_
    subst hr
    cases (h fun _ _ => not_overlooks rfl).2 with
    | done _ _ ws f₁ hl _ hdone _ =>
      obtain ⟨_, _, -, -, -, hf'⟩ := hdone
      rw [hf']
      refine Forest.place?_write_eq_none (hlifts hl hnone) fun hin => hx ?_
      obtain ⟨⟨_, q⟩, hq, rfl⟩ := List.mem_map.mp hin
      exact List.mem_singleton.mp (Forest.mem_nodes_of_mem_claims hq)

theorem forM_reinsert_congr (hf : d.forest.Sound False)
    (hnil : ∀ d₁ : Document τ, (restore [] d₁).2 = (restore' [] d₁).2)
    (hrestore : ∀ (ws : List Whereabouts) (d₁ : Document τ), d₁.forest.Sound False →
      Chain False d₁ (restore ws d₁).2) (hws : d.forest.Released ws) :
    ws.forM (reinsert restore) d = ws.forM (reinsert restore') d := by
  induction ws generalizing d with
  | nil => rw [List.forM, List.forM]
  | cons w ws ih =>
    obtain ⟨hnodup, hnone⟩ := hws
    rw [List.map_cons, List.nodup_cons] at hnodup
    rw [List.forall_mem_cons] at hnone
    rw [List.forM, List.forM]
    refine bind_congr_at (reinsert_congr hf hnil hnone.1).symm fun _ d₁ hd₁ => ?_
    have hsound := reinsert_ends (w := w) hf hrestore
    have haway := reinsert_away (w := w) hf hrestore
    unfold Ends at hsound haway
    rw [hd₁] at hsound haway
    refine ih (hsound.sound hf) ⟨hnodup.2, fun x hx => haway rfl _ (fun heq => ?_) (hnone.2 x hx)⟩
    exact hnodup.1 (heq ▸ List.mem_map_of_mem hx)

theorem putBack_nil (k : Nat) (d : Document τ) : (putBack k [] d).2 = d := by
  cases k with
  | zero => rfl
  | succ k =>
    rw [putBack_succ, List.reverse_nil, List.forM]
    rfl

/-- **The depth does not matter** to released children. -/
theorem putBack_depth (hf : d.forest.Sound False) (hws : d.forest.Released ws) (k k' : Nat) :
    putBack (k + 1) ws d = putBack (k' + 1) ws d := by
  have hchain : ∀ (ws : List Whereabouts) (d₁ : Document τ), d₁.forest.Sound False →
      Chain False d₁ (putBack k ws d₁).2 := fun ws d₁ hf₁ => putBack_chain k ws d₁ hf₁
  rw [putBack_succ, putBack_succ]
  refine forM_reinsert_congr hf (fun d₁ => ?_) hchain ⟨?_, ?_⟩
  · rw [putBack_nil, putBack_nil]
  · rw [List.map_reverse]
    exact List.nodup_reverse.mpr hws.1
  · exact fun w hw => hws.2 w (List.mem_reverse.mp hw)

theorem sameFor_putBack (hf : f.Sound False) (cs : List NodeId) (k k' : Nat) :
    SameFor (putBack (k + 1) : List Whereabouts → Edit τ Unit) (putBack (k' + 1)) f cs := by
  rintro ws _ hl - d₁ rfl
  rw [putBack_depth (hl.sound hf) hl.released k k']

end Edit

/-! ## Every edit -/

/-- Makes the edit, with restorations nested to a depth. -/
def Mutation.runTo (depth : Nat) : Mutation → Edit τ Mutation.Outcome
  | set n p v => do Edit.setBy (Edit.putBack depth) n p v; return .done
  | add n p item => do
    Edit.insertBy (Edit.putBack depth) n p (← Edit.query (·.itemsOf n p)).length item
    return .done
  | insert n p index item => do Edit.insertBy (Edit.putBack depth) n p index item; return .done
  | addMixed n member v => do
    let mixed ← Edit.query (·.sequenceOwner n member)
    let index := (← Edit.query (·.sequence n mixed)).length
    Edit.insertMixedBy (Edit.putBack depth) n index member v
    return .done
  | insertMixed n index member v => do
    Edit.insertMixedBy (Edit.putBack depth) n index member v
    return .done
  | m => m.run

/-- **Restorations go one level deep**: every edit comes to the same whatever the depth to which
they may be nested, as long as there is one. -/
theorem Mutation.run_eq_runTo (m : Mutation) (hf : d.forest.Typed) (k : Nat) :
    m.run d = m.runTo (k + 1) d := by
  have hweak : d.forest.Sound False := ⟨hf, False.elim⟩
  -- Both repairs nest at least one level deep, so they come to the same.
  have hsame : ∀ cs, Edit.SameFor (Edit.putBack Edit.restoreDepth : List Whereabouts → Edit τ Unit)
      (Edit.putBack (k + 1)) d.forest cs := fun cs => Edit.sameFor_putBack hweak cs 63 k
  have hinsert : ∀ n p i item, Edit.insert n p i item d =
      Edit.insertBy (Edit.putBack (k + 1)) n p i item d :=
    fun n p i item => Edit.insertBy_congr hweak (hsame _)
  have hinsertMixed : ∀ n i p v, Edit.insertMixed n i p v d =
      Edit.insertMixedBy (Edit.putBack (k + 1)) n i p v d :=
    fun n i p v => Edit.insertMixedBy_congr hweak (hsame _)
  cases m with
  | set n p v => exact Edit.bind_congr_at (Edit.setBy_congr hweak (hsame _)).symm fun _ _ _ => rfl
  | add n p item =>
    simp only [run, runTo, Edit.add, bind_assoc]
    exact Edit.bind_query_congr fun items _ =>
      Edit.bind_congr_at (hinsert n p items.length item).symm fun _ _ _ => rfl
  | insert n p i item => exact Edit.bind_congr_at (hinsert n p i item).symm fun _ _ _ => rfl
  | addMixed n p v =>
    simp only [run, runTo, Edit.addMixed, bind_assoc]
    exact Edit.bind_query_congr fun mixed _ => Edit.bind_query_congr fun es _ =>
      Edit.bind_congr_at (hinsertMixed n es.length p v).symm fun _ _ _ => rfl
  | insertMixed n i p v =>
    exact Edit.bind_congr_at (hinsertMixed n i p v).symm fun _ _ _ => rfl
  | _ => rfl

/-- No document that is ever reached comes to the end of the depth. -/
theorem Document.Reachable.run_eq_runTo {declarations : List TypeDeclaration} {schema : Schema}
    {allowed : Document τ → Mutation → Prop} (hb : Schema.build declarations = .ok schema)
    (hn : schema.NullContainment) (hp : schema.PlainDefaults) (h : d.Reachable schema allowed)
    (m : Mutation) (k : Nat) : m.run d = m.runTo (k + 1) d :=
  m.run_eq_runTo (h.sound ⟨Schema.coherent_of_build hb, hn, hp⟩
    fun hs => absurd hs id : d.forest.Sound False).toTyped k

end TrackedGraph
