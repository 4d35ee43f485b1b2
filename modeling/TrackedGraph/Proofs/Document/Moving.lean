/-
Edits that take children in.

Such an edit asks the audience, releases the children that sit elsewhere, announces the
change, and writes it. It ends in one of three ways (`Moving`): nothing has happened; or
the children were released and the change was written; or some children were released,
something failed, and what was released was handed to the repair. Which way it ends in
is all that the proofs need to know of an edit, and what a repair does to the forest is
a question of its own.
-/
import TrackedGraph.Proofs.Document.Single
import TrackedGraph.Proofs.Forest.Whereabouts

set_option autoImplicit false

namespace TrackedGraph

open Forest (Lift Lifts)

variable {τ α : Type} {strict : Prop} {d d₀ d' : Document τ} {ws : List Whereabouts}
  {restore : List Whereabouts → Edit τ Unit} {P : NodeId → Prop}

/-- The document after the released children were handed to the repair. -/
def repaired (restore : List Whereabouts → Edit τ Unit) (ws : List Whereabouts)
    (d : Document τ) : Document τ :=
  { (restore ws d).2 with
    repairRefusals := d.repairRefusals + ((restore ws d).2.refusals - d.refusals) }

/-- How an edit that takes children in ends. Children that it releases satisfy `P`. What is
`done` may depend on them and on the forest in which the change was written. -/
inductive Moving (strict : Prop) (restore : List Whereabouts → Edit τ Unit) (P : NodeId → Prop)
    (d : Document τ) (may : Prop) (done : List Whereabouts → α → Forest → Forest → Prop) :
    Except Fault α → Document τ → Prop
  /-- Nothing has happened. -/
  | nothing (e : Fault) (d' : Document τ) (hf : d'.forest = d.forest)
      (hr : d'.repairRefusals = d.repairRefusals) (hm : may → d.refusals < d'.refusals) :
      Moving strict restore P d may done (.error e) d'
  /-- Children were released and the change was written. -/
  | done (a : α) (d' : Document τ) (ws : List Whereabouts) (f₁ : Forest)
      (hl : Lifts strict d.forest ws f₁) (hp : ∀ w ∈ ws, P w.child) (hd : done ws a f₁ d'.forest)
      (hr : d'.repairRefusals = d.repairRefusals) : Moving strict restore P d may done (.ok a) d'
  /-- Children were released, and handed to the repair. -/
  | undone (e : Fault) (d₁ : Document τ) (ws : List Whereabouts)
      (hl : Lifts strict d.forest ws d₁.forest) (hp : ∀ w ∈ ws, P w.child) (hr : d₁.repairRefusals = d.repairRefusals)
      (hm : may → d.refusals < d₁.refusals) :
      Moving strict restore P d may done (.error e) (repaired restore ws d₁)

/-- A failure of a part is a failure of the whole, of which the part began with nothing
done. -/
theorem Moving.of_error {β : Type} {may may' : Prop}
    {done : List Whereabouts → α → Forest → Forest → Prop}
    {done' : List Whereabouts → β → Forest → Forest → Prop} {e : Fault}
    (h : Moving strict restore P d may done (.error e) d') (hf : d.forest = d₀.forest)
    (hr : d.repairRefusals = d₀.repairRefusals) (hle : d₀.refusals ≤ d.refusals)
    (hmay : may' → may) : Moving strict restore P d₀ may' done' (.error e) d' := by
  cases h with
  | nothing _ _ hf' hr' hm =>
    exact .nothing e d' (hf'.trans hf) (hr'.trans hr) fun h => Nat.lt_of_le_of_lt hle (hm (hmay h))
  | undone _ d₁ ws hl hp hr' hm =>
    rw [hf] at hl
    exact .undone e d₁ ws hl hp (hr'.trans hr) fun h => Nat.lt_of_le_of_lt hle (hm (hmay h))

theorem Moving.mono {may : Prop} {done done' : List Whereabouts → α → Forest → Forest → Prop}
    {r : Except Fault α} (h : Moving strict restore P d may done r d')
    (hdone : ∀ ws a f₁ f', Lifts strict d.forest ws f₁ → (∀ w ∈ ws, P w.child) →
      done ws a f₁ f' → done' ws a f₁ f') :
    Moving strict restore P d may done' r d' := by
  cases h with
  | nothing e _ hf hr hm => exact .nothing e d' hf hr hm
  | done a _ ws f₁ hl hp hd hr => exact .done a d' ws f₁ hl hp (hdone _ _ _ _ hl hp hd) hr
  | undone e d₁ ws hl hp hr hm => exact .undone e d₁ ws hl hp hr hm

/-- What was asked before does not change how an edit ends. -/
theorem Moving.of_start {P' : NodeId → Prop} {may may' : Prop}
    {done : List Whereabouts → α → Forest → Forest → Prop} {r : Except Fault α}
    (h : Moving strict restore P d may done r d') (hf : d.forest = d₀.forest)
    (hr : d.repairRefusals = d₀.repairRefusals) (hle : d₀.refusals ≤ d.refusals)
    (hmay : may' → may) (hP : ∀ c, P c → P' c) :
    Moving strict restore P' d₀ may' done r d' := by
  cases h with
  | nothing e _ hf' hr' hm =>
    exact .nothing e d' (hf'.trans hf) (hr'.trans hr) fun h => Nat.lt_of_le_of_lt hle (hm (hmay h))
  | done a _ ws f₁ hl hp hd hr' =>
    rw [hf] at hl
    exact .done a d' ws f₁ hl (fun w hw => hP _ (hp w hw)) hd (hr'.trans hr)
  | undone e d₁ ws hl hp hr' hm =>
    rw [hf] at hl
    exact .undone e d₁ ws hl (fun w hw => hP _ (hp w hw)) (hr'.trans hr) fun h =>
      Nat.lt_of_le_of_lt hle (hm (hmay h))

theorem Chain.repaired (h : Chain strict d (restore ws d).2) :
    Chain strict d (repaired restore ws d) :=
  h.trans (Step.counted _ _).chain

/-- **Announcing and writing with a repair at hand.** That the write keeps places and slots
in agreement may rest on a condition `S`, which is needed only if the edit succeeds. -/
theorem announce_moving {may S : Prop} {done : List Whereabouts → α → Forest → Forest → Prop}
    {N : Notice} {g : Feature} {old new : Slot} {freed : List NodeId}
    {taken : List (NodeId × PropertyId)} {w : Unit → Edit τ α} {a : α}
    (hl : Lifts strict d₀.forest ws d.forest) (hp : ∀ w ∈ ws, P w.child)
    (hr : d.repairRefusals = d₀.repairRefusals) (hle : d₀.refusals ≤ d.refusals)
    (hc : d.forest.CanWrite N) (hw : (strict → S) →
      d.forest.Rewrite strict N.node N.property g old new freed taken)
    (hm : strict → S → Moves d.forest N old freed taken) (hd : N.Describes old new)
    (hwrite : ∀ d₁ : Document τ, d₁.forest = d.forest → w () d₁ = (.ok a, { d₁ with
      forest := d.forest.write N.node N.property new freed taken
      generation := d₁.generation + 1 }))
    (hrestore : ∀ d₁ : Document τ, d₁.forest = d.forest → Chain strict d₁ (restore ws d₁).2)
    (hdone : (strict → S) →
      done ws a d.forest (d.forest.write N.node N.property new freed taken)) :
    ((Edit.announce N).mending (restore ws) >>= w).Ends d fun r d' =>
      (strict → (∃ a, r = .ok a) → S) →
        Chain strict d d' ∧ Moving strict restore P d₀ may done r d' := by
  unfold Edit.Ends
  rw [Edit.bind_apply]
  unfold Edit.mending
  rcases h : Edit.announce N d with ⟨r, d₁⟩
  have h₁ : (Edit.announce N d).1 = r := congrArg Prod.fst h
  have h₂ : (Edit.announce N d).2 = d₁ := congrArg Prod.snd h
  have hd₁ : d₁.forest = d.forest := by rw [← h₂, forest_announce]
  have hr₁ : d₁.repairRefusals = d.repairRefusals := by rw [← h₂, (announce_apply N d).2]
  cases r with
  | ok _ =>
    simp only [hwrite d₁ hd₁]
    intro hok
    -- The edit succeeds here, so what the write rests on is given.
    have hsafe : strict → S := fun hs => hok hs ⟨a, rfl⟩
    have hstep := Step.changed d N g old new freed taken h₁ hc (hw hsafe)
      (fun hs => hm hs (hsafe hs)) hd
    have hgen : d₁.generation = d.generation := by rw [← h₂, (announce_apply N d).2]
    rw [h₂, ← hgen] at hstep
    exact ⟨hstep.chain, .done a _ ws d.forest hl hp (hdone hsafe) (hr₁.trans hr)⟩
  | error e =>
    intro _
    -- Somebody refuses: the refusal is counted, and the repair starts from the forest as it was.
    have hstep : Chain strict d d₁ := by
      rw [← h₂]
      exact (Step.refused d N e h₁).chain
    refine ⟨hstep.trans (hrestore d₁ hd₁).repaired, .undone e d₁ ws ?_ hp (hr₁.trans hr) fun _ => ?_⟩
    · rw [hd₁]
      exact hl
    · refine Nat.lt_of_le_of_lt hle ?_
      rw [← h₂, refusals_announce, h₁]
      exact Nat.lt_succ_self _

namespace Forest

/-- After the releases the children of the value sit nowhere or in the slot. -/
def Ready (f : Forest) (n : NodeId) (p : PropertyId) (v : Value) (f₁ : Forest) : Prop :=
  ∀ old, f.slot n p = .ok old → ∀ x ∈ f.claims n p v,
    f₁.place? x.1 = none ∨ x.1 ∈ (f.claims n p old.value).map Prod.fst

/-- The forest `f'` is `f` with a value written into a slot. -/
def Written (strict : Prop) (f : Forest) (n : NodeId) (p : PropertyId) (v : Value)
    (f' : Forest) : Prop :=
  ∃ g old, f.feature n p = .ok g ∧ f.slot n p = .ok old ∧
    f.Rewrite strict n p g old ⟨v, !g.many || !v.isEmpty⟩ (f.lostChildren n p old.value v)
      (f.claims n p v) ∧
    f' = f.write n p ⟨v, !g.many || !v.isEmpty⟩ (f.lostChildren n p old.value v) (f.claims n p v)

end Forest

open Forest (Ready Written)

/-- A value that fits counts as set unless it is an empty list or empty mixed content. -/
theorem Forest.Fits.isEmptyMany {f : Forest} {n : NodeId} {p : PropertyId} {g : Feature}
    {v : Value} (hf : f.Typed) (hg : f.feature n p = .ok g) (h : f.Fits n p g v) :
    (!g.many || !v.isEmpty) = !v.isEmptyMany := by
  cases hx : g.isMixed with
  | true =>
    obtain ⟨t, -, hgt⟩ := Forest.feature_eq_ok.mp hg
    obtain ⟨entries, rfl, -⟩ := (Forest.fits_mixed hx).mp h
    rw [(hf.regular.coherent.mixed t p g hgt hx).1]
    cases entries <;> rfl
  | false =>
    cases hm : g.many with
    | true =>
      obtain ⟨items, rfl, -⟩ := (Forest.fits_list hx hm).mp h
      cases items <;> rfl
    | false =>
      rcases (Forest.fits_single hx hm).mp h with rfl | ⟨g', -, hitem, -⟩
      · rfl
      · cases v with
        | list items =>
          rw [Forest.not_list_of_itemFits rfl] at hitem
          exact absurd hitem (by simp)
        | mixed entries =>
          rw [Forest.not_mixed_of_itemFits rfl] at hitem
          exact absurd hitem (by simp)
        | _ => rfl

section

variable {f f₁ : Forest} {n : NodeId} {p : PropertyId} {g : Feature} {s : Slot} {v : Value}
  {cs : List NodeId}

/-- **What was admitted may be written** after the releases, which change neither types nor what
the value claims, and put nobody above the node. -/
theorem Forest.Lifts.rewrite_admitted (hl : Lifts strict f ws f₁) (hf : f.Sound strict)
    (hcs : f.admitValue n p v = .ok cs) (hg : f.feature n p = .ok g) (hs : f₁.slot n p = .ok s)
    (hready : strict → ∀ x ∈ f.claims n p v,
      f₁.place? x.1 = none ∨ x.1 ∈ (f.claims n p s.value).map Prod.fst) :
    f₁.Rewrite strict n p g s ⟨v, !g.many || !v.isEmpty⟩ (f₁.lostChildren n p s.value v)
      (f₁.claims n p v) := by
  obtain ⟨g', hg', ho, hfits, rfl, hd, hup⟩ := Forest.admitValue_eq_ok.mp hcs
  obtain rfl := ok_unique hg hg'
  have hclaims : ∀ u, f₁.claims n p u = f.claims n p u :=
    fun u => Forest.claims_congr fun q => hl.feature
  have hfits₁ : f₁.Fits n p g v := hfits.of_types hl.schema fun m u hu => hl.typeOf.trans hu
  refine Forest.rewrite_all (hl.feature.trans hg) ho hs hfits₁.slotFits ?_ ?_ fun hst x hx => ?_
  · rw [hclaims]
    exact hd
  · intro x hx hwithin
    rw [hclaims] at hx
    have hin := hup x.1 (List.mem_map_of_mem hx)
    exact (Forest.isWithin_eq_false_iff hf.acyclic).mp hin (hl.within hwithin)
  · rw [hclaims] at hx ⊢
    exact hready hst x hx

/-- **A recorder sees a value set**: those leave whom the slot loses, and those come in who were
not in it. -/
theorem moves_set (hf : f.Typed) (hg : f.feature n p = .ok g) (ho : g.owner = none)
    (hs : f.slot n p = .ok s) (hfits : f.Fits n p g v) :
    Moves f ⟨n, p, .set, s.value, v, none, s.isSet⟩ s (f.lostChildren n p s.value v)
      (f.claims n p v) := by
  refine ⟨_, _, ?_, fun c => Iff.rfl, fun c => Forest.mem_lostChildren⟩
  simp only [Tracking.movement, hf.shaped.owned_slot hg ho hs, Forest.owned_of_fits hg hfits, bind_ok,
    pure_eq_ok]
  rfl

end

/-- **Replacing a value**, given how children are released and put back. The releases leave
the slot as it is. That the value is ready to come in afterwards may rest on a condition `S`,
which is needed only if the edit succeeds. -/
theorem Edit.replace_ends {S : Prop} {release : List NodeId → Edit τ (List Whereabouts)}
    {n : NodeId} {p : PropertyId} {v : Value} (hf : d.forest.Sound strict)
    (hrelease : ∀ (cs : List NodeId) (d₁ : Document τ), d.forest.admitValue n p v = .ok cs →
      d₁.forest = d.forest → (release cs).Ends d₁ fun r d₂ => Chain strict d₁ d₂ ∧
        Moving strict restore P d₁ strict (fun ws ws' f₁ f' => ws' = ws ∧ f' = f₁ ∧
          f₁.slot n p = d.forest.slot n p ∧ (strict → S → Ready d.forest n p v f₁)) r d₂)
    (hrestore : ∀ (ws : List Whereabouts) (d₁ : Document τ), d₁.forest.Sound strict →
      Chain strict d₁ (restore ws d₁).2) :
    (replace release restore n p v).Ends d fun r d' => (strict → (∃ a, r = .ok a) → S) →
      Chain strict d d' ∧
      Moving strict restore P d (strict ∧ ∃ cs, d.forest.admitValue n p v = .ok cs)
        (fun _ _ f₁ f' => Written strict f₁ n p v f') r d' := by
  unfold replace
  refine Ends.query (fun cs hcs => ?_) fun e he _ => ⟨.refl, .nothing e d rfl rfl ?_⟩
  swap
  · rintro ⟨-, cs, hcs⟩
    rw [he] at hcs
    exact absurd hcs (by simp)
  obtain ⟨g, hg, ho, hfits, -⟩ := Forest.admitValue_eq_ok.mp hcs
  obtain ⟨s, hs⟩ := hf.slot_of_feature n p g hg
  rw [ends_query_of_ok hs]
  refine Ends.bind (poll_ends strict _) ?_ ?_
  · -- Nobody refuses when polled, and the children are released.
    rintro _ d₁ ⟨hc₁, hf₁, hr₁, -⟩
    refine Ends.bind (hrelease cs d₁ hcs hf₁) ?_ ?_
    · rintro ws' d₂ ⟨hc₂, hmoving⟩
      cases hmoving with
      | done _ _ ws f₁ hl hp hdone hr₂ =>
        obtain ⟨rfl, rfl, hsame, hready⟩ := hdone
        rw [hf₁] at hl
        have hf₂ := hl.sound hf
        have hg₂ : d₂.forest.feature n p = .ok g := hl.feature.trans hg
        have hs₂ : d₂.forest.slot n p = .ok s := hsame.trans hs
        have hfits₂ : d₂.forest.Fits n p g v := hfits.of_types hl.schema fun m u hu =>
          hl.typeOf.trans hu
        have hw := fun hsafe : strict → S =>
          hl.rewrite_admitted hf hcs hg hs₂ fun hst => hready hst (hsafe hst) s hs
        have href := Nat.le_trans hc₁.refusals_le hc₂.refusals_le
        refine (announce_moving (a := ()) hl hp (hr₂.trans hr₁) href
          (fun h => absurd h (by simp)) hw (fun _ _ => moves_set hf₂.toTyped hg₂ ho hs₂ hfits₂)
          (Notice.describes_set (hfits₂.isEmptyMany hf₂.toTyped hg₂))
          (fun d₃ hd₃ => ?_) (fun d₃ hd₃ => hrestore ws' d₃ ?_)
          (fun hsafe => ⟨g, s, hg₂, hs₂, hw hsafe, rfl⟩)).mono fun r d' h hsafe =>
            ⟨(hc₁.trans hc₂).trans (h hsafe).1, (h hsafe).2⟩
        · rw [← hd₃] at hf₂ hg₂ hs₂ hfits₂ ⊢
          exact (bind_of_ok (congrArg (·, d₃) hg₂)).trans
            (overwrite_apply hf₂.toTyped.shaped hg₂ ho hs₂
              (hf₂.toTyped.contains_of_claims hg₂ ho hs₂) hfits₂)
        · rw [hd₃]
          exact hf₂
    · -- A release fails, and has put everybody back.
      rintro e d₂ ⟨hc₂, hmoving⟩ -
      exact ⟨hc₁.trans hc₂, hmoving.of_error hf₁ hr₁ hc₁.refusals_le And.left⟩
  · -- Somebody refuses when polled, and nothing was released yet.
    rintro e d₁ ⟨hc₁, hf₁, hr₁, hok⟩ -
    exact ⟨hc₁, .nothing e d₁ hf₁ hr₁ fun _ => hok.resolve_left (by simp)⟩

/-- A single value may always be emptied. -/
theorem Forest.admitValue_null {f : Forest} {n : NodeId} {p : PropertyId} {g : Feature}
    (hg : f.feature n p = .ok g) (ho : g.owner = none) (hm : g.many = false)
    (hx : g.isMixed = false) : f.admitValue n p .null = .ok [] := by
  refine admitValue_eq_ok.mpr ⟨g, hg, ho, (fits_single hx hm).mpr (.inl rfl), ?_, List.nodup_nil,
    by simp⟩
  rw [claims_null]
  rfl

/-- **Emptying a single value**, with nothing to release and so nothing to put back. -/
theorem Edit.replace_null_ends {n : NodeId} {p : PropertyId} {g : Feature} {s : Slot}
    (hf : d.forest.Sound strict) (hg : d.forest.feature n p = .ok g) (ho : g.owner = none)
    (hm : g.many = false) (hx : g.isMixed = false) (hs : d.forest.slot n p = .ok s) :
    (replace (fun _ => return []) (fun _ => return ()) n p .null : Edit τ Unit).Ends d
      (AllOrNothing strict d strict fun _ f =>
        d.forest.Rewrite strict n p g s ⟨.null, true⟩
          ((d.forest.claims n p s.value).map Prod.fst) [] ∧
        f = d.forest.write n p ⟨.null, true⟩ ((d.forest.claims n p s.value).map Prod.fst) []) := by
  have hadmit := Forest.admitValue_null hg ho hm hx
  -- Nothing is released, so the change starts from the forest as it was.
  have hnone : ∀ {ws : List Whereabouts} {f₁ : Forest}, Lifts strict d.forest ws f₁ →
      (∀ w ∈ ws, False) → f₁ = d.forest := by
    intro ws f₁ hl hp
    obtain rfl : ws = [] := List.eq_nil_iff_forall_not_mem.mpr hp
    exact hl.of_nil
  refine (replace_ends (P := fun _ => False) (S := True) hf (fun cs d₁ _ hd₁ => ?_)
    fun ws d₁ _ => .refl).mono fun r d' h => ?_
  · refine ⟨.refl, .done [] d₁ [] d₁.forest .start (by simp)
      ⟨rfl, rfl, by rw [hd₁], fun _ _ old hold => ?_⟩ rfl⟩
    simp [Forest.claims_null]
  · obtain ⟨hc, hmoving⟩ := h fun _ _ => trivial
    cases hmoving with
    | nothing e _ hf' hr hm =>
      exact ⟨hc, hr, .inr ⟨⟨e, rfl⟩, hf', fun hst => hm ⟨hst, [], hadmit⟩⟩⟩
    | undone e d₁ ws hl hp hr hm =>
      refine ⟨hc, ?_, .inr ⟨⟨e, rfl⟩, hnone hl hp, fun hst => hm ⟨hst, [], hadmit⟩⟩⟩
      show d₁.repairRefusals + (d₁.refusals - d₁.refusals) = d.repairRefusals
      rw [Nat.sub_self, Nat.add_zero, hr]
    | done _ _ ws f₁ hl hp hdone hr =>
      obtain rfl := hnone hl hp
      obtain ⟨g', old, hg', hs', hw, hf'⟩ := hdone
      obtain rfl := ok_unique hg hg'
      obtain rfl := ok_unique hs hs'
      rw [Forest.lostChildren_of_nil Forest.claims_null, Forest.claims_null, hm] at hw hf'
      exact ⟨hc, hr, .inl ⟨(), rfl, hw, hf'⟩⟩

/-! ## Releasing a child -/

section release

variable {w : Whereabouts} {host : PropertyId} {g : Feature} {s : Slot}
  (hf : d.forest.Sound strict) (hh : d.forest.Hosts w.place host g) (hsuits : w.position.Suits g)
  (hs : d.forest.slot w.place.container host = .ok s)
  (hfound : Forest.FoundAt s w.place.property w.child w.position)
  (hplace : d.forest.place? w.child = some w.place)

include hf hh hsuits hs hfound hplace

theorem Edit.removeMixed_lifts {i : Nat} (hpos : w.position = .mixed i) :
    (removeMixed w.place.container i : Edit τ (Entry Value)).Ends d
      (AllOrNothing strict d strict fun _ f => Lift strict d.forest w f) := by
  obtain ⟨k, hk, hown, -, hg, hgo⟩ := id hh
  obtain ⟨t, ht, hgt⟩ := Forest.feature_eq_ok.mp hg
  obtain ⟨entries, hv, hi⟩ : ∃ entries, s.value = .mixed entries ∧
      entries[i]? = some ⟨w.place.property, .node w.child⟩ := by
    rw [hpos] at hfound
    exact hfound
  have hx : g.isMixed = true := by
    rw [hpos] at hsuits
    exact hsuits.2
  have hmixed := (hf.regular.coherent.mixed t host g hgt hx).2.2
  refine (removeMixed_ends hf).mono fun r d' h => h.mono (fun _ => ?_) ?_
  · exact ⟨t, host, entries, ht, hmixed, Forest.sequence_eq_ok.mpr ⟨s, hs, hv⟩,
      (List.getElem?_eq_some_iff.mp hi).1⟩
  · -- What was removed is what was found.
    rintro e f ⟨t', m', g', h', old, entries', ht', hm', hg', hh', hs', hv', hi', hw, hf'⟩
    rw [ht, Except.ok.injEq] at ht'
    rw [← ht', hmixed, Option.some.injEq] at hm'
    subst hm'
    obtain rfl := ok_unique hg hg'
    obtain rfl := ok_unique hs hs'
    rw [hv, Value.mixed.injEq] at hv'
    rw [← hv', hi, Option.some.injEq] at hi'
    subst hi'
    obtain rfl := ok_unique hk hh'
    have hfreed : (if k.owns then (Value.node w.child).node?.toList else []) = [w.child] :=
      if_pos hown
    rw [← show s.without w.position = s.removeEntry i by rw [hpos]; rfl] at hw hf'
    exact ⟨host, g, s, _, hh, hsuits, hs, hfound, hplace, hw, hfreed, hf'⟩

theorem Edit.remove_lifts {i : Nat} (hpos : w.position = .listed i) :
    (remove w.place.container w.place.property i : Edit τ Value).Ends d
      (AllOrNothing strict d strict fun _ f => Lift strict d.forest w f) := by
  obtain ⟨items, hv, hi⟩ : ∃ items, s.value = .list items ∧
      items[i]? = some (.node w.child) := by
    rw [hpos] at hfound
    exact hfound
  obtain ⟨hm, hx⟩ : g.many = true ∧ g.isMixed = false := by
    rw [hpos] at hsuits
    exact hsuits
  obtain ⟨rfl, hgown⟩ := hh.of_not_mixed hf.toTyped.shaped hx
  have hg := hh.host_feature
  refine (remove_ends hf).mono fun r d' h => h.mono (fun _ => ?_) ?_
  · exact ⟨items, Forest.itemsOf_eq_ok.mpr ⟨g, s, hg, hh.direct, hm, hx, hs, hv⟩,
      (List.getElem?_eq_some_iff.mp hi).1⟩
  · -- What was removed is what was found.
    rintro item f ⟨g', old, items', hg', hs', hv', hi', hw, hf'⟩
    obtain rfl := ok_unique hg hg'
    obtain rfl := ok_unique hs hs'
    rw [hv, Value.list.injEq] at hv'
    rw [← hv', hi, Option.some.injEq] at hi'
    subst hi'
    have hfreed : (if g.owns then (Value.node w.child).node?.toList else []) = [w.child] :=
      if_pos hgown
    rw [← show s.without w.position = s.removeItem i by rw [hpos]; rfl] at hw hf'
    exact ⟨_, g, s, _, hh, hsuits, hs, hfound, hplace, hw, hfreed, hf'⟩

theorem Edit.replace_null_lifts (hpos : w.position = .single) :
    (replace (fun _ => return []) (fun _ => return ()) w.place.container w.place.property .null :
      Edit τ Unit).Ends d
      (AllOrNothing strict d strict fun _ f => Lift strict d.forest w f) := by
  obtain ⟨hm, hx⟩ : g.many = false ∧ g.isMixed = false := by
    rw [hpos] at hsuits
    exact hsuits
  obtain ⟨rfl, -⟩ := hh.of_not_mixed hf.toTyped.shaped hx
  refine (replace_null_ends hf hh.host_feature hh.direct hm hx hs).mono fun r d' h =>
    h.mono id fun _ f ⟨hw, hf'⟩ => ?_
  have hfreed : (d.forest.claims w.place.container w.place.property s.value).map Prod.fst =
      [w.child] := by
    rw [(hf.toTyped.single hh hm hx hplace hs).2.2]
    rfl
  rw [← show s.without w.position = ⟨.null, true⟩ by rw [hpos]; rfl] at hw hf'
  exact ⟨_, g, s, _, hh, hsuits, hs, hfound, hplace, hw, hfreed, hf'⟩

end release

/-- **Releasing a child** from where it sits, if it sits anywhere. -/
theorem Edit.release_ends (hf : d.forest.Sound strict) (c : NodeId) :
    (release c : Edit τ (List Whereabouts)).Ends d (AllOrNothing strict d strict fun ws f =>
        (d.forest.whereabouts c = .ok none ∧ ws = [] ∧ f = d.forest) ∨
          ∃ w, d.forest.whereabouts c = .ok (some w) ∧ ws = [w] ∧ Lift strict d.forest w f) := by
  unfold release
  refine Ends.query (fun o ho => ?_) fun e he => .nothing ?_
  swap
  · -- Where places and slots agree, it can be told where a child sits.
    intro hst
    obtain ⟨o, ho⟩ := (hf.linked hst).exists_whereabouts hf.toTyped.shaped c
    rw [he] at ho
    exact absurd ho (by simp)
  cases o with
  | none => exact ⟨.refl, rfl, .inl ⟨[], rfl, .inl ⟨ho, rfl, rfl⟩⟩⟩
  | some w =>
    obtain ⟨rfl, hplace, host, g, s, hh, hsuits, hs, hfound⟩ := hf.toTyped.of_whereabouts ho
    have hdone : ∀ f, Lift strict d.forest w f →
        (d.forest.whereabouts w.child = .ok none ∧ [w] = [] ∧ f = d.forest) ∨
          ∃ w', d.forest.whereabouts w.child = .ok (some w') ∧ [w] = [w'] ∧
            Lift strict d.forest w' f := fun f hlift => .inr ⟨w, ho, rfl, hlift⟩
    obtain ⟨child, ⟨m, q⟩, position⟩ := w
    cases position with
    | mixed i =>
      refine Ends.bind (removeMixed_lifts hf hh hsuits hs hfound hplace rfl) (fun _ d' h => ?_)
        fun e d' h => h.of_error id
      obtain ⟨hc, hr, hlift⟩ := h.of_ok
      exact ⟨hc, hr, .inl ⟨_, rfl, hdone _ hlift⟩⟩
    | listed i =>
      refine Ends.bind (remove_lifts hf hh hsuits hs hfound hplace rfl) (fun _ d' h => ?_)
        fun e d' h => h.of_error id
      obtain ⟨hc, hr, hlift⟩ := h.of_ok
      exact ⟨hc, hr, .inl ⟨_, rfl, hdone _ hlift⟩⟩
    | single =>
      have hlifts := replace_null_lifts hf hh hsuits hs hfound hplace rfl
      refine Ends.bind hlifts (fun _ d' h => ?_) fun e d' h => h.of_error id
      obtain ⟨hc, hr, hlift⟩ := h.of_ok
      exact ⟨hc, hr, .inl ⟨_, rfl, hdone _ hlift⟩⟩

end TrackedGraph
