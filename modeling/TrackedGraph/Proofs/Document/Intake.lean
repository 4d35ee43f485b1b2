/-
Setting and inserting, and children put back.

The edits that take children in are all of the shape of `Moving`, with `replace` at the
heart of the first and a single release at the heart of the others. Putting children
back is such edits again, to a fixed depth, so that they make chains of steps goes by
induction on the depth (`putBack_chain`).
-/
import TrackedGraph.Proofs.Document.Moving
import TrackedGraph.Document.Mutation

set_option autoImplicit false

namespace TrackedGraph

open Forest (Lift Lifts Ready Written)

variable {τ : Type} {strict : Prop} {d d₀ : Document τ} {moved : List Whereabouts}
  {restore : List Whereabouts → Edit τ Unit} {P : NodeId → Prop} {n : NodeId}
  {p : PropertyId} {v : Value}

/-- Setting the value overlooks a child: one that the value takes in, that sits
somewhere, and that the slot mentions at present without it being a child there. -/
def Forest.Overlooks (f : Forest) (n : NodeId) (p : PropertyId) (v : Value) : Prop :=
  ∃ s c place, f.slot n p = .ok s ∧ c ∈ (f.claims n p v).map Prod.fst ∧ c ∈ s.value.nodes ∧
    c ∉ (f.claims n p s.value).map Prod.fst ∧ f.place? c = some place

namespace Edit

/-! ## Setting -/

/-- Releasing one more child, with those released before handed to the repair if it
fails. -/
theorem release_mending_ends (hf₀ : d₀.forest.Sound strict)
    (hl : Lifts strict d₀.forest moved d.forest) (hp : ∀ w ∈ moved, P w.child) {c : NodeId}
    (hP : P c) (hr : d.repairRefusals = d₀.repairRefusals) (hle : d₀.refusals ≤ d.refusals)
    (hrestore : ∀ (ws : List Whereabouts) (d₁ : Document τ), d₁.forest.Sound strict →
      Chain strict d₁ (restore ws d₁).2) :
    ((release c).mending (restore moved)).Ends d fun r d' => Chain strict d d' ∧
      Moving strict restore P d₀ strict (fun ws placed f₁ f' => ws = moved ++ placed ∧ f' = f₁ ∧
        (∀ x, d.forest.place? x = none → f'.place? x = none) ∧
        (strict → f'.place? c = none)) r d' := by
  have hf : d.forest.Sound strict := hl.sound hf₀
  refine Ends.mending (fun placed d₁ h => ?_) (fun e d₁ h => ?_) (release_ends hf c)
  · obtain ⟨hc, hr₁, hdone⟩ := h.of_ok
    rcases hdone with ⟨hwhere, rfl, hf₁⟩ | ⟨w, hwhere, rfl, hlift⟩
    · -- The child sat nowhere, so there is nothing to put back.
      have hnone : d₁.forest.place? c = none := by
        rw [hf₁]
        exact Forest.place?_of_whereabouts hwhere
      refine ⟨hc, .done [] d₁ moved d₁.forest (by rw [hf₁]; exact hl) hp ?_ (hr₁.trans hr)⟩
      exact ⟨(List.append_nil _).symm, rfl, fun x hx => by rw [hf₁]; exact hx, fun _ => hnone⟩
    · -- It was lifted, and joins those whom a repair has to put back.
      obtain ⟨rfl, hplace, -⟩ := hf.toTyped.of_whereabouts hwhere
      have hstay : ∀ x, d.forest.place? x = none → d₁.forest.place? x = none := by
        intro x hx
        cases hx' : d₁.forest.place? x with
        | none => rfl
        | some place =>
          rw [hlift.place?_of_some hx'] at hx
          exact absurd hx (by simp)
      refine ⟨hc, .done [w] d₁ (moved ++ [w]) d₁.forest (.next _ _ _ _ hl hlift) ?_
        ⟨rfl, rfl, hstay, ?_⟩ (hr₁.trans hr)⟩
      · intro x hx
        rcases List.mem_append.mp hx with hx | hx
        · exact hp x hx
        · rw [List.mem_singleton.mp hx]
          exact hP
      · intro _
        rw [hlift.place?, if_pos rfl]
  · -- The release fails and leaves the forest, and those released before are put back.
    obtain ⟨hc, hr₁, ⟨a, ha, -⟩ | ⟨-, hf₁, hm⟩⟩ := h
    · exact absurd ha (by simp)
    · have hrest := hrestore moved d₁ (by rw [hf₁]; exact hf)
      exact ⟨hc.trans hrest.repaired, .undone e d₁ moved (by rw [hf₁]; exact hl) hp (hr₁.trans hr)
        fun hst => Nat.lt_of_le_of_lt hle (hm hst)⟩

/-- **Releasing several children**, those in `here` apart. -/
theorem releaseAll_ends {here cs : List NodeId} (hf₀ : d₀.forest.Sound strict)
    (hl : Lifts strict d₀.forest moved d.forest) (hp : ∀ w ∈ moved, P w.child)
    (hP : ∀ c ∈ cs, c ∉ here → P c) (hr : d.repairRefusals = d₀.repairRefusals)
    (hle : d₀.refusals ≤ d.refusals)
    (hrestore : ∀ (ws : List Whereabouts) (d₁ : Document τ), d₁.forest.Sound strict →
      Chain strict d₁ (restore ws d₁).2) :
    (releaseAll restore here moved cs).Ends d fun r d' => Chain strict d d' ∧
      Moving strict restore P d₀ strict (fun ws ws' f₁ f' => ws' = ws ∧ f' = f₁ ∧
        (∀ x, d.forest.place? x = none → f'.place? x = none) ∧
        (strict → ∀ c ∈ cs, c ∉ here → f'.place? c = none)) r d' := by
  induction cs generalizing moved d with
  | nil => exact ⟨.refl, .done moved d moved d.forest hl hp ⟨rfl, rfl, fun _ h => h, by simp⟩ hr⟩
  | cons c cs ih =>
    have hPcs : ∀ x ∈ cs, x ∉ here → P x := fun x hx => hP x (List.mem_cons_of_mem c hx)
    unfold releaseAll
    by_cases hc : here.contains c = true
    · -- It stays, so it is not one of those who have to sit nowhere.
      rw [if_pos hc]
      have hmem : c ∈ here := List.contains_iff_mem.mp hc
      refine (ih hl hp hPcs hr hle).mono fun r d' h => ⟨h.1, h.2.mono ?_⟩
      rintro ws ws' f₁ f' - - ⟨rfl, rfl, hkeep, hcs⟩
      refine ⟨rfl, rfl, hkeep, fun hst x hx hnot => ?_⟩
      rcases List.mem_cons.mp hx with rfl | hx
      · exact absurd hmem hnot
      · exact hcs hst x hx hnot
    · -- It is released, and nobody who sits nowhere is given a place by the releases that follow.
      rw [if_neg hc]
      have hnot : c ∉ here := fun hm => hc (List.contains_iff_mem.mpr hm)
      refine Ends.bind (release_mending_ends hf₀ hl hp (hP c List.mem_cons_self hnot) hr hle
        hrestore) ?_ fun e d₁ h => ⟨h.1, h.2.of_error rfl rfl (Nat.le_refl _) id⟩
      rintro placed d₁ ⟨hc₁, hmoving⟩
      cases hmoving with
      | done _ _ ws f₁ hl₁ hp₁ hdone hr₁ =>
        obtain ⟨rfl, rfl, hkeep, hnone⟩ := hdone
        refine (ih hl₁ hp₁ hPcs hr₁ (Nat.le_trans hle hc₁.refusals_le)).mono fun r d' h =>
          ⟨hc₁.trans h.1, h.2.mono ?_⟩
        rintro ws ws' f₁ f' - - ⟨rfl, rfl, hkeep', hcs⟩
        refine ⟨rfl, rfl, fun x hx => hkeep' x (hkeep x hx), fun hst x hx hnx => ?_⟩
        rcases List.mem_cons.mp hx with rfl | hx
        · exact hkeep' _ (hnone hst)
        · exact hcs hst x hx hnx

/-- **Setting a value.** Children that the value takes in are released first, unless the
slot mentions them already. A value that overlooks a child does harm only once it is
written. -/
theorem setBy_ends (hf : d.forest.Sound strict)
    (hrestore : ∀ (ws : List Whereabouts) (d₁ : Document τ), d₁.forest.Sound strict →
      Chain strict d₁ (restore ws d₁).2) :
    (setBy restore n p v).Ends d fun r d' =>
      (strict → (∃ a, r = .ok a) → ¬ d.forest.Overlooks n p v) → Chain strict d d' ∧
      Moving strict restore (fun c => c ∈ (d.forest.claims n p v).map Prod.fst ∧
          ∀ s, d.forest.slot n p = .ok s → c ∉ s.value.nodes) d
        (strict ∧ ∃ cs, d.forest.admitValue n p v = .ok cs)
        (fun _ _ f₁ f' => Written strict f₁ n p v f') r d' := by
  refine replace_ends hf (fun cs d₁ hcs hd₁ => ?_) hrestore
  obtain ⟨g, hg, -, -, rfl, -, -⟩ := Forest.admitValue_eq_ok.mp hcs
  obtain ⟨s, hs⟩ := hf.slot_of_feature n p g hg
  rw [← hd₁] at hf hs ⊢
  rw [ends_query_of_ok hs]
  refine (releaseAll_ends hf .start (by simp) (fun c hc hnot => ⟨hc, fun s' hs' => ?_⟩) rfl
    (Nat.le_refl _) hrestore).mono fun r d' h => ⟨h.1, h.2.mono ?_⟩
  swap
  · rw [hs, Except.ok.injEq] at hs'
    rw [← hs']
    exact hnot
  · rintro ws ws' f₁ f' hl hp ⟨rfl, rfl, hkeep, hcs⟩
    refine ⟨rfl, rfl, ?_, fun hst hover old hold x hx => ?_⟩
    · exact (hl.slot_of_not_mem hf hs fun w hw => (hp w hw).2 s hs).trans hs.symm
    · obtain rfl := ok_unique hs hold
      have hx' : x.1 ∈ (d₁.forest.claims n p v).map Prod.fst := List.mem_map_of_mem hx
      by_cases hin : x.1 ∈ s.value.nodes
      · -- What the slot mentions is a child there, or it sits nowhere.
        by_cases hchild : x.1 ∈ (d₁.forest.claims n p s.value).map Prod.fst
        · exact .inr hchild
        · left
          refine hkeep x.1 ?_
          cases hplace : d₁.forest.place? x.1 with
          | none => rfl
          | some place =>
            exact absurd ⟨s, x.1, place, hs, hx', hin, hchild, hplace⟩ hover
      · exact .inl (hcs hst x.1 hx' hin)

/-- Only mixed content can overlook a child. -/
theorem not_overlooks {f : Forest} (hv : v.entries = []) : ¬ f.Overlooks n p v := by
  rintro ⟨s, c, place, -, hc, hn, hno, -⟩
  obtain ⟨⟨_, q⟩, hq, rfl⟩ := List.mem_map.mp hc
  obtain ⟨g, hg, ⟨how, -, -⟩ | ⟨-, -, e, he, -⟩⟩ := Forest.mem_claims.mp hq
  · refine hno (List.mem_map.mpr ⟨(_, p), Forest.mem_claims.mpr ⟨g, hg, .inl ⟨how, rfl, hn⟩⟩, rfl⟩)
  · rw [hv] at he
    exact absurd he (by simp)

/-! ## Inserting -/

/-- Releasing the one child that comes in, if one does, before the rest of an edit. -/
theorem intake_ends {incoming : Option NodeId} {rest : List Whereabouts → Edit τ Unit}
    {done : List Whereabouts → Unit → Forest → Forest → Prop} (hf : d.forest.Sound strict) :
    (∀ (ws : List Whereabouts) (d₁ : Document τ), Chain strict d d₁ →
      d₁.repairRefusals = d.repairRefusals → Lifts strict d.forest ws d₁.forest →
      (∀ w ∈ ws, incoming = some w.child) →
      (strict → ∀ c, incoming = some c → d₁.forest.place? c = none) →
      (rest ws).Ends d₁ fun r d' => Chain strict d₁ d' ∧
        Moving strict restore (fun c => incoming = some c) d strict done r d') →
    (match incoming with
      | some child => do rest (← release child)
      | none => do rest (← pure []) : Edit τ Unit).Ends d fun r d' => Chain strict d d' ∧
        Moving strict restore (fun c => incoming = some c) d strict done r d' := by
  intro hrest
  cases incoming with
  | none => exact hrest [] d .refl rfl .start (by simp) (by simp)
  | some c =>
    refine Ends.bind (release_ends hf c) (fun placed d₁ h => ?_) fun e d₁ h => ?_
    · obtain ⟨hc, hr, hdone⟩ := h.of_ok
      rcases hdone with ⟨hwhere, rfl, hf₁⟩ | ⟨w, hwhere, rfl, hlift⟩
      · -- It sat nowhere, and the rest begins with nobody to put back.
        refine (hrest [] d₁ hc hr (by rw [hf₁]; exact .start) (by simp) fun _ x hx => ?_).mono
          fun r d' h => ⟨hc.trans h.1, h.2⟩
        rw [← Option.some.inj hx, hf₁]
        exact Forest.place?_of_whereabouts hwhere
      · -- It was lifted from where it sat, and the rest can put it back there.
        obtain ⟨rfl, -⟩ := hf.toTyped.of_whereabouts hwhere
        refine (hrest [w] d₁ hc hr (.next _ _ [] w .start hlift) (by simp) fun _ x hx => ?_).mono
          fun r d' h => ⟨hc.trans h.1, h.2⟩
        rw [← Option.some.inj hx, hlift.place?, if_pos rfl]
    · obtain ⟨hc, hr, ⟨a, ha, -⟩ | ⟨-, hf₁, hm⟩⟩ := h
      · exact absurd ha (by simp)
      · exact ⟨hc, .nothing e d₁ hf₁ hr hm⟩

/-- The place of the one child that comes in, if one does. -/
theorem forM_option_apply {incoming : Option NodeId} (h : ∀ c, incoming = some c →
    d.forest.contains c = true) :
    incoming.forM (setPlace · (some ⟨n, p⟩)) d = (.ok (), { d with
      forest := d.forest.take n (incoming.toList.map (·, p)) }) := by
  cases incoming with
  | none => rfl
  | some c => exact setPlace_apply (h c rfl)

/-- **An admitted insertion.** The child that comes in was nowhere in the slot and holds
no part of the way up, so that both still hold once it is released. -/
theorem bringIn_ends {N : Notice} {g : Feature} {old : Slot} {w : Slot → Slot} {owns : Bool}
    {incoming : Option NodeId} {q : PropertyId}
    {done : List Whereabouts → Unit → Forest → Forest → Prop} (hf : d.forest.Sound strict)
    (hincoming : incoming = if owns then v.node? else none)
    (hnew : ∀ c, incoming = some c → d.forest.requireNewcomer N.node N.property c = .ok ())
    (hs : d.forest.slot N.node N.property = .ok old) (hkind : N.kind ≠ .unset)
    (hd : N.Describes old (w old))
    (hrestore : ∀ (ws : List Whereabouts) (d₁ : Document τ), d₁.forest.Sound strict →
      Chain strict d₁ (restore ws d₁).2)
    (hcleared : ∀ (ws : List Whereabouts) (f₁ : Forest), Lifts strict d.forest ws f₁ →
      f₁.slot N.node N.property = .ok old →
      (∀ c, v.node? = some c → owns = true → ¬ f₁.Within N.node c) →
      (strict → ∀ c, v.node? = some c → owns = true → f₁.place? c = none) →
      (∀ c, v.node? = some c → f₁.contains c = true) ∧
      Tracking.movement f₁ N = .ok ([], if owns then v.node?.toList else []) ∧
      f₁.Rewrite strict N.node N.property g old (w old) []
        ((if owns then v.node?.toList else []).map (·, q)) ∧
      done ws () f₁ (f₁.write N.node N.property (w old) []
        ((if owns then v.node?.toList else []).map (·, q)))) :
    (bringIn restore N incoming q w).Ends d fun r d' => Chain strict d d' ∧
      Moving strict restore (fun c => v.node? = some c ∧ owns = true) d strict done r d' := by
  have hmem : ∀ c, incoming = some c ↔ owns = true ∧ v.node? = some c := fun c => by
    rw [hincoming, Option.ite_none_right_eq_some]
  have htoList : incoming.toList = if owns then v.node?.toList else [] := by
    rw [hincoming]
    exact apply_ite Option.toList ..
  unfold bringIn
  refine Ends.bind (poll_ends strict _) ?_ fun e d₁ ⟨hc₁, hf₁, hr₁, hok⟩ =>
    ⟨hc₁, .nothing e d₁ hf₁ hr₁ fun _ => hok.resolve_left (by simp)⟩
  rintro _ d₁ ⟨hc₁, hf₁, hr₁, -⟩
  refine (intake_ends (by rw [hf₁]; exact hf) fun ws d₂ hc₂ hr₂ hl₁ hp hnone => ?_).mono
    fun r d' h => ⟨hc₁.trans h.1,
      h.2.of_start hf₁ hr₁ hc₁.refusals_le id fun c hc => ((hmem c).mp hc).symm⟩
  have hl := hl₁
  rw [hf₁] at hl
  -- A child that the slot mentions is not admitted, so its release leaves the slot as it is.
  have hnotin : ∀ c, incoming = some c → c ∉ old.value.nodes := by
    intro c hc
    obtain ⟨-, s, hs', hc'⟩ := Forest.requireNewcomer_eq_ok.mp (hnew c hc)
    rw [hs, Except.ok.injEq] at hs'
    rw [hs']
    exact hc'
  have hs₂ : d₂.forest.slot N.node N.property = .ok old :=
    hl.slot_of_not_mem hf hs fun x hx => hnotin x.child (hp x hx)
  have hup : ∀ c, v.node? = some c → owns = true → ¬ d₂.forest.Within N.node c := by
    intro c hc how hwithin
    have hin := (Forest.requireNewcomer_eq_ok.mp (hnew c ((hmem c).mpr ⟨how, hc⟩))).1
    exact (Forest.isWithin_eq_false_iff hf.acyclic).mp hin (hl.within hwithin)
  obtain ⟨hcontains, hmovement, hw, hdone⟩ := hcleared ws d₂.forest hl hs₂ hup
    fun hst c hc how => hnone hst c ((hmem c).mpr ⟨how, hc⟩)
  -- Nothing leaves, and what comes in was not a child here before: a recorder sees just that.
  have hmoves : strict → True → Moves d₂.forest N old []
      ((if owns then v.node?.toList else []).map (·, q)) := by
    intro _ _
    refine ⟨[], _, hmovement, fun _ => Iff.rfl, fun c => ?_⟩
    rw [List.map_map, show Prod.fst ∘ (·, q) = (id : NodeId → NodeId) from rfl, List.map_id,
      ← htoList]
    refine ⟨fun hc => ⟨hc, fun hin => ?_⟩, And.left⟩
    obtain ⟨⟨_, q'⟩, hq, rfl⟩ := List.mem_map.mp hin
    exact hnotin _ (Option.mem_toList.mp hc) (Forest.mem_nodes_of_mem_claims hq)
  refine (announce_moving (a := ()) hl₁ hp hr₂ hc₂.refusals_le (fun h => absurd h hkind)
    (fun _ => hw) hmoves hd (fun d₃ hd₃ => ?_)
    (fun d₃ hd₃ => hrestore ws d₃ (by rw [hd₃]; exact hl.sound hf))
    fun _ => hdone).mono fun _ _ h => h fun _ _ => trivial
  rw [← hd₃] at hs₂ hcontains ⊢
  rw [← htoList]
  exact (bind_of_ok (forM_option_apply fun c hc => hcontains c ((hmem c).mp hc).2)).trans
    (write_apply [] _ hs₂)

/-- **Inserting into a list.** -/
theorem insertBy_ends {i : Nat} {item : Value} (hf : d.forest.Sound strict)
    (hrestore : ∀ (ws : List Whereabouts) (d₁ : Document τ), d₁.forest.Sound strict →
      Chain strict d₁ (restore ws d₁).2) :
    (insertBy restore n p i item).Ends d fun r d' => Chain strict d d' ∧
      Moving strict restore (fun c => item.node? = some c ∧ d.forest.ownsAt n p = true) d
        (strict ∧ ∃ o, d.forest.admitItem n p i item = .ok o)
        (fun _ _ f₁ f' => ∃ g old, f₁.feature n p = .ok g ∧ f₁.slot n p = .ok old ∧
          f' = f₁.write n p (old.insertItem i item) []
            ((if g.owns then item.node?.toList else []).map (·, p))) r d' := by
  rw [insertBy_eq]
  refine Ends.query (fun incoming hin => ?_) fun e he => ⟨.refl, .nothing e d rfl rfl ?_⟩
  swap
  · rintro ⟨-, o, ho⟩
    rw [he] at ho
    exact absurd ho (by simp)
  obtain ⟨g, items, hg, hitems, hi, ha, hincoming, hnew⟩ := Forest.admitItem_eq_ok.mp hin
  obtain ⟨g', old, hg', ho, hm, hx, hs, hv⟩ := Forest.itemsOf_eq_ok.mp hitems
  obtain rfl := ok_unique hg hg'
  rw [ends_query_of_ok hs]
  have hP : ∀ c, item.node? = some c ∧ g.owns = true →
      item.node? = some c ∧ d.forest.ownsAt n p = true :=
    fun c hc => ⟨hc.1, Forest.ownsAt_iff.mpr ⟨g, hg, hc.2⟩⟩
  refine (bringIn_ends (N := ⟨n, p, .add, .null, item, some i, old.isSet⟩) (q := p)
    (w := (·.insertItem i item)) (g := g) hf hincoming hnew hs (by simp)
    (Notice.describes_insertItem hv) hrestore fun ws f₁ hl hs₁ hup hnone => ?_).mono
    fun r d' h => ⟨h.1, h.2.of_start rfl rfl (Nat.le_refl _) And.left hP⟩
  have hg₁ : f₁.feature n p = .ok g := hl.feature.trans hg
  have ha₁ : f₁.Accepts n p item := ha.of_types hl.schema fun m u hu => hl.typeOf.trans hu
  refine ⟨fun _ hc => ha₁.contains hc, ?_,
    (hl.sound hf).rewrite_insertItem hg₁ ho hm hx hs₁ hv hi ha₁ hup hnone, g, old, hg₁, hs₁, rfl⟩
  simp only [Tracking.movement, Forest.owned_item hg₁ hx ha₁, bind_ok, pure_eq_ok]

/-- **Inserting into mixed content.** -/
theorem insertMixedBy_ends {i : Nat} {member : PropertyId} (hf : d.forest.Sound strict)
    (hrestore : ∀ (ws : List Whereabouts) (d₁ : Document τ), d₁.forest.Sound strict →
      Chain strict d₁ (restore ws d₁).2) :
    (insertMixedBy restore n i member v).Ends d fun r d' => Chain strict d d' ∧
      Moving strict restore (fun c => v.node? = some c ∧ d.forest.ownsAt n member = true) d
        (strict ∧ ∃ o, d.forest.admitEntry n i member v = .ok o)
        (fun _ _ f₁ f' => ∃ h mixed old, f₁.feature n member = .ok h ∧ h.owner = some mixed ∧
          f₁.slot n mixed = .ok old ∧ f' = f₁.write n mixed (old.insertEntry i ⟨member, v⟩) []
            ((if h.owns then v.node?.toList else []).map (·, member))) r d' := by
  rw [insertMixedBy_eq]
  refine Ends.query (fun o hin => ?_) fun e he => ⟨.refl, .nothing e d rfl rfl ?_⟩
  swap
  · rintro ⟨-, o, ho⟩
    rw [he] at ho
    exact absurd ho (by simp)
  obtain ⟨mixed, incoming⟩ := o
  obtain ⟨h, entries, hh, hown, hes, hi, ha, hincoming, hnew⟩ := Forest.admitEntry_eq_ok.mp hin
  obtain ⟨old, hs, hv⟩ := Forest.sequence_eq_ok.mp hes
  have hshaped := hf.toTyped.shaped
  obtain ⟨g, hg, hx⟩ := hshaped.exists_mixed hh hown
  have hm := hshaped.many_of_mixed hg hx
  have ho := hshaped.owner_of_mixed hg hx
  simp only
  rw [ends_query_of_ok hs]
  have hP : ∀ c, v.node? = some c ∧ h.owns = true →
      v.node? = some c ∧ d.forest.ownsAt n member = true :=
    fun c hc => ⟨hc.1, Forest.ownsAt_iff.mpr ⟨h, hh, hc.2⟩⟩
  refine (bringIn_ends (N := ⟨n, mixed, .add, .null, .mixed [⟨member, v⟩], some i, old.isSet⟩)
    (q := member) (w := (·.insertEntry i ⟨member, v⟩)) (g := g) hf hincoming hnew hs (by simp)
    (Notice.describes_insertEntry hv) hrestore fun ws f₁ hl hs₁ hup hnone => ?_).mono
    fun r d' h => ⟨h.1, h.2.of_start rfl rfl (Nat.le_refl _) And.left hP⟩
  -- Releases change neither types nor features, so the entry is accepted still.
  have hg₁ : f₁.feature n mixed = .ok g := hl.feature.trans hg
  have hh₁ : f₁.feature n member = .ok h := hl.feature.trans hh
  have ha₁ : f₁.Accepts n member v := ha.of_types hl.schema fun m u hu => hl.typeOf.trans hu
  refine ⟨fun _ hc => ha₁.contains hc, ?_, (hl.sound hf).rewrite_insertEntry (e := ⟨member, v⟩)
    hg₁ ho hm hx hs₁ hv hh₁ hi hown ha₁ hup hnone, h, mixed, old, hh₁, hown, hs₁, rfl⟩
  simp only [Tracking.movement, Forest.owned_entry (e := ⟨member, v⟩) hg₁ hx hh₁, bind_ok,
    pure_eq_ok]

/-! ## Putting children back -/

/-- Puts one child back. -/
def reinsert (restore : List Whereabouts → Edit τ Unit) (w : Whereabouts) : Edit τ Unit :=
  match w.position with
  | .mixed i => insertMixedBy restore w.place.container i w.place.property (.node w.child)
  | .listed i => insertBy restore w.place.container w.place.property i (.node w.child)
  | .single => setBy restore w.place.container w.place.property (.node w.child)

theorem putBack_succ (depth : Nat) (ws : List Whereabouts) :
    (putBack (depth + 1) ws : Edit τ Unit) = ws.reverse.forM (reinsert (putBack depth)) := rfl

theorem reinsert_ends {w : Whereabouts} (hf : d.forest.Sound strict)
    (hrestore : ∀ (ws : List Whereabouts) (d₁ : Document τ), d₁.forest.Sound strict →
      Chain strict d₁ (restore ws d₁).2) :
    (reinsert restore w).Ends d fun _ d' => Chain strict d d' := by
  unfold reinsert
  cases w.position with
  | mixed i => exact (insertMixedBy_ends hf hrestore).mono fun _ _ h => h.1
  | listed i => exact (insertBy_ends hf hrestore).mono fun _ _ h => h.1
  | single => exact (setBy_ends hf hrestore).mono fun _ _ h => (h fun _ _ => not_overlooks rfl).1

theorem forM_reinsert_chain
    (hrestore : ∀ (ws : List Whereabouts) (d₁ : Document τ), d₁.forest.Sound strict →
      Chain strict d₁ (restore ws d₁).2) (ws : List Whereabouts) (hf : d.forest.Sound strict) :
    Chain strict d (ws.forM (reinsert restore) d).2 := by
  suffices h : (ws.forM (reinsert restore)).Ends d fun _ d' => Chain strict d d' from h
  induction ws generalizing d with
  | nil => exact .refl
  | cons w ws ih =>
    refine Ends.bind (reinsert_ends hf hrestore) (fun _ d₁ h => ?_) fun _ d₁ h => h
    exact (ih (h.sound hf)).mono fun _ _ h' => h.trans h'

/-- **Putting children back goes in steps**, however it ends. -/
theorem putBack_chain (depth : Nat) (ws : List Whereabouts) (d : Document τ)
    (hf : d.forest.Sound strict) : Chain strict d (putBack depth ws d).2 := by
  induction depth generalizing ws d with
  | zero => exact .refl
  | succ depth ih =>
    rw [putBack_succ]
    exact forM_reinsert_chain ih ws.reverse hf

end Edit

/-! ## Every edit -/

/-- The edit overlooks a child. Only setting does. -/
def Mutation.Overlooks (f : Forest) : Mutation → Prop
  | .set n p v => f.Overlooks n p v
  | _ => False

/-- **Every edit goes in steps**, however it ends. -/
theorem Mutation.chain (m : Mutation) (hf : d.forest.Sound strict)
    (hover : strict → (∃ a, (m.run d).1 = .ok a) → ¬ m.Overlooks d.forest) : Chain strict d (m.run d).2 := by
  have hput : ∀ (ws : List Whereabouts) (d₁ : Document τ), d₁.forest.Sound strict →
      Chain strict d₁ (Edit.putBack Edit.restoreDepth ws d₁).2 :=
    fun ws d₁ hf₁ => Edit.putBack_chain _ ws d₁ hf₁
  have hcreate : ∀ t, (Edit.createOf t : Edit τ NodeId).Ends d fun _ d' => Chain strict d d' := by
    intro t
    rcases h : d.forest.create t with e | ⟨n, f⟩
    · have heq : Edit.createOf t d = (.error e, d) := by simp only [Edit.createOf, h]
      exact .of_eq heq .refl
    · have heq : Edit.createOf t d = (.ok n, { d with forest := f }) := by
        simp only [Edit.createOf, h]
      exact .of_eq heq (Step.created d t n f h).chain
  have hinsert : ∀ n p i item,
      (Edit.insert n p i item : Edit τ Unit).Ends d fun _ d' => Chain strict d d' :=
    fun n p i item => (Edit.insertBy_ends hf hput).mono fun _ _ h => h.1
  have hinsertMixed : ∀ n i p v,
      (Edit.insertMixed n i p v : Edit τ Unit).Ends d fun _ d' => Chain strict d d' :=
    fun n i p v => (Edit.insertMixedBy_ends hf hput).mono fun _ _ h => h.1
  -- Only a value that is set may overlook a child.
  suffices h : m.run.Ends d fun r d' =>
      (strict → (∃ a, r = .ok a) → ¬ m.Overlooks d.forest) → Chain strict d d' from h hover
  cases m with
  | create typeName =>
    refine Edit.Ends.bind (R := fun _ d' => Chain strict d d') ?_ (fun _ _ h _ => h) fun _ _ h _ => h
    exact Edit.Ends.query (fun t _ => hcreate t) fun _ _ => .refl
  | createOf t => exact Edit.Ends.bind (hcreate t) (fun _ _ h _ => h) fun _ _ h _ => h
  | set n p v =>
    exact Edit.Ends.bind (Edit.setBy_ends hf hput)
      (fun _ _ h hok => (h fun hs _ => hok hs ⟨_, rfl⟩).1)
      fun _ _ h hok => (h fun hs hr => absurd hr.choose_spec (by simp)).1
  | unset n p => exact Edit.Ends.bind (Edit.unset_ends hf) (fun _ _ h _ => h.1) fun _ _ h _ => h.1
  | add n p item =>
    refine Edit.Ends.bind (R := fun _ d' => Chain strict d d') ?_ (fun _ _ h _ => h) fun _ _ h _ => h
    exact Edit.Ends.query (fun _ _ => hinsert ..) fun _ _ => .refl
  | insert n p i item => exact Edit.Ends.bind (hinsert ..) (fun _ _ h _ => h) fun _ _ h _ => h
  | remove n p i => exact Edit.Ends.bind (Edit.remove_ends hf) (fun _ _ h _ => h.1) fun _ _ h _ => h.1
  | move n p i j => exact Edit.Ends.bind (Edit.move_ends hf) (fun _ _ h _ => h.1) fun _ _ h _ => h.1
  | addMixed n p v =>
    refine Edit.Ends.bind (R := fun _ d' => Chain strict d d') ?_ (fun _ _ h _ => h) fun _ _ h _ => h
    refine Edit.Ends.query (fun _ _ => ?_) fun _ _ => .refl
    exact Edit.Ends.query (fun _ _ => hinsertMixed ..) fun _ _ => .refl
  | insertMixed n i p v => exact Edit.Ends.bind (hinsertMixed ..) (fun _ _ h _ => h) fun _ _ h _ => h
  | removeMixed n i =>
    exact Edit.Ends.bind (Edit.removeMixed_ends hf) (fun _ _ h _ => h.1) fun _ _ h _ => h.1
  | detach n =>
    refine Edit.Ends.bind (R := fun _ d' => Chain strict d d') ?_ (fun _ _ h _ => h) fun _ _ h _ => h
    exact Edit.Ends.bind (Edit.release_ends hf n) (fun _ _ h => h.1) fun _ _ h => h.1

end TrackedGraph
