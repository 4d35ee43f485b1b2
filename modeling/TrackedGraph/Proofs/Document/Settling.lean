/-
What edits come to.

In an orderly forest it is known beforehand what an edit that takes children in will come to:
each child is released from where it sits, and the slot and the places are written. It comes to
that unless somebody refuses, and then it fails (`Edit.Settles`). So an edit that succeeds has
done just this, and one that was admitted and met no refusal has succeeded. A refusal counts for
good: putting children back may be refused too, but takes no refusal back (`Edit.Sustains`).

Defaults may be anything here. What the forest is after a release is `Forest.without`.
-/
import TrackedGraph.Proofs.Document.Consenting
import TrackedGraph.Proofs.Document.Shaping
import TrackedGraph.Proofs.Forest.Without

set_option autoImplicit false

namespace TrackedGraph

open Forest (GrownFrom)

variable {τ α β : Type} {d d' : Document τ} {n c : NodeId} {p q : PropertyId} {g : Feature}
  {s : Slot} {v : Value} {a : α} {b : β} {f f' : Forest} {N : Notice}

/-- The forests of a document may be any, but refusals are never taken back. -/
theorem Document.unison_atLeast (k : Nat) :
    Document.Unison fun d e : Document τ => e = d ∧ k ≤ d.refusals where
  forest := by
    rintro d _ ⟨rfl, -⟩
    rfl
  refusals := by
    rintro d _ ⟨rfl, -⟩
    rfl
  poll := by
    rintro _ d ⟨rfl, hk⟩ - N - -
    refine ⟨rfl, rfl, ?_⟩
    rw [refusals_poll]
    exact Nat.le_add_right_of_le hk
  announce := by
    rintro _ d ⟨rfl, hk⟩ - N - -
    refine ⟨rfl, rfl, ?_⟩
    rw [refusals_announce]
    exact Nat.le_add_right_of_le hk
  write := by
    rintro _ d ⟨rfl, hk⟩ f
    exact ⟨rfl, hk⟩
  advance := by
    rintro _ d ⟨rfl, hk⟩
    exact ⟨rfl, hk⟩
  count := by
    rintro d _ ⟨rfl, -⟩ d₁ _ ⟨rfl, hk⟩ i _ rfl
    exact ⟨rfl, hk⟩

namespace Edit

variable {x : Edit τ α} {k : α → Edit τ β}

/-- What can be planned stays so, and no refusal is taken back. -/
def Sustains (x : Edit τ α) : Prop :=
  ∀ d, d.forest.Aligned → (x d).2.forest.Aligned ∧ d.refusals ≤ (x d).2.refusals

theorem sustains_putBack (depth : Nat) (ws : List Whereabouts) :
    Sustains (putBack depth ws : Edit τ Unit) := by
  intro d hf
  have halike : Alike _ d.forest (putBack depth ws : Edit τ Unit) :=
    .putBack (Document.unison_atLeast d.refusals) depth ws
  obtain ⟨⟨-, -, hle⟩, haligned, -⟩ := halike d d ⟨rfl, Nat.le_refl _⟩ hf (.refl _)
  exact ⟨haligned, hle⟩

/-- **The edit leaves the forest given**, unless somebody refuses. -/
def Settles (x : Edit τ α) (d : Document τ) (f : Forest) : Prop :=
  x.Ends d fun r d' =>
    (∃ a, r = .ok a) ∧ d'.forest = f ∧ d'.refusals = d.refusals ∨
      (∃ e, r = .error e) ∧ d.refusals < d'.refusals ∧ d'.forest.Aligned

namespace Settles

/-! ## Rules -/

theorem of_apply {a : α} (h : x d = (.ok a, d')) (hf : d'.forest = f)
    (hr : d'.refusals = d.refusals) : x.Settles d f :=
  .of_eq h (.inl ⟨⟨a, rfl⟩, hf, hr⟩)

theorem pure {a : α} (hf : d.forest = f) : (pure a : Edit τ α).Settles d f := of_apply rfl hf rfl

theorem bind (hx : x.Settles d f) (hk : ∀ a d', d'.forest = f → (k a).Settles d' f') :
    (x >>= k).Settles d f' := by
  refine Ends.bind hx ?_ ?_
  · rintro a d' (⟨-, hf, hr⟩ | ⟨⟨e, he⟩, -⟩)
    · refine (hk a d' hf).mono fun r d'' h => ?_
      rwa [hr] at h
    · exact absurd he (by simp)
  · rintro e d' (⟨⟨a, ha⟩, -⟩ | ⟨-, hlt, hf⟩)
    · exact absurd ha (by simp)
    · exact .inr ⟨⟨e, rfl⟩, hlt, hf⟩

theorem bind_query {q : Forest → Except Fault α} {a : α} (hq : q d.forest = .ok a)
    (hk : (k a).Settles d f) : (query q >>= k).Settles d f :=
  (ends_query_of_ok hq).mpr hk

theorem mending {repair : Edit τ Unit} (hx : x.Settles d f) (hr : Sustains repair) :
    (x.mending repair).Settles d f := by
  refine Ends.mending (fun b d' h => h.imp_left fun h => ⟨⟨b, rfl⟩, h.2⟩) ?_ hx
  rintro e d' (⟨⟨a, ha⟩, -⟩ | ⟨-, hlt, hf⟩)
  · exact absurd ha (by simp)
  · obtain ⟨hf', hle⟩ := hr d' hf
    exact .inr ⟨⟨e, rfl⟩, Nat.lt_of_lt_of_le hlt hle, hf'⟩

theorem poll (hf : d.forest.Aligned) : (Edit.poll N).Settles d d.forest := by
  show _ ∨ _
  rw [refusals_poll, forest_poll]
  rcases h : (Edit.poll N d).1 with e | ⟨⟩
  · exact .inr ⟨⟨e, rfl⟩, by simp, hf⟩
  · exact .inl ⟨⟨(), rfl⟩, rfl, by simp⟩

theorem announce (hf : d.forest.Aligned) : (Edit.announce N).Settles d d.forest := by
  show _ ∨ _
  rw [refusals_announce, forest_announce]
  rcases h : (Edit.announce N d).1 with e | ⟨⟩
  · exact .inr ⟨⟨e, rfl⟩, by simp, hf⟩
  · exact .inl ⟨⟨(), rfl⟩, rfl, by simp⟩

/-! ## What is known in the end -/

/-- **An edit that succeeds** has left the forest that was foreseen. -/
theorem of_ok (h : x.Settles d f) {a : α} (ha : (x d).1 = .ok a) : (x d).2.forest = f := by
  rcases h with ⟨-, hf, -⟩ | ⟨⟨e, he⟩, -⟩
  · exact hf
  · exact absurd (ha.symm.trans he) (by simp)

/-- **An edit that met no refusal** has succeeded. -/
theorem of_unrefused (h : x.Settles d f) (hr : (x d).2.refusals = d.refusals) :
    ∃ a, (x d).1 = .ok a := by
  rcases h with ⟨ha, -, -⟩ | ⟨-, hlt, -⟩
  · exact ha
  · exact absurd hr (Nat.ne_of_gt hlt)

/-- **Where nobody refuses**, an edit succeeds exactly if it is admitted. -/
theorem ok_iff {x : Edit τ Unit} {P : Prop} (hP : (x d).1 = .ok () → P)
    (h : P → x.Settles d f) (hr : (x d).2.refusals = d.refusals) : (x d).1 = .ok () ↔ P :=
  ⟨hP, fun hp => ((h hp).of_unrefused hr).choose_spec⟩

/-! ## Releasing -/

section releasing

variable {w : Whereabouts} {host : PropertyId} {m : NodeId}

/-- The end of a removal takes the child out of its slot, which loses no other. -/
theorem takeOut {a : α} {k : Feature} {d₁ : Document τ} (h : d.forest.Found w host g s)
    (hk : d.forest.feature w.place.container w.place.property = .ok k) (hown : k.owns = true)
    (hlosing : s.losing w.child w.position = [w.child]) (hd : d₁.forest = d.forest) : Settles (do
      if (← query (·.feature w.place.container w.place.property)).owns then
        unlink (Value.node w.child).node?.toList
      modifySlot w.place.container host (·.without w.position)
      advance
      return a : Edit τ α) d₁ (d.forest.without w.child) := by
  rw [← hd] at hk
  refine of_apply (takeOut_apply hk (hd ▸ h.slot) ?_) ?_ rfl
  · rintro _ hc
    obtain rfl := Option.some.inj hc
    rw [hd]
    exact Forest.contains_of_place h.place
  · rw [h.without_eq, hlosing, if_pos hown, hd]
    rfl

/-- Taking a child out of mixed content. -/
theorem removeMixed {i : Nat} (hf : d.forest.Orderly)
    (h : d.forest.Found ⟨c, ⟨m, q⟩, .mixed i⟩ host g s) :
    (Edit.removeMixed m i : Edit τ (Entry Value)).Settles d (d.forest.without c) := by
  obtain ⟨k, hk, hown, -, hg, -⟩ := h.hosts
  obtain ⟨t, ht, hgt⟩ := Forest.feature_eq_ok.mp hg
  obtain ⟨entries, hv, hi⟩ := h.found
  have hmixed := (hf.shaped.coherent.mixed t host g hgt h.suits.2).2.2
  have hes : d.forest.sequence m host = .ok entries := Forest.sequence_eq_ok.mpr ⟨s, h.slot, hv⟩
  refine bind_query ht (bind_query (a := host) (by simp only [hmixed]) (bind_query hes ?_))
  simp only [hi]
  exact bind (announce hf.shaped.aligned) fun _ _ hd =>
    takeOut (w := ⟨c, ⟨m, q⟩, .mixed i⟩) h hk hown rfl hd

/-- Taking a child out of a list. -/
theorem remove {i : Nat} (hf : d.forest.Orderly)
    (h : d.forest.Found ⟨c, ⟨m, q⟩, .listed i⟩ host g s) :
    (Edit.remove m q i : Edit τ Value).Settles d (d.forest.without c) := by
  obtain ⟨rfl, hown⟩ := h.hosts.of_not_mixed hf.shaped h.suits.2
  have hg := h.hosts.host_feature
  obtain ⟨items, hv, hi⟩ := h.found
  have hitems : d.forest.itemsOf m host = .ok items :=
    Forest.itemsOf_eq_ok.mpr ⟨g, s, hg, h.hosts.direct, h.suits.1, h.suits.2, h.slot, hv⟩
  refine bind_query hitems ?_
  simp only [hi]
  exact bind (announce hf.shaped.aligned) fun _ _ hd =>
    takeOut (w := ⟨c, ⟨m, host⟩, .listed i⟩) h hg hown rfl hd

/-- Writing a value that fits. -/
theorem overwrite {isSet : Bool} (hf : d.forest.Orderly) (hg : d.forest.feature n p = .ok g)
    (ho : g.owner = none) (hs : d.forest.slot n p = .ok s) (h : d.forest.Fits n p g v) :
    (Edit.overwrite n p v isSet : Edit τ Unit).Settles d (d.forest.write n p ⟨v, isSet⟩
      (d.forest.lostChildren n p s.value v) (d.forest.claims n p v)) :=
  of_apply (overwrite_apply hf.shaped hg ho hs (fun x hx =>
    Forest.contains_of_place (hf.linked.placed n p s x.1 x.2 hs hx)) h) rfl rfl

/-- **Replacing a value** that is admitted, given what the forest is once the children that come
in are released. The slot has to be as it was then. -/
theorem replace {release : List NodeId → Edit τ (List Whereabouts)}
    {restore : List Whereabouts → Edit τ Unit} {cs : List NodeId} {f₁ : Forest}
    (hf : d.forest.Aligned) (hcs : d.forest.admitValue n p v = .ok cs)
    (hg : d.forest.feature n p = .ok g) (hs : d.forest.slot n p = .ok s)
    (hrelease : ∀ d₁ : Document τ, d₁.forest = d.forest → (release cs).Settles d₁ f₁)
    (hgrown : GrownFrom d.forest f₁) (hf₁ : f₁.Orderly) (hs₁ : f₁.slot n p = .ok s)
    (hrestore : ∀ ws, Sustains (restore ws)) :
    (Edit.replace release restore n p v).Settles d (f₁.write n p ⟨v, !g.many || !v.isEmpty⟩
      (f₁.lostChildren n p s.value v) (f₁.claims n p v)) := by
  obtain ⟨g', hg', ho, hfits, -⟩ := Forest.admitValue_eq_ok.mp hcs
  obtain rfl := ok_unique hg hg'
  refine bind_query hcs (bind_query hs (bind (poll hf) fun _ d₁ hd₁ => ?_))
  refine bind (hrelease d₁ hd₁) fun ws d₂ hd₂ => ?_
  have hannounced := announce (N := ⟨n, p, .set, s.value, v, none, s.isSet⟩)
    (hd₂ ▸ hf₁.shaped.aligned)
  refine bind (mending hannounced (hrestore ws)) fun _ d₃ hd₃ => ?_
  obtain rfl : d₃.forest = f₁ := hd₃.trans hd₂
  have hg₃ := hgrown.feature hg
  exact bind_query hg₃ (overwrite hf₁ hg₃ ho hs₁ (hfits.of_types hgrown.schema hgrown.typeOf))

/-- **Releasing a child** from where it sits, if it sits anywhere. -/
theorem release (hf : d.forest.Orderly) (c : NodeId) :
    (Edit.release c : Edit τ (List Whereabouts)).Settles d (d.forest.without c) := by
  cases hp : d.forest.place? c with
  | none =>
    have hw : d.forest.whereabouts c = .ok none := by
      unfold Forest.whereabouts
      rw [hp]
      rfl
    rw [Forest.without_of_none hp]
    exact bind_query hw (pure rfl)
  | some place =>
    obtain ⟨w, host, g, s, rfl, -, h⟩ := hf.exists_found hp
    refine bind_query h.whereabouts ?_
    obtain ⟨c, ⟨m, q⟩, position⟩ := w
    cases position with
    | mixed i => exact bind (removeMixed hf h) fun _ _ => pure
    | listed i => exact bind (remove hf h) fun _ _ => pure
    | single =>
      -- A single value is replaced by null, which brings no child and so releases none.
      obtain ⟨hhost, hown⟩ := h.hosts.of_not_mixed hf.shaped h.suits.2
      obtain rfl : host = q := hhost
      have hg := h.hosts.host_feature
      refine bind (replace hf.shaped.aligned
        (Forest.admitValue_null hg h.hosts.direct h.suits.1 h.suits.2) hg h.slot (fun d₁ => pure)
        (.refl _) hf h.slot fun _ d₁ hd₁ => ⟨hd₁, Nat.le_refl _⟩) fun _ _ hd' => pure ?_
      rw [hd', h.without_eq, Forest.lostChildren_of_nil Forest.claims_null, Forest.claims_null,
        Forest.claims_of_containment hg hown, List.map_map, h.suits.1]
      exact congrArg (Forest.write _ _ _ _ · []) (List.map_id s.value.nodes)

/-- Releasing the children that are not in the slot already. -/
theorem releaseAll {depth : Nat} {here cs : List NodeId} {moved : List Whereabouts}
    (hf : d.forest.Orderly) : (Edit.releaseAll (putBack depth) here moved cs).Settles d
      (d.forest.withoutAll (cs.filter (!here.contains ·))) := by
  induction cs generalizing d moved with
  | nil => exact pure rfl
  | cons c cs ih =>
    unfold Edit.releaseAll
    cases hc : here.contains c with
    | true =>
      rw [if_pos rfl, List.filter_cons_of_neg (by rw [hc]; simp)]
      exact ih hf
    | false =>
      rw [if_neg Bool.false_ne_true, List.filter_cons_of_pos (by rw [hc]; rfl)]
      refine bind (mending (release hf c) (sustains_putBack _ _)) fun placed d₁ hd₁ => ?_
      rw [Forest.withoutAll_cons, ← hd₁]
      exact ih (hd₁ ▸ hf.without c)

end releasing

/-! ## Insertions -/

/-- **An insertion** once it is admitted. The slot does not list the child that comes in. -/
theorem bringIn {depth : Nat} {incoming : Option NodeId} {w : Slot → Slot}
    (hf : d.forest.Orderly) (hs : d.forest.slot N.node N.property = .ok s)
    (hc : ∀ c, incoming = some c → d.forest.contains c = true ∧
      c ∉ (d.forest.claims N.node N.property s.value).map Prod.fst) :
    (Edit.bringIn (putBack depth) N incoming q w).Settles d
      ((d.forest.withoutAll incoming.toList).write N.node N.property (w s) []
        (incoming.toList.map (·, q))) := by
  -- The end is the same whether a child was released or not, and whatever is to be put back.
  have hend : ∀ moved (d₂ : Document τ), d₂.forest = d.forest.withoutAll incoming.toList → (do
      (Edit.announce N).mending (putBack depth moved)
      incoming.forM (Edit.setPlace · (some ⟨N.node, q⟩))
      Edit.modifySlot N.node N.property w
      Edit.advance : Edit τ Unit).Settles d₂ ((d.forest.withoutAll incoming.toList).write N.node
        N.property (w s) [] (incoming.toList.map (·, q))) := by
    intro moved d₂ hd₂
    have hf₂ := hf.withoutAll incoming.toList
    rw [← hd₂] at hf₂
    refine bind (mending (announce hf₂.shaped.aligned) (sustains_putBack _ _)) fun _ d₃ hd₃ => ?_
    have hd : d₃.forest = d.forest.withoutAll incoming.toList := hd₃.trans hd₂
    have hs₃ : d₃.forest.slot N.node N.property = .ok s := by
      rw [hd]
      cases incoming with
      | none => exact hs
      | some c => exact hf.slot_without hs (hc c rfl).2
    have htake : incoming.forM (fun c => Edit.setPlace c (some ⟨N.node, q⟩)) d₃ =
        (.ok (), { d₃ with forest := d₃.forest.take N.node (incoming.toList.map (·, q)) }) := by
      cases incoming with
      | none => rfl
      | some c =>
        refine setPlace_apply ?_
        rw [hd]
        exact Forest.contains_without.trans (hc c rfl).1
    refine of_apply ((bind_of_ok htake).trans (write_apply [] _ hs₃)) ?_ rfl
    show Forest.write d₃.forest _ _ _ _ _ = _
    rw [hd]
  refine bind (poll hf.shaped.aligned) fun _ d₁ hd₁ => ?_
  cases incoming with
  | none => exact bind (pure hd₁) hend
  | some c =>
    rw [← hd₁] at hf hend ⊢
    exact bind (release hf c) hend

/-- A child that is admitted exists, and the slot does not list it. -/
theorem comes_in {item : Value} {r : PropertyId} (hs : f.slot n p = .ok s)
    (ha : f.Accepts n r item) (hc : (if g.owns then item.node? else none) = some c)
    (hnew : f.requireNewcomer n p c = .ok ()) :
    f.contains c = true ∧ c ∉ (f.claims n p s.value).map Prod.fst := by
  obtain ⟨-, s', hs', hnot⟩ := Forest.requireNewcomer_eq_ok.mp hnew
  obtain rfl := ok_unique hs hs'
  refine ⟨?_, fun hin => ?_⟩
  · split at hc
    · exact ha.contains hc
    · exact absurd hc (by simp)
  · obtain ⟨⟨_, q⟩, hq, rfl⟩ := List.mem_map.mp hin
    exact hnot (Forest.mem_nodes_of_mem_claims hq)

/-- **Putting an item into a list**, if it is admitted. -/
theorem insert {i : Nat} {item : Value} {incoming : Option NodeId} (hf : d.forest.Orderly)
    (h : d.forest.admitItem n p i item = .ok incoming) (hs : d.forest.slot n p = .ok s) :
    (Edit.insert n p i item : Edit τ Unit).Settles d
      ((d.forest.withoutAll incoming.toList).write n p (s.insertItem i item) []
        (incoming.toList.map (·, p))) := by
  obtain ⟨g, items, -, -, -, ha, hin, hnew⟩ := Forest.admitItem_eq_ok.mp h
  unfold Edit.insert
  rw [insertBy_eq]
  refine bind_query h (bind_query hs (bringIn hf hs ?_))
  exact fun c hc => comes_in hs ha (hin ▸ hc) (hnew c hc)

/-- **Putting an entry into mixed content**, if it is admitted. -/
theorem insertMixed {i : Nat} {incoming : Option NodeId} (hf : d.forest.Orderly)
    (h : d.forest.admitEntry n i q v = .ok (p, incoming)) (hs : d.forest.slot n p = .ok s) :
    (Edit.insertMixed n i q v : Edit τ Unit).Settles d
      ((d.forest.withoutAll incoming.toList).write n p (s.insertEntry i ⟨q, v⟩) []
        (incoming.toList.map (·, q))) := by
  obtain ⟨g, entries, -, -, -, -, ha, hin, hnew⟩ := Forest.admitEntry_eq_ok.mp h
  unfold Edit.insertMixed
  rw [insertMixedBy_eq]
  refine bind_query h (bind_query hs (bringIn hf hs ?_))
  exact fun c hc => comes_in hs ha (hin ▸ hc) (hnew c hc)

/-! ## Replacing -/

/-- **Setting a value**, if it is admitted. What the slot holds already is not released. -/
theorem set {cs : List NodeId} (hf : d.forest.Orderly) (h : d.forest.admitValue n p v = .ok cs)
    (hg : d.forest.feature n p = .ok g) (hs : d.forest.slot n p = .ok s) :
    (Edit.set n p v : Edit τ Unit).Settles d
      ((d.forest.withoutAll (cs.filter (!s.value.nodes.contains ·))).write n p
        ⟨v, !g.many || !v.isEmpty⟩ (d.forest.lostChildren n p s.value v)
        (d.forest.claims n p v)) := by
  have hforeign : ∀ c ∈ cs.filter (!s.value.nodes.contains ·),
      c ∉ (d.forest.claims n p s.value).map Prod.fst := by
    intro c hc hin
    obtain ⟨⟨_, q⟩, hq, rfl⟩ := List.mem_map.mp hin
    have hnodes := Forest.mem_nodes_of_mem_claims hq
    simp only [List.mem_filter, List.contains_eq_mem, hnodes] at hc
    exact absurd hc.2 (by simp)
  have hrelease : ∀ d₁ : Document τ, d₁.forest = d.forest → Settles (do
      let slot ← query (·.slot n p)
      Edit.releaseAll (putBack restoreDepth) slot.value.nodes [] cs) d₁
        (d.forest.withoutAll (cs.filter (!s.value.nodes.contains ·))) :=
    fun d₁ hd₁ => bind_query (hd₁.symm ▸ hs) (hd₁ ▸ releaseAll (hd₁ ▸ hf))
  rw [← Forest.claims_withoutAll, ← Forest.lostChildren_withoutAll]
  exact replace hf.shaped.aligned h hg hs hrelease (Forest.grownFrom_withoutAll _)
    (hf.withoutAll _) (hf.slot_withoutAll hs hforeign) (sustains_putBack _)

/-- **Bringing the default back** where many values are held, which is to hold none. -/
theorem unset (hf : d.forest.Orderly) (hg : d.forest.feature n p = .ok g) (ho : g.owner = none)
    (hm : g.many = true) (hs : d.forest.slot n p = .ok s) :
    (Edit.unset n p : Edit τ Unit).Settles d (d.forest.write n p ⟨g.restValue, false⟩
      ((d.forest.claims n p s.value).map Prod.fst) []) := by
  refine bind_query hg ?_
  rw [ho]
  refine bind_query hs (bind (announce hf.shaped.aligned) fun _ d₁ hd₁ => ?_)
  rw [← hd₁] at hf hg hs ⊢
  have hnone := Forest.claims_restValue_of_many (f := d₁.forest) (n := n) (p := p) hm
  rw [← Forest.lostChildren_of_nil hnone, ← hnone]
  exact overwrite hf hg ho hs (Forest.fits_restValue_of_many hm)

end Settles

end Edit

end TrackedGraph
