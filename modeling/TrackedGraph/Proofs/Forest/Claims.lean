/-
The children that a value makes.

The library computes the children of a value as a list of nodes, `owned`. Where a
child sits is a node and a property, and in mixed content the property differs from
entry to entry, so the proofs work with pairs: `claims` lists each child with the
property it would sit under. Everything here is about one value in one slot; which
value a slot holds is of no concern yet.
-/
import TrackedGraph.Proofs.Forest.Write
import Mathlib.Data.List.Forall2

set_option autoImplicit false

namespace TrackedGraph

/-- Mapping a list succeeds when every element is mapped. -/
theorem mapM_eq_ok {ε α β : Type} {k : α → Except ε β} {l : List α} {bs : List β} :
    l.mapM k = .ok bs ↔ List.Forall₂ (fun a b => k a = .ok b) l bs := by
  induction l generalizing bs with
  | nil =>
    rw [List.mapM_nil, pure_eq_ok, Except.ok.injEq, List.forall₂_nil_left_iff]
    exact eq_comm
  | cons a l ih =>
    simp only [List.mapM_cons, bind_eq_ok, pure_eq_ok, Except.ok.injEq, ih,
      List.forall₂_cons_left_iff]
    constructor
    · rintro ⟨b, hb, bs', hbs, rfl⟩
      exact ⟨b, bs', hb, hbs, rfl⟩
    · rintro ⟨b, bs', hb, hbs, rfl⟩
      exact ⟨b, hb, bs', hbs, rfl⟩

theorem exists_mapM_eq_ok {ε α β : Type} {k : α → Except ε β} {l : List α}
    (h : ∀ a ∈ l, ∃ b, k a = .ok b) : ∃ bs, l.mapM k = .ok bs := by
  induction l with
  | nil => exact ⟨[], rfl⟩
  | cons a l ih =>
    obtain ⟨b, hb⟩ := h a List.mem_cons_self
    obtain ⟨bs, hbs⟩ := ih fun a ha => h a (List.mem_cons_of_mem _ ha)
    exact ⟨b :: bs, mapM_eq_ok.mpr (.cons hb (mapM_eq_ok.mp hbs))⟩

theorem exists_of_mapM_eq_ok {ε α β : Type} {k : α → Except ε β} {l : List α} {bs : List β}
    (h : l.mapM k = .ok bs) : ∀ a ∈ l, ∃ b, k a = .ok b := by
  rw [mapM_eq_ok] at h
  induction h with
  | nil => exact fun a ha => absurd ha (by simp)
  | cons hab _ ih => exact List.forall_mem_cons.mpr ⟨⟨_, hab⟩, ih⟩

theorem mapM_eq_map {ε α β : Type} {k : α → Except ε β} {g : α → β} {l : List α}
    (h : ∀ a ∈ l, k a = .ok (g a)) : l.mapM k = .ok (l.map g) := by
  rw [mapM_eq_ok, List.forall₂_map_right_iff, List.forall₂_same]
  exact h

/-- A property that owns the nodes it refers to is no mixed content. -/
theorem Property.not_mixed_of_owns {p : Property} (h : p.owns = true) : p.isMixed = false := by
  simp only [Property.owns, Property.isMixed, beq_iff_eq] at h ⊢
  rw [h]
  rfl

namespace Forest

variable {f : Forest} {n c : NodeId} {p q : PropertyId} {v : Value}

/-- Whether a property of a node owns what it refers to. -/
def ownsAt (f : Forest) (n : NodeId) (q : PropertyId) : Bool :=
  match f.feature n q with
  | .ok g => g.owns
  | .error _ => false

theorem ownsAt_iff : f.ownsAt n q = true ↔ ∃ g, f.feature n q = .ok g ∧ g.owns = true := by
  unfold ownsAt
  cases f.feature n q <;> simp

/-- The child that an entry of mixed content makes, with its property. -/
def entryClaim (f : Forest) (n : NodeId) (e : Entry Value) : Option (NodeId × PropertyId) :=
  if f.ownsAt n e.property then e.value.node?.map (·, e.property) else none

/-- **The children that a value makes** in the slot of a property, each with the
property that it would sit under. -/
def claims (f : Forest) (n : NodeId) (p : PropertyId) (v : Value) : List (NodeId × PropertyId) :=
  match f.feature n p with
  | .error _ => []
  | .ok g =>
    match g.role with
    | .containment => v.nodes.map (·, p)
    | .mixed => v.entries.filterMap (f.entryClaim n)
    | _ => []

theorem entryClaim_of_feature {e : Entry Value} {h : Feature} (hh : f.feature n e.property = .ok h) :
    f.entryClaim n e = if h.owns then e.value.node?.map (·, e.property) else none := by
  unfold entryClaim ownsAt
  rw [hh]

theorem entryClaim_eq_some {e : Entry Value} :
    f.entryClaim n e = some (c, q) ↔
      e.property = q ∧ e.value.node? = some c ∧ f.ownsAt n q = true := by
  unfold entryClaim
  by_cases h : f.ownsAt n e.property = true
  · rw [if_pos h]
    simp only [Option.map_eq_some_iff, Prod.mk.injEq]
    constructor
    · rintro ⟨_, hc, rfl, rfl⟩
      exact ⟨rfl, hc, h⟩
    · rintro ⟨rfl, hc, -⟩
      exact ⟨c, hc, rfl, rfl⟩
  · rw [if_neg h]
    constructor
    · intro hn
      exact absurd hn (by simp)
    · rintro ⟨rfl, -, ho⟩
      exact absurd ho h

theorem claims_of_containment {g : Feature} (hg : f.feature n p = .ok g) (ho : g.owns = true) :
    f.claims n p v = v.nodes.map (·, p) := by
  unfold claims
  rw [hg]
  have : g.role = .containment := by simpa [Property.owns] using ho
  simp only [this]

theorem claims_of_mixed {g : Feature} (hg : f.feature n p = .ok g) (hm : g.isMixed = true) :
    f.claims n p v = v.entries.filterMap (f.entryClaim n) := by
  unfold claims
  rw [hg]
  have : g.role = .mixed := by simpa [Property.isMixed] using hm
  simp only [this]

theorem claims_of_plain {g : Feature} (hg : f.feature n p = .ok g) (ho : g.owns = false)
    (hm : g.isMixed = false) : f.claims n p v = [] := by
  unfold claims
  rw [hg]
  cases hr : g.role with
  | containment => simp [Property.owns, hr] at ho
  | mixed => simp [Property.isMixed, hr] at hm
  | _ => simp only [hr]

theorem mem_claims : (c, q) ∈ f.claims n p v ↔ ∃ g, f.feature n p = .ok g ∧
    (g.owns = true ∧ q = p ∧ c ∈ v.nodes ∨
      g.isMixed = true ∧ f.ownsAt n q = true ∧
        ∃ e ∈ v.entries, e.property = q ∧ e.value.node? = some c) := by
  cases hg : f.feature n p with
  | error e => simp [claims, hg]
  | ok g =>
    simp only [Except.ok.injEq, exists_eq_left']
    cases ho : g.owns with
    | true =>
      have hm := Property.not_mixed_of_owns ho
      simp only [claims_of_containment hg ho, hm, List.mem_map, Prod.mk.injEq]
      constructor
      · rintro ⟨_, hc, rfl, rfl⟩
        exact .inl ⟨trivial, rfl, hc⟩
      · rintro (⟨-, rfl, hc⟩ | ⟨h, -⟩)
        · exact ⟨c, hc, rfl, rfl⟩
        · exact absurd h (by simp)
    | false =>
      cases hm : g.isMixed with
      | true =>
        simp only [claims_of_mixed hg hm, List.mem_filterMap, entryClaim_eq_some]
        constructor
        · rintro ⟨e, he, hq, hc, hown⟩
          exact .inr ⟨trivial, hown, e, he, hq, hc⟩
        · rintro (⟨h, -⟩ | ⟨-, hown, e, he, hq, hc⟩)
          · exact absurd h (by simp)
          · exact ⟨e, he, hq, hc, hown⟩
      | false => simp [claims_of_plain hg ho hm]

/-- What a value claims is claimed under properties that own. -/
theorem ownsAt_of_mem_claims (h : (c, q) ∈ f.claims n p v) : f.ownsAt n q = true := by
  obtain ⟨g, hg, ⟨ho, rfl, -⟩ | ⟨-, ho, -⟩⟩ := mem_claims.mp h
  · exact ownsAt_iff.mpr ⟨g, hg, ho⟩
  · exact ho

/-- Every child is a node of the value. -/
theorem mem_nodes_of_mem_claims (h : (c, q) ∈ f.claims n p v) : c ∈ v.nodes := by
  obtain ⟨g, -, ⟨-, -, hc⟩ | ⟨-, -, e, he, -, hc⟩⟩ := mem_claims.mp h
  · exact hc
  · cases v with
    | mixed entries => exact List.mem_filterMap.mpr ⟨e, he, hc⟩
    | _ => exact absurd he (by simp [Value.entries, Value.mixed?])

theorem claims_congr {f' : Forest} (h : ∀ q, f'.feature n q = f.feature n q) :
    f'.claims n p v = f.claims n p v := by
  have hown : ∀ q, f'.ownsAt n q = f.ownsAt n q := fun q => by unfold ownsAt; rw [h]
  have hentry : f'.entryClaim n = f.entryClaim n :=
    funext fun e => by unfold entryClaim; rw [hown]
  unfold claims
  rw [h, hentry]

@[simp] theorem claims_write {m : NodeId} {r : PropertyId} {s : Slot} {freed : List NodeId}
    {taken : List (NodeId × PropertyId)} :
    (f.write m r s freed taken).claims n p v = f.claims n p v :=
  claims_congr fun _ => feature_write

/-- **The library's list of children is that of `claims`.** -/
theorem owned_eq_claims {cs : List NodeId} (h : f.owned n p v = .ok cs) :
    cs = (f.claims n p v).map Prod.fst := by
  simp only [owned, bind_eq_ok] at h
  obtain ⟨t, ht, g, hg, h⟩ := h
  have hfeature : f.feature n p = .ok g := feature_eq_ok.mpr ⟨t, ht, hg⟩
  cases hr : g.role with
  | containment =>
    rw [claims_of_containment hfeature (by simp [Property.owns, hr]), List.map_map]
    simp only [hr, pure_eq_ok, Except.ok.injEq] at h
    rw [← h]
    exact (List.map_id _).symm
  | mixed =>
    rw [claims_of_mixed hfeature (by simp [Property.isMixed, hr])]
    simp only [hr, bind_eq_ok, pure_eq_ok, Except.ok.injEq] at h
    obtain ⟨children, hc, rfl⟩ := h
    rw [mapM_eq_ok] at hc
    generalize v.entries = entries at hc ⊢
    -- Entry by entry, as the members are looked up.
    induction hc with
    | nil => rfl
    | @cons e _ _ _ he _ ih =>
      obtain ⟨member, hm, hb⟩ := bind_eq_ok.mp he
      obtain rfl := Except.ok.inj hb
      have hown : f.ownsAt n e.property = member.owns := by
        unfold ownsAt
        rw [feature_eq_ok.mpr ⟨t, ht, hm⟩]
      rw [List.filterMap_cons, List.filterMap_cons, entryClaim, hown]
      cases member.owns with
      | false => exact ih
      | true =>
        cases e.value.node? with
        | none => exact ih
        | some c => exact congrArg (c :: ·) ih
  | _ =>
    rw [claims_of_plain hfeature (by simp [Property.owns, hr]) (by simp [Property.isMixed, hr])]
    simpa [hr] using h.symm

end Forest

end TrackedGraph
