/-
Values that agree.

Agreement in the domain is symmetric and transitive, and values that agree refer to the
same nodes in the same positions. It is not reflexive, since a NaN agrees with nothing.
A slot therefore `Matches` another one if it is the same or, where this is enough, if it
agrees with it; that is an equivalence.
-/
import TrackedGraph.Proofs.Forest.Claims

set_option autoImplicit false

namespace TrackedGraph

/-! ## Numbers -/

theorem Binary64.equals_symm {x y : Binary64} (h : x.equals y = true) : y.equals x = true := by
  simp only [Binary64.equals, Bool.and_eq_true, Bool.or_eq_true, beq_iff_eq] at h ⊢
  obtain ⟨⟨hx, hy⟩, heq | ⟨hzx, hzy⟩⟩ := h
  · exact ⟨⟨hy, hx⟩, .inl heq.symm⟩
  · exact ⟨⟨hy, hx⟩, .inr ⟨hzy, hzx⟩⟩

theorem Binary64.equals_trans {x y z : Binary64} (h : x.equals y = true)
    (h' : y.equals z = true) : x.equals z = true := by
  simp only [Binary64.equals, Bool.and_eq_true, Bool.or_eq_true, beq_iff_eq] at h h' ⊢
  obtain ⟨⟨hx, -⟩, h⟩ := h
  obtain ⟨⟨-, hz⟩, h'⟩ := h'
  refine ⟨⟨hx, hz⟩, ?_⟩
  rcases h with rfl | ⟨hzx, hzy⟩
  · exact h'
  · rcases h' with rfl | ⟨-, hzz⟩
    · exact .inr ⟨hzx, hzy⟩
    · exact .inr ⟨hzx, hzz⟩

namespace Value

variable {same : Binary64 → Binary64 → Bool}

/-! ## An equivalence -/

mutual

theorem agreesBy_symm (hs : ∀ x y, same x y = true → same y x = true) (a b : Value)
    (h : agreesBy same a b = true) : agreesBy same b a = true := by
  cases a <;> cases b <;> simp only [agreesBy, Bool.false_eq_true, beq_iff_eq] at h ⊢
  case bool.bool => exact h.symm
  case int.int => exact h.symm
  case float.float => exact hs _ _ h
  case str.str => exact h.symm
  case node.node => exact h.symm
  case list.list as bs => exact agreesItemsBy_symm hs as bs h
  case mixed.mixed as bs => exact agreesEntriesBy_symm hs as bs h

theorem agreesItemsBy_symm (hs : ∀ x y, same x y = true → same y x = true) (as bs : List Value)
    (h : agreesItemsBy same as bs = true) : agreesItemsBy same bs as = true := by
  cases as with
  | nil => cases bs <;> simp_all [agreesItemsBy]
  | cons a as =>
    cases bs with
    | nil => simp [agreesItemsBy] at h
    | cons b bs =>
      simp only [agreesItemsBy, Bool.and_eq_true] at h ⊢
      exact ⟨agreesBy_symm hs a b h.1, agreesItemsBy_symm hs as bs h.2⟩

theorem agreesEntriesBy_symm (hs : ∀ x y, same x y = true → same y x = true)
    (as bs : List (Entry Value)) (h : agreesEntriesBy same as bs = true) :
    agreesEntriesBy same bs as = true := by
  cases as with
  | nil => cases bs <;> simp_all [agreesEntriesBy]
  | cons a as =>
    cases bs with
    | nil => simp [agreesEntriesBy] at h
    | cons b bs =>
      obtain ⟨p, x⟩ := a
      obtain ⟨q, y⟩ := b
      simp only [agreesEntriesBy, Bool.and_eq_true, beq_iff_eq] at h ⊢
      exact ⟨⟨h.1.1.symm, agreesBy_symm hs x y h.1.2⟩, agreesEntriesBy_symm hs as bs h.2⟩

end

mutual

theorem agreesBy_trans (ht : ∀ x y z, same x y = true → same y z = true → same x z = true)
    (a b c : Value) (h : agreesBy same a b = true) (h' : agreesBy same b c = true) :
    agreesBy same a c = true := by
  cases a <;> cases b <;> simp only [agreesBy, Bool.false_eq_true, beq_iff_eq] at h <;>
    cases c <;> simp only [agreesBy, Bool.false_eq_true, beq_iff_eq] at h' ⊢
  case bool.bool.bool => exact h.trans h'
  case int.int.int => exact h.trans h'
  case float.float.float => exact ht _ _ _ h h'
  case str.str.str => exact h.trans h'
  case node.node.node => exact h.trans h'
  case list.list.list as bs cs => exact agreesItemsBy_trans ht as bs cs h h'
  case mixed.mixed.mixed as bs cs => exact agreesEntriesBy_trans ht as bs cs h h'
termination_by structural a

theorem agreesItemsBy_trans (ht : ∀ x y z, same x y = true → same y z = true → same x z = true)
    (as bs cs : List Value) (h : agreesItemsBy same as bs = true)
    (h' : agreesItemsBy same bs cs = true) : agreesItemsBy same as cs = true := by
  cases as with
  | nil => cases bs <;> cases cs <;> simp_all [agreesItemsBy]
  | cons a as =>
    cases bs with
    | nil => simp [agreesItemsBy] at h
    | cons b bs =>
      cases cs with
      | nil => simp [agreesItemsBy] at h'
      | cons c cs =>
        simp only [agreesItemsBy, Bool.and_eq_true] at h h' ⊢
        exact ⟨agreesBy_trans ht a b c h.1 h'.1, agreesItemsBy_trans ht as bs cs h.2 h'.2⟩
termination_by structural as

theorem agreesEntriesBy_trans (ht : ∀ x y z, same x y = true → same y z = true → same x z = true)
    (as bs cs : List (Entry Value)) (h : agreesEntriesBy same as bs = true)
    (h' : agreesEntriesBy same bs cs = true) : agreesEntriesBy same as cs = true := by
  cases as with
  | nil => cases bs <;> cases cs <;> simp_all [agreesEntriesBy]
  | cons a as =>
    cases bs with
    | nil => simp [agreesEntriesBy] at h
    | cons b bs =>
      cases cs with
      | nil => simp [agreesEntriesBy] at h'
      | cons c cs =>
        obtain ⟨p, x⟩ := a
        obtain ⟨q, y⟩ := b
        obtain ⟨r, z⟩ := c
        simp only [agreesEntriesBy, Bool.and_eq_true, beq_iff_eq] at h h' ⊢
        exact ⟨⟨h.1.1.trans h'.1.1, agreesBy_trans ht x y z h.1.2 h'.1.2⟩,
          agreesEntriesBy_trans ht as bs cs h.2 h'.2⟩
termination_by structural as

end

theorem agrees_symm {a b : Value} (h : a.agrees b = true) : b.agrees a = true :=
  @agreesBy_symm Binary64.equals (fun _ _ => Binary64.equals_symm) a b h

theorem agrees_trans {a b c : Value} (h : a.agrees b = true) (h' : b.agrees c = true) :
    a.agrees c = true :=
  @agreesBy_trans Binary64.equals (fun _ _ _ => Binary64.equals_trans) a b c h h'

/-! ## Agreement with itself -/

mutual

/-- Some number in the value is a NaN. -/
def holdsNaN : Value → Bool
  | float x => x.isNaN
  | list items => itemsHoldNaN items
  | mixed entries => entriesHoldNaN entries
  | _ => false

def itemsHoldNaN : List Value → Bool
  | [] => false
  | v :: vs => holdsNaN v || itemsHoldNaN vs

def entriesHoldNaN : List (Entry Value) → Bool
  | [] => false
  | ⟨_, v⟩ :: es => holdsNaN v || entriesHoldNaN es

end

mutual

theorem agreesBy_self (v : Value) :
    agreesBy Binary64.equals v v = true ↔ v.holdsNaN = false := by
  cases v with
  | float x => simp [agreesBy, holdsNaN, Binary64.equals]
  | list items => simpa [agreesBy, holdsNaN] using agreesItemsBy_self items
  | mixed entries => simpa [agreesBy, holdsNaN] using agreesEntriesBy_self entries
  | _ => simp [agreesBy, holdsNaN]

theorem agreesItemsBy_self (vs : List Value) :
    agreesItemsBy Binary64.equals vs vs = true ↔ itemsHoldNaN vs = false := by
  cases vs with
  | nil => simp [agreesItemsBy, itemsHoldNaN]
  | cons v vs => simp [agreesItemsBy, itemsHoldNaN, agreesBy_self v, agreesItemsBy_self vs]

theorem agreesEntriesBy_self (es : List (Entry Value)) :
    agreesEntriesBy Binary64.equals es es = true ↔ entriesHoldNaN es = false := by
  cases es with
  | nil => simp [agreesEntriesBy, entriesHoldNaN]
  | cons e es =>
    obtain ⟨p, v⟩ := e
    simp [agreesEntriesBy, entriesHoldNaN, agreesBy_self v, agreesEntriesBy_self es]

end

/-- **A value agrees with itself** exactly if it holds no NaN. -/
theorem agrees_self {v : Value} : v.agrees v = true ↔ v.holdsNaN = false := agreesBy_self v

/-! ## References -/

theorem node?_of_agrees {a b : Value} (h : agreesBy same a b = true) : a.node? = b.node? := by
  cases a <;> cases b <;> simp_all [agreesBy, node?]

theorem filterMap_node?_of_agrees {as bs : List Value} (h : agreesItemsBy same as bs = true) :
    as.filterMap node? = bs.filterMap node? := by
  induction as generalizing bs with
  | nil => cases bs <;> simp_all [agreesItemsBy]
  | cons a as ih =>
    cases bs with
    | nil => simp [agreesItemsBy] at h
    | cons b bs =>
      simp only [agreesItemsBy, Bool.and_eq_true] at h
      rw [List.filterMap_cons, List.filterMap_cons, node?_of_agrees h.1, ih h.2]

/-- What is read off property and reference of the entries is the same. -/
theorem filterMap_of_agrees {β : Type} {k : Entry Value → Option β}
    (hk : ∀ e e' : Entry Value, e.property = e'.property → e.value.node? = e'.value.node? →
      k e = k e') {as bs : List (Entry Value)} (h : agreesEntriesBy same as bs = true) :
    as.filterMap k = bs.filterMap k := by
  induction as generalizing bs with
  | nil => cases bs <;> simp_all [agreesEntriesBy]
  | cons a as ih =>
    cases bs with
    | nil => simp [agreesEntriesBy] at h
    | cons b bs =>
      obtain ⟨p, x⟩ := a
      obtain ⟨q, y⟩ := b
      simp only [agreesEntriesBy, Bool.and_eq_true, beq_iff_eq] at h
      rw [List.filterMap_cons, List.filterMap_cons, hk ⟨p, x⟩ ⟨q, y⟩ h.1.1 (node?_of_agrees h.1.2),
        ih h.2]

theorem nodes_of_agrees {a b : Value} (h : agreesBy same a b = true) : a.nodes = b.nodes := by
  cases a <;> cases b <;> simp only [agreesBy, Bool.false_eq_true, beq_iff_eq] at h <;>
    try rfl
  case node.node => rw [h]
  case list.list => exact filterMap_node?_of_agrees h
  case mixed.mixed => exact filterMap_of_agrees (fun _ _ _ he => he) h

end Value

/-- Values that agree claim the same children. -/
theorem Forest.claims_of_agrees {f : Forest} {n : NodeId} {p : PropertyId} {a b : Value}
    (h : a.agrees b = true) : f.claims n p a = f.claims n p b := by
  unfold Forest.claims
  cases f.feature n p with
  | error e => rfl
  | ok g =>
    cases hr : g.role with
    | containment => simp only [hr, Value.nodes_of_agrees h]
    | mixed =>
      simp only [hr]
      cases a <;> cases b <;> simp only [Value.agrees, Value.agreesBy, Bool.false_eq_true] at h <;>
        try rfl
      refine Value.filterMap_of_agrees (fun e e' hp he => ?_) h
      simp only [Forest.entryClaim, hp, he]
    | _ => simp only [hr]

/-! ## Slots -/

/-- The slots are the same or, if `loose`, at least agree. -/
def Slot.Matches (loose : Bool) (a b : Slot) : Prop :=
  a = b ∨ loose = true ∧ a.isSet = b.isSet ∧ a.value.agrees b.value = true

namespace Slot

variable {loose : Bool} {a b c : Slot}

theorem Matches.refl (a : Slot) : a.Matches loose a := .inl rfl

theorem Matches.symm (h : a.Matches loose b) : b.Matches loose a := by
  rcases h with rfl | ⟨hl, hset, hv⟩
  · exact .refl _
  · exact .inr ⟨hl, hset.symm, Value.agrees_symm hv⟩

theorem Matches.trans (h : a.Matches loose b) (h' : b.Matches loose c) : a.Matches loose c := by
  rcases h with rfl | ⟨hl, hset, hv⟩
  · exact h'
  · rcases h' with rfl | ⟨-, hset', hv'⟩
    · exact .inr ⟨hl, hset, hv⟩
    · exact .inr ⟨hl, hset.trans hset', Value.agrees_trans hv hv'⟩

theorem Matches.claims {f : Forest} {n : NodeId} {p : PropertyId} (h : a.Matches loose b) :
    f.claims n p a.value = f.claims n p b.value := by
  rcases h with rfl | ⟨-, -, hv⟩
  · rfl
  · exact Forest.claims_of_agrees hv

/-- The slots are set alike and their values agree. -/
def Agrees (a b : Slot) : Prop := a.isSet = b.isSet ∧ a.value.agrees b.value = true

instance (a b : Slot) : Decidable (a.Agrees b) := inferInstanceAs (Decidable (_ ∧ _))

theorem Agrees.symm (h : a.Agrees b) : b.Agrees a := ⟨h.1.symm, Value.agrees_symm h.2⟩

theorem Agrees.trans (h : a.Agrees b) (h' : b.Agrees c) : a.Agrees c :=
  ⟨h.1.trans h'.1, Value.agrees_trans h.2 h'.2⟩

/-- What matches a slot without a NaN agrees with it. -/
theorem Matches.agrees (h : a.Matches loose b) (hb : b.value.holdsNaN = false) : a.Agrees b := by
  rcases h with rfl | ⟨-, hset, hv⟩
  · exact ⟨rfl, Value.agrees_self.mpr hb⟩
  · exact ⟨hset, hv⟩

end Slot

end TrackedGraph
