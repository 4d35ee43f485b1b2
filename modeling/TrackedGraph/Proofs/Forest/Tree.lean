/-
Containment upward: what sits below what.

A test climbs from a node to its containers until it meets what it looks for. Where no
node sits below itself a climb meets no node twice, so it ends before as many steps as
there are nodes (`ancestor_le`), and the test `isWithin` decides the relation `Within`.
That no node sits below itself survives the loss of places, and it survives new places as
long as the new container is not below the node it takes in (`Acyclic.of_new_places`).
-/
import TrackedGraph.Proofs.Forest.Write
import Mathlib.Logic.Relation

set_option autoImplicit false

open Relation

namespace TrackedGraph.Forest

variable {f : Forest} {n r c p : NodeId}

/-- The node `c` sits in `p`. -/
def Under (f : Forest) (c p : NodeId) : Prop := ∃ q, f.place? c = some ⟨p, q⟩

/-- The node `c` is `p`, or it sits somewhere below. -/
def Within (f : Forest) : NodeId → NodeId → Prop := ReflTransGen f.Under

/-- No node sits below itself. -/
def Acyclic (f : Forest) : Prop := ∀ c, ¬ TransGen f.Under c c

theorem Under.unique {a b : NodeId} (ha : f.Under c a) (hb : f.Under c b) : a = b := by
  obtain ⟨_, ha⟩ := ha
  obtain ⟨_, hb⟩ := hb
  rw [ha] at hb
  exact congrArg Place.container (Option.some.inj hb)

theorem Under.contains (h : f.Under c p) : f.contains c = true := contains_of_place h.choose_spec

theorem Acyclic.not_within (ha : f.Acyclic) (h : f.Under c p) : ¬ f.Within p c :=
  fun hw => ha c (TransGen.head' h hw)

/-! ## Climbing -/

/-- The container of the container and so on, a number of times. -/
def ancestor (f : Forest) : Nat → NodeId → Option NodeId
  | 0, n => some n
  | k + 1, n => (f.place? n).bind fun place => f.ancestor k place.container

theorem ancestor_succ {k : Nat} :
    f.ancestor (k + 1) n = some r ↔ ∃ p, f.Under n p ∧ f.ancestor k p = some r := by
  simp only [ancestor, Option.bind_eq_some_iff, Under]
  constructor
  · rintro ⟨⟨p, q⟩, h, hr⟩
    exact ⟨p, ⟨q, h⟩, hr⟩
  · rintro ⟨p, ⟨q, h⟩, hr⟩
    exact ⟨⟨p, q⟩, h, hr⟩

theorem within_iff_ancestor : f.Within n r ↔ ∃ k, f.ancestor k n = some r := by
  constructor
  · intro h
    induction h using ReflTransGen.head_induction_on with
    | refl => exact ⟨0, rfl⟩
    | head hu _ ih =>
      obtain ⟨k, hk⟩ := ih
      exact ⟨k + 1, ancestor_succ.mpr ⟨_, hu, hk⟩⟩
  · rintro ⟨k, hk⟩
    induction k generalizing n with
    | zero =>
      rw [Option.some.inj hk]
      exact .refl
    | succ k ih =>
      obtain ⟨p, hu, hk⟩ := ancestor_succ.mp hk
      exact .head hu (ih hk)

/-- **A climb is no longer than the forest has nodes.** It meets no node twice. -/
theorem ancestor_le (ha : f.Acyclic) {k : Nat} (h : f.ancestor k n = some r) :
    k ≤ f.nodes.length := by
  -- The nodes met before the last one, which all sit somewhere and so exist.
  have path : ∀ k n, f.ancestor k n = some r → ∃ l : List NodeId, l.length = k ∧ l.Nodup ∧
      ∀ x ∈ l, f.contains x = true ∧ f.Within n x := by
    intro k
    induction k with
    | zero => exact fun n _ => ⟨[], rfl, List.nodup_nil, by simp⟩
    | succ k ih =>
      intro n h
      obtain ⟨p, hu, hk⟩ := ancestor_succ.mp h
      obtain ⟨l, hl, hd, hx⟩ := ih p hk
      refine ⟨n :: l, congrArg (· + 1) hl, List.nodup_cons.mpr ⟨?_, hd⟩, ?_⟩
      · intro hn
        exact ha.not_within hu (hx n hn).2
      · intro x hm
        rcases List.mem_cons.mp hm with rfl | hm
        · exact ⟨hu.contains, .refl⟩
        · exact ⟨(hx x hm).1, .head hu (hx x hm).2⟩
  obtain ⟨l, hl, hd, hx⟩ := path k n h
  have hmap : (l.map NodeId.index).Nodup :=
    hd.map fun a b hab => NodeId.ext hab
  have hsub : l.map NodeId.index ⊆ List.range f.nodes.length := by
    intro i hi
    obtain ⟨x, hxl, rfl⟩ := List.mem_map.mp hi
    rw [List.mem_range]
    simpa only [contains, decide_eq_true_eq] using (hx x hxl).1
  have hle := List.Nodup.length_le_of_subset hmap hsub
  rw [List.length_map, List.length_range, hl] at hle
  exact hle

/-! ## The tests -/

/-- What never returns has no result. -/
@[simp] theorem endless_eq_none : f.endless n = none := by
  cases h : f.endless n with
  | none => rfl
  | some c => exact absurd (endless.partial_correctness f n (fun _ => False) (fun _ ih => ih) c h) id

/-- **A climb meets** what it is looked for among the nodes on its way. -/
theorem meets_iff {goal : NodeId → Bool} {k : Nat} :
    f.meets goal k n = true ↔ ∃ j r, j < k ∧ f.ancestor j n = some r ∧ goal r = true := by
  induction k generalizing n with
  | zero => simp [meets]
  | succ k ih =>
    rw [meets, Bool.or_eq_true]
    constructor
    · rintro (h | h)
      · exact ⟨0, n, by omega, rfl, h⟩
      · cases hp : f.place? n with
        | none => simp [hp] at h
        | some place =>
          rw [hp] at h
          obtain ⟨j, r, hj, hr, hgoal⟩ := ih.mp h
          exact ⟨j + 1, r, by omega, ancestor_succ.mpr ⟨_, ⟨place.property, hp⟩, hr⟩, hgoal⟩
    · rintro ⟨j, r, hj, hr, hgoal⟩
      cases j with
      | zero =>
        rw [← Option.some.inj hr] at hgoal
        exact .inl hgoal
      | succ j =>
        obtain ⟨p, ⟨q, hp⟩, hr⟩ := ancestor_succ.mp hr
        rw [hp]
        exact .inr (ih.mpr ⟨j, r, by omega, hr, hgoal⟩)

/-- The steps are enough for a climb that ends. -/
theorem meets_iff_within (ha : f.Acyclic) {goal : NodeId → Bool} :
    f.meets goal (f.nodes.length + 1) n = true ↔ ∃ r, f.Within n r ∧ goal r = true := by
  rw [meets_iff]
  constructor
  · rintro ⟨j, r, -, hr, hgoal⟩
    exact ⟨r, within_iff_ancestor.mpr ⟨j, hr⟩, hgoal⟩
  · rintro ⟨r, hw, hgoal⟩
    obtain ⟨j, hr⟩ := within_iff_ancestor.mp hw
    exact ⟨j, r, Nat.lt_succ_of_le (ancestor_le ha hr), hr, hgoal⟩

theorem isWithin_iff (ha : f.Acyclic) : f.isWithin n r = true ↔ f.Within n r := by
  rw [isWithin, meets_iff_within ha]
  simp

theorem isWithin_eq_false_iff (ha : f.Acyclic) : f.isWithin n r = false ↔ ¬ f.Within n r := by
  rw [← Bool.not_eq_true, isWithin_iff ha]

/-- What the test finds is there, whatever the places are. -/
theorem within_of_isWithin (h : f.isWithin n r = true) : f.Within n r := by
  obtain ⟨j, c, -, hj, hc⟩ := meets_iff.mp h
  obtain rfl := beq_iff_eq.mp hc
  exact within_iff_ancestor.mpr ⟨j, hj⟩

theorem isWithinAny_iff (ha : f.Acyclic) {roots : List NodeId} :
    f.isWithinAny n roots = true ↔ ∃ r ∈ roots, f.Within n r := by
  rw [isWithinAny, meets_iff_within ha]
  simp only [List.contains_iff_mem, and_comm]

/-! ## Staying acyclic -/

theorem Acyclic.of_under {f' : Forest} (ha : f.Acyclic)
    (h : ∀ c p, f'.Under c p → f.Under c p) : f'.Acyclic :=
  fun c hc => ha c (TransGen.mono h c c hc)

theorem Within.of_under {f' : Forest} (h : ∀ c p, f'.Under c p → f.Under c p)
    (hw : f'.Within n r) : f.Within n r :=
  ReflTransGen.mono h n r hw

/-- **New places keep a forest acyclic** if their container, `n`, is not below any of
the nodes `T` that get them. -/
theorem Acyclic.of_new_places {f' : Forest} {T : List NodeId} (ha : f.Acyclic)
    (hT : ∀ c ∈ T, ¬ f.Within n c)
    (h : ∀ c p, f'.Under c p → f.Under c p ∨ c ∈ T ∧ p = n) : f'.Acyclic := by
  -- Above `n` nothing is new, for what is new starts at a node of `T`.
  have above : ∀ {x}, f'.Within n x → f.Within n x := by
    intro x hx
    induction hx with
    | refl => exact .refl
    | tail _ hu ih =>
      rcases h _ _ hu with hu | ⟨hc, -⟩
      · exact ih.tail hu
      · exact absurd ih (hT _ hc)
  have climb : ∀ {c x}, TransGen f'.Under c x →
      TransGen f.Under c x ∨ ∃ t ∈ T, f'.Within c t ∧ f'.Within n x := by
    intro c x hx
    induction hx with
    | single hu =>
      rcases h _ _ hu with hu | ⟨hc, rfl⟩
      · exact .inl (.single hu)
      · exact .inr ⟨c, hc, .refl, .refl⟩
    | tail hcb hu ih =>
      rcases ih with ih | ⟨t, ht, hct, hn⟩
      · rcases h _ _ hu with hu' | ⟨hb, rfl⟩
        · exact .inl (ih.tail hu')
        · exact .inr ⟨_, hb, hcb.to_reflTransGen, .refl⟩
      · exact .inr ⟨t, ht, hct, hn.tail hu⟩
  intro c hc
  rcases climb hc with hc | ⟨t, ht, hct, hn⟩
  · exact ha c hc
  · exact hT t ht (above (hn.trans hct))

end TrackedGraph.Forest
