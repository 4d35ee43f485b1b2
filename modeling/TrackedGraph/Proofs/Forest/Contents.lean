/-
Containment downward: the contents of a node.

The contents are read off the slots, and no walk that ends has more levels than there are
nodes. Where places and slots agree they are the nodes that sit below, at any depth, and the node
itself (`mem_contents`): a climb is no longer than the forest has nodes, so no node is out
of reach. The creation of a node gives a walk one level more, and the walk finds the same
nodes in the same order (`contents_create`): no tree has that many levels (`preorder_succ`).
-/
import TrackedGraph.Proofs.Forest.Agreement

set_option autoImplicit false

open Relation

namespace TrackedGraph.Forest

variable {f f' : Forest} {n m r c x : NodeId} {t : TypeId} {roots : List NodeId}

/-- The children of a node are the nodes that sit in it. -/
theorem Linked.mem_children_iff (hf : f.Shaped) (hl : f.Linked) :
    c ∈ f.children n ↔ f.Under c n := by
  rw [hf.mem_children]
  constructor
  · rintro ⟨p, s, q, hs, hc⟩
    exact ⟨q, hl.placed n p s c q hs hc⟩
  · rintro ⟨q, hp⟩
    obtain ⟨p, s, hs, hc⟩ := hl.listed c n q hp
    exact ⟨p, s, q, hs, hc⟩

/-- The last step of a climb. -/
theorem ancestor_succ_last {k : Nat} :
    f.ancestor (k + 1) n = some r ↔ ∃ c, f.ancestor k n = some c ∧ f.Under c r := by
  induction k generalizing n with
  | zero =>
    rw [ancestor_succ]
    constructor
    · rintro ⟨p, hu, hr⟩
      obtain rfl := Option.some.inj hr
      exact ⟨n, rfl, hu⟩
    · rintro ⟨c, hc, hu⟩
      obtain rfl := Option.some.inj hc
      exact ⟨r, hu, rfl⟩
  | succ k ih =>
    rw [ancestor_succ]
    constructor
    · rintro ⟨p, hu, hr⟩
      obtain ⟨c, hc, hcr⟩ := ih.mp hr
      exact ⟨c, ancestor_succ.mpr ⟨p, hu, hc⟩, hcr⟩
    · rintro ⟨c, hc, hcr⟩
      obtain ⟨p, hu, hp⟩ := ancestor_succ.mp hc
      exact ⟨p, hu, ih.mpr ⟨c, hp, hcr⟩⟩

/-- In the logic a walk that goes round a circle is cut short. -/
@[simp] theorem preorder_zero : f.preorder 0 n = [n] := by simp [preorder]

theorem mem_preorder (hf : f.Shaped) (hl : f.Linked) {depth : Nat} :
    n ∈ f.preorder depth r ↔ ∃ k, k ≤ depth ∧ f.ancestor k n = some r := by
  induction depth generalizing r with
  | zero =>
    rw [preorder_zero, List.mem_singleton]
    constructor
    · rintro rfl
      exact ⟨0, Nat.le_refl _, rfl⟩
    · rintro ⟨k, hk, hr⟩
      obtain rfl : k = 0 := by omega
      exact Option.some.inj hr
  | succ depth ih =>
    rw [preorder, List.mem_cons, List.mem_flatMap]
    constructor
    · rintro (rfl | ⟨c, hc, hn⟩)
      · exact ⟨0, by omega, rfl⟩
      · -- One climb more, from the child that the node is found below.
        obtain ⟨k, hk, hkc⟩ := ih.mp hn
        exact ⟨k + 1, by omega, ancestor_succ_last.mpr ⟨c, hkc, (hl.mem_children_iff hf).mp hc⟩⟩
    · rintro ⟨k, hk, hr⟩
      cases k with
      | zero => exact .inl (Option.some.inj hr)
      | succ k =>
        obtain ⟨c, hc, hu⟩ := ancestor_succ_last.mp hr
        exact .inr ⟨c, (hl.mem_children_iff hf).mpr hu, ih.mpr ⟨k, by omega, hc⟩⟩

/-- **The contents of a node** are what sits below it, and itself. -/
theorem Orderly.mem_contents (hf : f.Orderly) :
    n ∈ f.contents r ↔ f.contains r = true ∧ f.Within n r := by
  unfold contents
  by_cases hr : f.contains r = true
  · rw [if_pos hr, mem_preorder hf.shaped hf.linked, within_iff_ancestor]
    constructor
    · rintro ⟨k, -, hk⟩
      exact ⟨hr, k, hk⟩
    · rintro ⟨-, k, hk⟩
      exact ⟨k, ancestor_le hf.acyclic hk, hk⟩
  · rw [if_neg hr]
    simp [hr]

theorem mem_contents (hf : f.Sound True) :
    n ∈ f.contents r ↔ f.contains r = true ∧ f.Within n r := hf.orderly.mem_contents

theorem mem_closure (hf : f.Sound True) :
    n ∈ f.closure roots ↔ ∃ r ∈ roots, f.contains r = true ∧ f.Within n r := by
  rw [closure, FirstSeen.mem_ofList]
  simp [List.mem_flatMap, mem_contents hf]

/-! ## Walks after a creation -/

theorem children_create (h : f.create t = .ok (m, f')) (hn : f.contains n = true) :
    f'.children n = f.children n := by
  obtain ⟨type, -, -, rfl⟩ := create_eq_ok.mp h
  unfold children
  dsimp only
  rw [List.getElem?_append_left (by simpa [contains] using hn)]

/-- The new node is in no walk from one that was there before. -/
theorem preorder_create (hf : f.Sound True) (h : f.create t = .ok (m, f')) (depth : Nat)
    (hn : f.contains n = true) : f'.preorder depth n = f.preorder depth n := by
  induction depth generalizing n with
  | zero => rw [preorder_zero, preorder_zero]
  | succ depth ih =>
    have hchild : ∀ c ∈ f.children n, f'.preorder depth c = f.preorder depth c := fun c hc =>
      ih (((hf.linked trivial).mem_children_iff hf.toTyped.shaped).mp hc).contains
    rw [preorder, preorder, children_create h hn, List.flatMap_congr hchild]

/-- **A walk ends at the bottom**: one level more adds nothing if no climb to its start is longer. -/
theorem Orderly.preorder_succ (hf : f.Orderly) {depth : Nat}
    (h : ∀ k c, f.ancestor k c = some n → k ≤ depth) :
    f.preorder (depth + 1) n = f.preorder depth n := by
  induction depth generalizing n with
  | zero =>
    have hnone : f.children n = [] := by
      refine List.eq_nil_iff_forall_not_mem.mpr fun c hc => ?_
      have hunder := (hf.linked.mem_children_iff hf.shaped).mp hc
      have hstep : f.ancestor 1 c = some n := ancestor_succ.mpr ⟨n, hunder, rfl⟩
      exact absurd (h 1 c hstep) (by omega)
    rw [preorder_zero, preorder, hnone, List.flatMap_nil]
  | succ depth ih =>
    have hchild : ∀ c ∈ f.children n, f.preorder (depth + 1) c = f.preorder depth c := by
      intro c hc
      have hunder := (hf.linked.mem_children_iff hf.shaped).mp hc
      refine ih fun k a ha => ?_
      have hlonger := h (k + 1) a (ancestor_succ_last.mpr ⟨c, ha, hunder⟩)
      omega
    rw [preorder, List.flatMap_congr hchild, ← preorder]

theorem contents_create (hf : f.Sound True) (h : f.create t = .ok (m, f'))
    (hn : f.contains n = true) : f'.contents n = f.contents n := by
  have hn' : f'.contains n = true := by
    obtain ⟨u, hu⟩ := contains_iff.mp hn
    exact contains_iff.mpr ⟨u, typeOf_create_of_ok h hu⟩
  have hlength : f'.nodes.length = f.nodes.length + 1 := by
    obtain ⟨type, -, -, rfl⟩ := create_eq_ok.mp h
    simp
  unfold contents
  rw [if_pos hn, if_pos hn', hlength, preorder_create hf h _ hn,
    hf.orderly.preorder_succ fun k c hc => ancestor_le hf.acyclic hc]

theorem isWithinAny_create (hf : f.Sound True) (h : f.create t = .ok (m, f')) :
    f'.isWithinAny n roots = f.isWithinAny n roots := by
  have hunder : f'.Under = f.Under := by
    funext a b
    unfold Under
    rw [place?_create h]
  rw [Bool.eq_iff_iff, isWithinAny_iff (hf.create h).acyclic, isWithinAny_iff hf.acyclic]
  unfold Within
  rw [hunder]

/-! ## Paths -/

/-- Two nodes above a third are one above the other. -/
theorem Within.total (h : f.Within m n) (h' : f.Within m r) : f.Within n r ∨ f.Within r n :=
  ReflTransGen.total_of_right_unique (fun _ _ _ => Under.unique) h h'

/-- What is at the top of a tree is above all that is comparable to it. -/
theorem Within.eq_of_place?_eq_none (h : f.Within r x) (hr : f.place? r = none) : r = x := by
  cases h using ReflTransGen.head_induction_on with
  | refl => rfl
  | head hu _ =>
    obtain ⟨q, hp⟩ := hu
    rw [hr] at hp
    exact absurd hp (by simp)

/-- From a node upward the path is unique. -/
theorem Within.of_under_left (h : f.Within c x) (hu : f.Under c n) (hne : c ≠ x) :
    f.Within n x := by
  cases h using ReflTransGen.head_induction_on with
  | refl => exact absurd rfl hne
  | head hu' h' => rw [hu.unique hu']; exact h'

end TrackedGraph.Forest
