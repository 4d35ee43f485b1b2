/-
A tracked part of a forest.

A recorder is subscribed to a set of nodes that is closed downward: with a node it has
everything that sits below. It is kept so by one rule. When a change of a tracked node
lets children go and takes others in, what sits below the former is dropped and what sits
below the latter is added (`Tracks.write`); a change of a node that is not tracked moves
nothing into the set or out of it (`Tracks.write_of_not`). Both rest on where paths go
after a write (`Rewrite.under_write`): the only new edges lead from the children that
enter, which were at the top of their trees, and the only lost ones from those that leave.
-/
import TrackedGraph.Proofs.Forest.Contents

set_option autoImplicit false

open Relation

namespace TrackedGraph.Forest

variable {f : Forest} {n m r c a b x : NodeId} {p : PropertyId} {g : Feature} {old new : Slot}
  {freed : List NodeId} {taken : List (NodeId × PropertyId)} {roots : List NodeId}
  {H H' : NodeId → Prop}

/-! ## Paths after a write -/

/-- The child enters the slot: it is taken, and the slot did not claim it before. -/
def Enters (f : Forest) (n : NodeId) (p : PropertyId) (old : Slot)
    (taken : List (NodeId × PropertyId)) (c : NodeId) : Prop :=
  c ∈ taken.map Prod.fst ∧ c ∉ (f.claims n p old.value).map Prod.fst

section write

variable (hf : f.Sound True) (hw : f.Rewrite True n p g old new freed taken)

include hf hw

theorem Rewrite.under_of_freed (hc : c ∈ freed) : f.Under c n := by
  obtain ⟨⟨_, q⟩, hq, rfl⟩ := List.mem_map.mp ((hw.lost trivial c).mp hc).1
  exact ⟨q, (hf.linked trivial).placed n p old _ q hw.slot hq⟩

omit hf in
theorem Rewrite.place?_of_enters (hc : f.Enters n p old taken c) : f.place? c = none := by
  obtain ⟨x, hx, rfl⟩ := List.mem_map.mp hc.1
  exact (hw.free trivial x hx).resolve_right hc.2

omit hf in
theorem Rewrite.not_within_of_enters (hc : f.Enters n p old taken c) : ¬ f.Within n c := by
  obtain ⟨x, hx, rfl⟩ := List.mem_map.mp hc.1
  exact hw.upward x hx

/-- No path leads through a child that leaves and one that enters. -/
theorem Rewrite.not_within_both (hc : c ∈ freed) (hm : f.Within m c)
    (hx : f.Enters n p old taken x) (hmx : f.Within m x) : False := by
  have hu := hw.under_of_freed hf hc
  have hnone := hw.place?_of_enters hx
  have hne : c ≠ x := by
    rintro rfl
    obtain ⟨q, hq⟩ := hu
    rw [hq] at hnone
    exact absurd hnone (by simp)
  rcases hm.total hmx with h | h
  · exact hw.not_within_of_enters hx (h.of_under_left hu hne)
  · exact hne (h.eq_of_place?_eq_none hnone).symm

/-- The edges after a write: those before, less the ones of the children that leave, and
those of the children that enter. -/
theorem Rewrite.under_write : (f.write n p new freed taken).Under a b ↔
    f.Under a b ∧ a ∉ freed ∨ f.Enters n p old taken a ∧ b = n := by
  have hkept : ∀ {c q}, (c, q) ∈ taken → (f.write n p new freed taken).Under c n := by
    intro c q hc
    exact ⟨q, place?_write_of_taken hw.distinct (hw.fits.contains_of_claims hf.regular hw.feature
      (hw.claimed _ hc)) hc⟩
  constructor
  · rintro ⟨q, hp⟩
    rcases place?_of_write hw.distinct hp with ⟨q', hq, hplace⟩ | ⟨-, hfreed, hp⟩
    · obtain ⟨rfl, rfl⟩ := Place.mk.injEq .. ▸ hplace
      by_cases hold : a ∈ (f.claims b p old.value).map Prod.fst
      · -- Who was in the slot before keeps its container.
        left
        obtain ⟨⟨_, q'⟩, hq', rfl⟩ := List.mem_map.mp hold
        refine ⟨⟨q', (hf.linked trivial).placed _ p old _ q' hw.slot hq'⟩, fun hfreed => ?_⟩
        exact ((hw.lost trivial _).mp hfreed).2 (List.mem_map.mpr ⟨_, hw.claimed _ hq, rfl⟩)
      · exact .inr ⟨⟨List.mem_map_of_mem hq, hold⟩, rfl⟩
    · exact .inl ⟨⟨q, hp⟩, hfreed⟩
  · rintro (⟨⟨q, hp⟩, hfreed⟩ | ⟨⟨htaken, -⟩, rfl⟩)
    · by_cases htaken : a ∈ taken.map Prod.fst
      · obtain ⟨⟨_, q'⟩, hq', rfl⟩ := List.mem_map.mp htaken
        -- Who comes in sat nowhere, or in this slot.
        rcases hw.free trivial _ hq' with hnone | hold
        · rw [hp] at hnone
          exact absurd hnone (by simp)
        · obtain ⟨⟨_, q''⟩, hq'', rfl⟩ := List.mem_map.mp hold
          have hplaced := (hf.linked trivial).placed n p old _ q'' hw.slot hq''
          rw [hp, Option.some.injEq, Place.mk.injEq] at hplaced
          rw [hplaced.1]
          exact hkept hq'
      · refine ⟨q, ?_⟩
        rw [place?_write_of_not_taken htaken, if_neg hfreed]
        exact hp
    · obtain ⟨⟨_, q⟩, hq, rfl⟩ := List.mem_map.mp htaken
      exact hkept hq

/-- A path stays unless it leads through a child that leaves, and beyond. -/
theorem Rewrite.within_write (h : f.Within m x)
    (hno : ∀ c ∈ freed, f.Within m c → ¬ f.Within n x) :
    (f.write n p new freed taken).Within m x := by
  induction h using ReflTransGen.head_induction_on with
  | refl => exact .refl
  | @head a b hu hb ih =>
    have hfreed : a ∉ freed := by
      intro ha
      refine hno a ha .refl ?_
      rw [(hw.under_of_freed hf ha).unique hu]
      exact hb
    exact .head ((hw.under_write hf).mpr (.inl ⟨hu, hfreed⟩))
      (ih fun c hc hbc => hno c hc (.head hu hbc))

end write

/-! ## Tracked nodes -/

/-- The nodes with `H` are the contents of those roots that have `H` themselves. -/
structure Tracks (f : Forest) (roots : List NodeId) (H : NodeId → Prop) : Prop where
  down : ∀ a b, f.Under a b → H b → H a
  up : ∀ m, H m → ∃ r ∈ roots, H r ∧ f.Within m r

theorem Tracks.within (ht : f.Tracks roots H) (h : f.Within m r) (hr : H r) : H m := by
  induction h using ReflTransGen.head_induction_on with
  | refl => exact hr
  | head hu _ ih => exact ht.down _ _ hu ih

theorem Tracks.iff (ht : f.Tracks roots H) : H m ↔ ∃ r ∈ roots, H r ∧ f.Within m r :=
  ⟨ht.up m, fun ⟨_, _, hr, h⟩ => ht.within h hr⟩

theorem Tracks.congr (ht : f.Tracks roots H) (h : ∀ m, H' m ↔ H m) : f.Tracks roots H' :=
  ⟨fun a b hu hb => (h a).mpr (ht.down a b hu ((h b).mp hb)), fun m hm => by
    obtain ⟨r, hr, hHr, hw⟩ := ht.up m ((h m).mp hm)
    exact ⟨r, hr, (h r).mpr hHr, hw⟩⟩

/-- The contents of the roots are tracked. -/
theorem tracks_closure (hf : f.Sound True) (h : ∀ m, H m ↔ m ∈ f.closure roots) :
    f.Tracks roots H := by
  constructor
  · intro a b hu hb
    obtain ⟨x, hx, hc, hwithin⟩ := (mem_closure hf).mp ((h b).mp hb)
    exact (h a).mpr ((mem_closure hf).mpr ⟨x, hx, hc, .head hu hwithin⟩)
  · intro m hm
    obtain ⟨x, hx, hc, hwithin⟩ := (mem_closure hf).mp ((h m).mp hm)
    exact ⟨x, hx, (h x).mpr ((mem_closure hf).mpr ⟨x, hx, hc, .refl⟩), hwithin⟩

section write

variable (hf : f.Sound True) (hw : f.Rewrite True n p g old new freed taken)
  (ht : f.Tracks roots H)

include hf hw ht

/-- **A change of a tracked node** drops what sits below the children that leave, and adds
what sits below those that enter. -/
theorem Tracks.write (hn : H n) (hH' : ∀ m, H' m ↔
    H m ∧ (∀ c ∈ freed, ¬ f.Within m c) ∨ ∃ c, f.Enters n p old taken c ∧ f.Within m c) :
    (f.write n p new freed taken).Tracks roots H' := by
  have hnot : ∀ c ∈ freed, ¬ f.Within n c := fun c hc =>
    hf.acyclic.not_within (hw.under_of_freed hf hc)
  constructor
  · intro a b hu hb
    rcases (hw.under_write hf).mp hu with ⟨hu, hfreed⟩ | ⟨henters, -⟩
    · rcases (hH' b).mp hb with ⟨hb, hbelow⟩ | ⟨c, hc, hbc⟩
      · refine (hH' a).mpr (.inl ⟨ht.down a b hu hb, fun c hc hac => hbelow c hc ?_⟩)
        exact hac.of_under_left hu fun h => hfreed (by rw [h]; exact hc)
      · exact (hH' a).mpr (.inr ⟨c, hc, .head hu hbc⟩)
    · exact (hH' a).mpr (.inr ⟨a, henters, .refl⟩)
  · intro m hm
    rcases (hH' m).mp hm with ⟨hm, hbelow⟩ | ⟨c, hc, hmc⟩
    · obtain ⟨r, hr, hHr, hmr⟩ := ht.up m hm
      refine ⟨r, hr, (hH' r).mpr (.inl ⟨hHr, fun c hc hrc => hbelow c hc (hmr.trans hrc)⟩), ?_⟩
      exact hw.within_write hf hmr fun c hc hmc => absurd hmc (hbelow c hc)
    · -- The path goes on through `n` to the root that `n` is below.
      obtain ⟨r, hr, hHr, hnr⟩ := ht.up n hn
      refine ⟨r, hr, (hH' r).mpr (.inl ⟨hHr, fun x hx hrx => hnot x hx (hnr.trans hrx)⟩), ?_⟩
      have hmc' := hw.within_write hf hmc fun x hx hmx =>
        (hw.not_within_both hf hx hmx hc hmc).elim
      have hnr' := hw.within_write hf hnr fun x hx hnx => absurd hnx (hnot x hx)
      exact (hmc'.tail ((hw.under_write hf).mpr (.inr ⟨hc, rfl⟩))).trans hnr'

/-- **A change of any other node** leaves the tracked nodes as they are. -/
theorem Tracks.write_of_not (hn : ¬ H n) : (f.write n p new freed taken).Tracks roots H := by
  constructor
  · intro a b hu hb
    rcases (hw.under_write hf).mp hu with ⟨hu, -⟩ | ⟨-, rfl⟩
    · exact ht.down a b hu hb
    · exact absurd hb hn
  · intro m hm
    obtain ⟨r, hr, hHr, hmr⟩ := ht.up m hm
    exact ⟨r, hr, hHr, hw.within_write hf hmr fun c _ _ hnr => hn (ht.within hnr hHr)⟩

end write

end TrackedGraph.Forest
