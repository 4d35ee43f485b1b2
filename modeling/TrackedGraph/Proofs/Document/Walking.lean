/-
Walks down, and the way up.

The contents of a node are computed level by level, to as many levels as there are nodes. Here
they are what a walk with a stack visits that counts no levels: it takes the next node from the
stack, visits it and puts its children on top (`Forest.Walk.step`). In an orderly forest the stack
runs empty after as many steps as there are contents (`Forest.Orderly.walk_eq`), because a node
comes before the contents of its children (`Forest.Orderly.contents_eq`) and no two of these
share a node (`Forest.Orderly.nodup_contents`).

Recorders walk in the middle of edits, in the forests in which changes are announced
(`Document.Shown`). Each step of an edit shows the one that it leaves at most, so these are all as
sound as the steps keep them (`Chain.shown_sound`).
-/
import TrackedGraph.Proofs.Document.Acyclic
import TrackedGraph.Proofs.Document.Shaping
import TrackedGraph.Proofs.Forest.Contents
import Mathlib.Logic.Function.Iterate

set_option autoImplicit false

open Relation

namespace TrackedGraph

variable {τ : Type} {d : Document τ} {schema : Schema} {n c x : NodeId}

namespace Forest

variable {f : Forest} {p q : PropertyId} {s : Slot}

/-! ## Contents -/

/-- **A node comes before the contents of its children**, in their order. -/
theorem Orderly.contents_eq (hf : f.Orderly) (hn : f.contains n = true) :
    f.contents n = n :: (f.children n).flatMap f.contents := by
  have hchild : ∀ c ∈ f.children n, f.contents c = f.preorder f.nodes.length c := fun c hc =>
    if_pos ((hf.linked.mem_children_iff hf.shaped).mp hc).contains
  calc f.contents n
    _ = f.preorder (f.nodes.length + 1) n := by
      rw [hf.preorder_succ fun k c hc => ancestor_le hf.acyclic hc]
      exact if_pos hn
    _ = n :: (f.children n).flatMap f.contents := by
      rw [preorder, List.flatMap_congr hchild]

/-- The children of a node are distinct. -/
theorem Orderly.nodup_children (hf : f.Orderly) : (f.children n).Nodup := by
  by_cases hn : f.contains n = true
  · exact (List.nodup_flatMap.mp (hf.shaped.agrees_iff.mpr hf.linked).once).1 n (mem_ids.mpr hn)
  · have hnone : f.children n = [] := by
      refine List.eq_nil_iff_forall_not_mem.mpr fun c hc => hn ?_
      obtain ⟨p, s, q, hs, -⟩ := hf.shaped.mem_children.mp hc
      exact contains_of_slot hs
    rw [hnone]
    exact List.nodup_nil

/-- Nothing is below two children of one node. -/
theorem Acyclic.eq_of_within (ha : f.Acyclic) {c' : NodeId} (hc : f.Under c n) (hc' : f.Under c' n)
    (hx : f.Within x c) (hx' : f.Within x c') : c = c' := by
  by_contra hne
  rcases hx.total hx' with h | h
  · exact ha.not_within hc' (h.of_under_left hc hne)
  · exact ha.not_within hc (h.of_under_left hc' (Ne.symm hne))

theorem Orderly.nodup_preorder (hf : f.Orderly) (depth : Nat) : (f.preorder depth n).Nodup := by
  have hwithin : ∀ {depth x c}, x ∈ f.preorder depth c → f.Within x c := fun h => by
    obtain ⟨k, -, hk⟩ := (mem_preorder hf.shaped hf.linked).mp h
    exact within_iff_ancestor.mpr ⟨k, hk⟩
  have hunder : ∀ {c n}, c ∈ f.children n → f.Under c n :=
    fun h => (hf.linked.mem_children_iff hf.shaped).mp h
  induction depth generalizing n with
  | zero =>
    rw [preorder_zero]
    exact List.nodup_singleton n
  | succ depth ih =>
    rw [preorder, List.nodup_cons, List.nodup_flatMap]
    refine ⟨fun hn => ?_, fun c _ => ih, hf.nodup_children.imp_of_mem fun hc hc' hne x hx hx' => ?_⟩
    · obtain ⟨c, hc, hn⟩ := List.mem_flatMap.mp hn
      exact hf.acyclic.not_within (hunder hc) (hwithin hn)
    · exact hne (hf.acyclic.eq_of_within (hunder hc) (hunder hc') (hwithin hx) (hwithin hx'))

/-- **No node is twice among the contents** of a node. -/
theorem Orderly.nodup_contents (hf : f.Orderly) : (f.contents n).Nodup := by
  unfold contents
  split
  · exact hf.nodup_preorder _
  · exact List.nodup_nil

theorem Orderly.length_contents_le (hf : f.Orderly) : (f.contents n).length ≤ f.nodes.length := by
  have hsub : f.contents n ⊆ f.ids := by
    intro x hx
    obtain ⟨hn, hw⟩ := hf.mem_contents.mp hx
    refine mem_ids.mpr ?_
    cases hw using ReflTransGen.head_induction_on with
    | refl => exact hn
    | head hu _ => exact hu.contains
  have hle := hf.nodup_contents.length_le_of_subset hsub
  rwa [ids, List.length_map, List.length_range] at hle

/-! ## Walks -/

/-- A walk: the nodes that were visited, and the stack of those that are to be visited, the next
one first. -/
structure Walk where
  visited : List NodeId
  pending : List NodeId
deriving DecidableEq

/-- Visits the next node and puts its children on the stack. -/
def Walk.step (f : Forest) : Walk → Walk
  | ⟨visited, []⟩ => ⟨visited, []⟩
  | ⟨visited, n :: rest⟩ => ⟨visited ++ [n], f.children n ++ rest⟩

/-- The walk that starts at a node, after a number of steps. -/
def walk (f : Forest) (n : NodeId) (steps : Nat) : Walk := (Walk.step f)^[steps] ⟨[], [n]⟩

/-- **From any stack** the walk visits the contents of the nodes on it, one after the other, and
the stack is empty no earlier than that. -/
theorem Orderly.iterate_step (hf : f.Orderly) (k : Nat) (visited pending : List NodeId)
    (hp : ∀ n ∈ pending, f.contains n = true) (hk : k ≤ (pending.flatMap f.contents).length) :
    ((Walk.step f)^[k] ⟨visited, pending⟩).visited =
        visited ++ (pending.flatMap f.contents).take k ∧
      (((Walk.step f)^[k] ⟨visited, pending⟩).pending = [] ↔
        k = (pending.flatMap f.contents).length) := by
  induction k generalizing visited pending with
  | zero =>
    refine ⟨by simp, ?_⟩
    cases pending with
    | nil => simp
    | cons n rest =>
      rw [List.forall_mem_cons] at hp
      simp [hf.contents_eq hp.1]
  | succ k ih =>
    cases pending with
    | nil => simp at hk
    | cons n rest =>
      rw [List.forall_mem_cons] at hp
      -- The contents of the next node are itself and those of its children.
      have hnext : (n :: rest).flatMap f.contents =
          n :: (f.children n ++ rest).flatMap f.contents := by
        rw [List.flatMap_cons, hf.contents_eq hp.1, List.flatMap_append]
        rfl
      rw [hnext, List.length_cons] at hk
      obtain ⟨hvisited, hpending⟩ := ih (visited ++ [n]) (f.children n ++ rest) (fun c hc => by
        rcases List.mem_append.mp hc with hc | hc
        · exact ((hf.linked.mem_children_iff hf.shaped).mp hc).contains
        · exact hp.2 c hc) (by omega)
      rw [Function.iterate_succ_apply, Walk.step, hvisited, hpending, hnext]
      simp

/-- **The walk ends**, after as many steps as there are contents, and has visited these. -/
theorem Orderly.walk_eq (hf : f.Orderly) (hn : f.contains n = true) :
    f.walk n (f.contents n).length = ⟨f.contents n, []⟩ ∧
      ∀ k < (f.contents n).length, (f.walk n k).pending ≠ [] := by
  have hstack : [n].flatMap f.contents = f.contents n := by simp
  have hsteps := fun k hk => hf.iterate_step k [] [n] (by simpa using hn) hk
  rw [hstack] at hsteps
  constructor
  · obtain ⟨hvisited, hpending⟩ := hsteps _ (Nat.le_refl _)
    rw [List.nil_append, List.take_length] at hvisited
    exact congrArg₂ Walk.mk hvisited (hpending.mpr rfl)
  · exact fun k hk hnil => Nat.ne_of_lt hk ((hsteps k (Nat.le_of_lt hk)).2.mp hnil)

end Forest

/-- **The contents of a node**, in every reachable document in which places and slots agree and
climbs end, whatever the schema: a walk with a stack ends after as many steps as there are
contents, which are no more than there are nodes, and has visited just these; the node is the
first of them, and the contents of its children follow in order; no node is among them twice; and
a node is among them exactly if a climb from it meets the node. -/
theorem Document.Reachable.contents_walked {declarations : List TypeDeclaration}
    (hb : Schema.build declarations = .ok schema) (h : d.Reachable schema fun _ _ => True)
    (ha : d.forest.Agrees) (hends : ∀ n, ∃ k, d.forest.ancestor k n = none)
    (hn : d.forest.contains n = true) :
    (d.forest.walk n (d.forest.contents n).length = ⟨d.forest.contents n, []⟩ ∧
        (∀ k < (d.forest.contents n).length, (d.forest.walk n k).pending ≠ []) ∧
        (d.forest.contents n).length ≤ d.forest.nodes.length) ∧
      d.forest.contents n = n :: (d.forest.children n).flatMap d.forest.contents ∧
      (d.forest.contents n).Nodup ∧
      ∀ x, (x ∈ d.forest.contents n ↔ d.forest.isWithin x n = true) ∧
        (d.forest.isWithin x n = true ↔ ∃ k, d.forest.ancestor k x = some n) := by
  have hf := h.orderly (Schema.coherent_of_build hb) ha hends
  obtain ⟨hwalk, hbefore⟩ := hf.walk_eq hn
  refine ⟨⟨hwalk, hbefore, hf.length_contents_le⟩, hf.contents_eq hn, hf.nodup_contents,
    fun x => ⟨?_, ?_⟩⟩
  · rw [hf.mem_contents, Forest.isWithin_iff hf.acyclic]
    exact and_iff_right hn
  · rw [Forest.isWithin_iff hf.acyclic, Forest.within_iff_ancestor]

/-- Two beads, of which the second one holds the first one, as the default has it. -/
def Necklace.strung : Document Unit :=
  Necklace.blank.after [.set ⟨0⟩ next .null, .create "Bead", .unset ⟨1⟩ next]

/-- From the second bead the walk takes two steps. -/
theorem Document.Reachable.contents_walked_strung :
    Necklace.strung.forest.walk ⟨1⟩ 2 = ⟨[⟨1⟩, ⟨0⟩], []⟩ ∧
      Necklace.strung.forest.isWithin ⟨0⟩ ⟨1⟩ = true := by
  have hb : Schema.build Necklace.types = .ok Necklace.schema := rfl
  have h : Necklace.strung.Reachable Necklace.schema fun _ _ => True :=
    .edit _ _ (.edit _ _ (.edit _ _ (.new "Bead" () Necklace.blank rfl) trivial) trivial) trivial
  have ha : Necklace.strung.forest.Agrees :=
    (h.shaped (Schema.coherent_of_build hb)).agrees_iff.mpr (by decide +kernel)
  have hends :=
    Forest.acyclic_iff_climbs_end.mp (by decide +kernel : Necklace.strung.forest.Acyclic)
  obtain ⟨⟨hwalk, -⟩, -, -, hmem⟩ := Document.Reachable.contents_walked hb h ha hends
    (n := ⟨1⟩) (by decide +kernel)
  have hcontents : Necklace.strung.forest.contents ⟨1⟩ = [⟨1⟩, ⟨0⟩] := by decide +kernel
  rw [hcontents] at hwalk
  exact ⟨hwalk, (hmem ⟨0⟩).1.mp (by rw [hcontents]; decide)⟩

/-! ## Walks in the middle of edits -/

/-- **The audience has been shown the forest**: a change was accepted or refused in it, or it is
the one there is. -/
def Document.Shown (d : Document τ) (f : Forest) : Prop :=
  f = d.forest ∨ (∃ a ∈ d.history, a.forest = f) ∨ ∃ v ∈ d.vetoes, v.forest = f

namespace Document.Shown

variable {d' : Document τ} {f : Forest} {N : Notice}

/-- Asking in the forest there is shows no other. -/
theorem of_asking {l : List Announcement} {k : List (Veto τ)} (hf : d'.forest = d.forest)
    (hl : d'.history = d.history ++ l) (hl' : d'.vetoes = d.vetoes ++ k)
    (hall : ∀ a ∈ l, a.forest = d.forest) (hall' : ∀ v ∈ k, v.forest = d.forest)
    (h : d'.Shown f) : d.Shown f := by
  rcases h with h | ⟨a, ha, h⟩ | ⟨v, hv, h⟩
  · exact .inl (h.trans hf)
  · rw [hl, List.mem_append] at ha
    exact ha.elim (fun ha => .inr (.inl ⟨a, ha, h⟩)) fun ha => .inl (h.symm.trans (hall a ha))
  · rw [hl', List.mem_append] at hv
    exact hv.elim (fun hv => .inr (.inr ⟨v, hv, h⟩)) fun hv => .inl (h.symm.trans (hall' v hv))

theorem forest_of_noted {res : Except Fault Unit} :
    ∀ v ∈ Veto.noted N d res, v.forest = d.forest := by
  intro v hv
  cases res with
  | ok _ => exact absurd hv List.not_mem_nil
  | error e => rw [List.mem_singleton.mp hv]

theorem of_poll (h : (Edit.poll N d).2.Shown f) : d.Shown f := by
  refine of_asking (forest_poll N) (l := []) ?_ (k := Veto.noted N d (Edit.poll N d).1) ?_
    (List.forall_mem_nil _) forest_of_noted h <;> rw [(poll_apply N d).2]
  exact (List.append_nil _).symm

theorem of_announce (h : (Edit.announce N d).2.Shown f) : d.Shown f := by
  refine of_asking (forest_announce N)
    (l := if (Edit.announce N d).1 = .ok () then [⟨N, d.forest⟩] else []) ?_
    (k := Veto.noted N d (Edit.announce N d).1) ?_ (fun a ha => ?_) forest_of_noted h
  · rw [(announce_apply N d).2]
  · rw [(announce_apply N d).2]
  · split at ha
    · rw [List.mem_singleton.mp ha]
    · exact absurd ha List.not_mem_nil

/-- Nothing was announced in a new document. -/
theorem of_new {rootType : String} {memory : τ} (hnew : Document.new schema rootType memory = .ok d)
    (h : d.Shown f) : f = d.forest := by
  simp only [Document.new, bind_eq_ok, pure_eq_ok, Except.ok.injEq] at hnew
  obtain ⟨_, -, ⟨_, _⟩, -, rfl⟩ := hnew
  rcases h with h | ⟨a, ha, -⟩ | ⟨v, hv, -⟩
  · exact h
  · exact absurd ha List.not_mem_nil
  · exact absurd hv List.not_mem_nil

end Document.Shown

/-- A step shows no other forest than the one it leaves. -/
theorem Step.shown {strict : Prop} {d' : Document τ} {f : Forest} (h : Step strict d d')
    (hf : d'.Shown f) : d.Shown f ∨ f = d'.forest := by
  cases h with
  | asked N => exact .inl hf.of_poll
  | refused N e h => exact .inl hf.of_announce
  | changed N g old new freed taken h hc hw hm =>
    -- The change was announced in the forest before, and only then written.
    rcases hf with hf | ha
    · exact .inr hf
    · exact .inl (Document.Shown.of_announce (.inr ha))
  | unwritten N g h hn hg ho hm => exact .inl hf.of_announce
  | created t n f' h =>
    rcases hf with hf | ha
    · exact .inr hf
    · exact .inl (.inr ha)
  | counted k => exact .inl hf

/-- **The forests that are shown** in between are as sound as those that were shown before. -/
theorem Chain.shown_sound {strict : Prop} {d' : Document τ} (h : Chain strict d d')
    (hd : ∀ f, d.Shown f → f.Sound strict) : ∀ f, d'.Shown f → f.Sound strict := by
  induction h with
  | refl => exact hd
  | tail _ hs ih =>
    intro f hf
    rcases hs.shown hf with hf | rfl
    · exact ih f hf
    · exact hs.sound (ih _ (.inl rfl))

/-- **Walks and climbs end** in a sound forest. -/
theorem Forest.Sound.walks_end {f : Forest} (hf : f.Sound True) :
    (∀ n, f.contains n = true → f.walk n (f.contents n).length = ⟨f.contents n, []⟩) ∧
      ∀ n, ∃ k, f.ancestor k n = none :=
  have horderly : f.Orderly := ⟨hf.shaped, hf.linked trivial, hf.acyclic⟩
  ⟨fun _ hn => (horderly.walk_eq hn).1, acyclic_iff_climbs_end.mp hf.acyclic⟩

end TrackedGraph
