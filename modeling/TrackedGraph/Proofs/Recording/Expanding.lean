/-
What a recorded sequence says about the members.

The prior states of a node are the first states that were recorded of its properties. Where mixed
content is among them, a state follows for each member that has an entry in the recorded sequence.
Such a state is worked out from the record alone, while `Forest.get` reads the value of a member
off the slot that holds the sequence at present. Both are to agree: what follows is what the
members would answer if the slot held the recorded sequence (`Forest.Unfolds`).

This needs no more of a journal than that a record of mixed content holds a sequence, and that
what the journal remembers was computed from the records that it has. Recorders see to the former,
for they read what they record off slots. It stays so whatever else is done with the journal:
sessions, reductions under any policy, and questions (`Document.Journaled`). Nothing is asked of the
defaults or the places.
-/
import TrackedGraph.Proofs.Document.Interleaving
import TrackedGraph.Proofs.Journal.Reducing
import TrackedGraph.Proofs.Recording.Using

set_option autoImplicit false

namespace TrackedGraph

open Edit (Keeps)

variable {τ : Type} {d : Document τ} {f f' : Forest} {j : Journal} {n : NodeId} {p q : PropertyId}
  {r x : PriorState} {rs ms : List PriorState} {es : MixedContent} {t : TypeId} {g k : Feature}
  {features : List Feature} {s : Slot}

/-! ## The states of the members -/

theorem MixedContent.ofMember_ne_nil : es.ofMember q ≠ [] ↔ ∃ e ∈ es, e.property = q := by
  unfold ofMember
  rw [Ne, List.map_eq_nil_iff, List.filter_eq_nil_iff]
  simp

namespace Journal

theorem mem_memberStates : x ∈ memberStates features r ↔ ∃ i k v vs, features[i]? = some k ∧
    k.owner = some r.property ∧ MixedContent.ofMember r.value.entries ⟨i⟩ = v :: vs ∧
    x = ⟨r.node, ⟨i⟩, if k.many then .list (v :: vs) else v, true⟩ := by
  unfold memberStates
  rw [List.mem_filterMap]
  constructor
  · rintro ⟨⟨k, i⟩, hk, hx⟩
    dsimp only at hx
    split at hx
    · next ho =>
      cases hvs : MixedContent.ofMember r.value.entries ⟨i⟩ with
      | nil =>
        rw [hvs] at hx
        exact absurd hx (by simp)
      | cons v vs =>
        rw [hvs] at hx
        exact ⟨i, k, v, vs, List.mem_zipIdx_iff_getElem?.mp hk, ho, hvs,
          (Option.some.inj hx).symm⟩
    · exact absurd hx (by simp)
  · rintro ⟨i, k, v, vs, hk, ho, hvs, rfl⟩
    refine ⟨(k, i), List.mem_zipIdx_iff_getElem?.mpr hk, ?_⟩
    dsimp only
    rw [if_pos ho, hvs]

/-- **The states of the members** are in the order of the features. -/
theorem pairwise_memberStates :
    (memberStates features r).Pairwise (·.property.index < ·.property.index) := by
  have hpositions : features.zipIdx.Pairwise (·.2 < ·.2) := by
    apply List.pairwise_map.mp
    rw [List.zipIdx_map_snd]
    exact List.pairwise_lt_range'
  unfold memberStates
  refine List.Pairwise.filterMap _ ?_ hpositions
  rintro ⟨k, i⟩ ⟨k', i'⟩ hlt x hx y hy
  dsimp only at hx hy hlt
  -- Both states are of the property at their position.
  split at hx
  · split at hx
    · exact absurd hx (by simp)
    · obtain rfl := Option.some.inj hx
      split at hy
      · split at hy
        · exact absurd hy (by simp)
        · obtain rfl := Option.some.inj hy
          exact hlt
      · exact absurd hy (by simp)
  · exact absurd hx (by simp)

end Journal

/-! ## What follows the states of a node -/

namespace Forest

/-- **The states that follow** the states of a node: none if there is no mixed content among
these. Otherwise there is one for each member with an entry in the recorded sequence, in the order
of declaration, and says what the member would answer if the slot held the sequence. -/
structure Unfolds (f : Forest) (n : NodeId) (rs ms : List PriorState) : Prop where
  plain : (∀ r ∈ rs, ∀ g, f.feature n r.property = .ok g → g.isMixed = false) → ms = []
  mixed : ∀ r ∈ rs, ∀ g, f.feature n r.property = .ok g → g.isMixed = true →
    ∃ es, r.value = .mixed es ∧ ms.Pairwise (·.property.index < ·.property.index) ∧
      (∀ q, (∃ x ∈ ms, x.property = q) ↔
        (∃ k, f.feature n q = .ok k ∧ k.owner = some r.property) ∧ ∃ e ∈ es, e.property = q) ∧
      ∀ x ∈ ms, x.node = n ∧ x.isSet = true ∧ ∀ isSet,
        (f.setSlot n r.property ⟨.mixed es, isSet⟩).get n x.property = .ok x.value ∧
        (f.setSlot n r.property ⟨.mixed es, isSet⟩).isSet n x.property = .ok true

/-- The property of the state exists, and if it is mixed content the state holds a sequence. -/
def Unfoldable (f : Forest) (x : PriorState) : Prop :=
  ∃ g, f.feature x.node x.property = .ok g ∧ (g.isMixed = true → ∃ es, x.value = .mixed es)

theorem Unfoldable.grown (h : f.Unfoldable x) (hf : f.GrownFrom f') : f'.Unfoldable x := by
  obtain ⟨g, hg, hes⟩ := h
  exact ⟨g, hf.feature hg, hes⟩

/-- **What is read off a slot** can be unfolded. -/
theorem Shaped.unfoldable (hf : f.Shaped) (hs : f.slot n p = .ok s) (isSet : Bool) :
    f.Unfoldable ⟨n, p, s.value, isSet⟩ := by
  obtain ⟨g, hg⟩ := hf.feature_of_slot n p s hs
  refine ⟨g, hg, fun hx => ?_⟩
  obtain ⟨es, hes, -⟩ := (hf.held n p g s hg (hf.owner_of_mixed hg hx) hs).entries hx
  exact ⟨es, hes⟩

/-- Features are found by their position. -/
theorem feature_iff (ht : f.typeOf n = .ok t) (hfs : f.schema.features t = .ok features) :
    f.feature n q = .ok k ↔ features[q.index]? = some k := by
  obtain ⟨type, htype, rfl⟩ := Schema.features_eq_ok.mp hfs
  rw [feature_eq_ok]
  constructor
  · rintro ⟨u, hu, hk⟩
    obtain rfl := ok_unique ht hu
    obtain ⟨type', htype', hk⟩ := Schema.feature_eq_ok.mp hk
    obtain rfl := Option.some.inj (htype.symm.trans htype')
    exact hk
  · exact fun hk => ⟨t, ht, Schema.feature_eq_ok.mpr ⟨type, htype, hk⟩⟩

/-- **A member answers** from the sequence that its owner is given. -/
theorem answers_setSlot (hk : f.feature n q = .ok k) (ho : k.owner = some p)
    (hs : f.slot n p = .ok s) (isSet : Bool) :
    (f.setSlot n p ⟨.mixed es, isSet⟩).get n q = .ok (if k.many then .list (es.ofMember q)
        else (es.ofMember q).head?.getD k.default) ∧
      (f.setSlot n p ⟨.mixed es, isSet⟩).isSet n q = .ok (!(es.ofMember q).isEmpty) :=
  answers_of_sequence (grownFrom_setSlot.feature hk) ho
    (sequence_eq_ok.mpr ⟨_, slot_setSlot_self hs, rfl⟩)

section members

variable (ht : f.typeOf n = .ok t) (hfs : f.schema.features t = .ok features) (hn : r.node = n)
  (hv : r.value = .mixed es)

include ht hfs hn hv

omit hn in
/-- **The members with a state** are those with an entry. -/
theorem exists_memberState_iff : (∃ x ∈ Journal.memberStates features r, x.property = q) ↔
    (∃ k, f.feature n q = .ok k ∧ k.owner = some r.property) ∧ ∃ e ∈ es, e.property = q := by
  have hentries : r.value.entries = es := by
    rw [hv]
    rfl
  rw [← MixedContent.ofMember_ne_nil]
  constructor
  · rintro ⟨x, hx, rfl⟩
    obtain ⟨i, k, v, vs, hk, ho, hvs, rfl⟩ := Journal.mem_memberStates.mp hx
    rw [hentries] at hvs
    refine ⟨⟨k, (feature_iff ht hfs).mpr hk, ho⟩, ?_⟩
    simp [hvs]
  · rintro ⟨⟨k, hk, ho⟩, hne⟩
    obtain ⟨v, vs, hvs⟩ := List.exists_cons_of_ne_nil hne
    exact ⟨_, Journal.mem_memberStates.mpr ⟨q.index, k, v, vs, (feature_iff ht hfs).mp hk, ho,
      by rw [hentries]; exact hvs, rfl⟩, rfl⟩

/-- **The state of a member** is what the member would answer. -/
theorem memberState_answers (hs : f.slot n r.property = .ok s)
    (hx : x ∈ Journal.memberStates features r) : x.node = n ∧ x.isSet = true ∧ ∀ isSet,
      (f.setSlot n r.property ⟨.mixed es, isSet⟩).get n x.property = .ok x.value ∧
      (f.setSlot n r.property ⟨.mixed es, isSet⟩).isSet n x.property = .ok true := by
  obtain ⟨i, k, v, vs, hk, ho, hvs, rfl⟩ := Journal.mem_memberStates.mp hx
  have hvs : es.ofMember ⟨i⟩ = v :: vs := by
    rw [hv] at hvs
    exact hvs
  refine ⟨hn, rfl, fun isSet => ?_⟩
  obtain ⟨hget, hset⟩ := answers_setSlot ((feature_iff ht hfs).mpr hk) ho hs isSet
  rw [hvs] at hget hset
  exact ⟨hget, hset⟩

end members

/-! ## Unfolding -/

/-- What a state adds: nothing, unless it is one of mixed content. -/
def additions (features : List Feature) (r : PriorState) : List PriorState :=
  if (features[r.property.index]?).any (·.isMixed) then Journal.memberStates features r else []

theorem additions_of_feature (ht : f.typeOf n = .ok t) (hfs : f.schema.features t = .ok features)
    (hg : f.feature n r.property = .ok g) :
    additions features r = if g.isMixed then Journal.memberStates features r else [] := by
  unfold additions
  rw [(feature_iff ht hfs).mp hg]
  rfl

/-- **Expanding** the states of a node adds to them what each of them adds. -/
theorem expand_eq (ht : f.typeOf n = .ok t) (hfs : f.schema.features t = .ok features)
    (h : ∀ r ∈ rs, ∃ g, f.feature n r.property = .ok g) :
    Journal.expand f n rs = .ok (rs ++ rs.flatMap (additions features)) := by
  have hall : rs.mapM (fun r => do
      let feature ← f.schema.feature t r.property
      return if feature.isMixed then Journal.memberStates features r else []) =
        .ok (rs.map (additions features)) := by
    apply mapM_eq_map
    intro r hr
    obtain ⟨g, hg⟩ := h r hr
    obtain ⟨u, hu, hgt⟩ := feature_eq_ok.mp hg
    obtain rfl := ok_unique ht hu
    rw [additions_of_feature ht hfs hg, hgt]
    rfl
  unfold Journal.expand
  simp only [ht, hfs, bind_ok]
  rw [hall, List.flatMap_def]
  rfl

/-- A node has one mixed content. -/
theorem Shaped.mixed_unique (hf : f.Shaped) (hg : f.feature n p = .ok g) (hx : g.isMixed = true)
    (hk : f.feature n q = .ok k) (hkx : k.isMixed = true) : q = p := by
  obtain ⟨t, ht, hgt⟩ := feature_eq_ok.mp hg
  obtain ⟨u, hu, hkt⟩ := feature_eq_ok.mp hk
  obtain rfl := ok_unique ht hu
  have hp := (hf.coherent.mixed t p g hgt hx).2.2
  have hq := (hf.coherent.mixed t q k hkt hkx).2.2
  exact Option.some.inj (hq.symm.trans hp)

/-- **Where mixed content is among the states**, what is added is what its state adds. -/
theorem flatMap_additions (hf : f.Shaped) (ht : f.typeOf n = .ok t)
    (hfs : f.schema.features t = .ok features) (hdistinct : rs.Pairwise (·.property ≠ ·.property))
    (h : ∀ r ∈ rs, ∃ g, f.feature n r.property = .ok g) (hr : r ∈ rs)
    (hg : f.feature n r.property = .ok g) (hx : g.isMixed = true) :
    rs.flatMap (additions features) = Journal.memberStates features r := by
  have hothers : ∀ y ∈ rs, y.property ≠ r.property → additions features y = [] := by
    intro y hy hne
    obtain ⟨k, hk⟩ := h y hy
    rw [additions_of_feature ht hfs hk]
    exact if_neg fun hkx => hne (hf.mixed_unique hg hx hk hkx)
  obtain ⟨before, after, rfl⟩ := List.append_of_mem hr
  obtain ⟨-, hrest, hbefore⟩ := List.pairwise_append.mp hdistinct
  obtain ⟨hafter, -⟩ := List.pairwise_cons.mp hrest
  have hleft : before.flatMap (additions features) = [] :=
    List.flatMap_eq_nil_iff.mpr fun y hy => hothers y (List.mem_append_left _ hy)
      (hbefore y hy r List.mem_cons_self)
  have hright : after.flatMap (additions features) = [] :=
    List.flatMap_eq_nil_iff.mpr fun y hy =>
      hothers y (List.mem_append_right _ (List.mem_cons_of_mem _ hy)) (hafter y hy).symm
  rw [List.flatMap_append, List.flatMap_cons, hleft, hright, List.nil_append, List.append_nil,
    additions_of_feature ht hfs hg, if_pos hx]

/-- **States of one node, each of a property of its own, unfold.** -/
theorem Shaped.expand_unfolds (hf : f.Shaped) (hne : rs ≠ []) (hn : ∀ r ∈ rs, r.node = n)
    (hdistinct : rs.Pairwise (·.property ≠ ·.property)) (hrs : ∀ r ∈ rs, f.Unfoldable r) :
    ∃ ms, Journal.expand f n rs = .ok (rs ++ ms) ∧ f.Unfolds n rs ms := by
  have hfeature : ∀ r ∈ rs, ∃ g, f.feature n r.property = .ok g := by
    intro r hr
    obtain ⟨g, hg, -⟩ := hrs r hr
    exact ⟨g, hn r hr ▸ hg⟩
  -- A node with a state has a type, whatever became of it since.
  obtain ⟨y, hy⟩ := List.exists_mem_of_ne_nil rs hne
  obtain ⟨k, hk⟩ := hfeature y hy
  obtain ⟨t, ht, hkt⟩ := feature_eq_ok.mp hk
  obtain ⟨type, htype, -⟩ := Schema.feature_eq_ok.mp hkt
  have hfs : f.schema.features t = .ok type.features :=
    Schema.features_eq_ok.mpr ⟨type, htype, rfl⟩
  refine ⟨_, expand_eq ht hfs hfeature, ?_, ?_⟩
  · intro hplain
    refine List.flatMap_eq_nil_iff.mpr fun r hr => ?_
    obtain ⟨g, hg⟩ := hfeature r hr
    rw [additions_of_feature ht hfs hg, hplain r hr g hg]
    rfl
  · intro r hr g hg hx
    obtain ⟨g', hg', hes⟩ := hrs r hr
    rw [hn r hr] at hg'
    obtain rfl := ok_unique hg hg'
    obtain ⟨es, hv⟩ := hes hx
    obtain ⟨s, hs⟩ := hf.slot_of_feature n r.property g hg
    rw [flatMap_additions hf ht hfs hdistinct hfeature hr hg hx]
    exact ⟨es, hv, Journal.pairwise_memberStates,
      fun q => exists_memberState_iff ht hfs hv,
      fun x hmem => memberState_answers ht hfs (hn r hr) hv hs hmem⟩

end Forest

/-! ## Journals that can be unfolded -/

namespace Journal

/-- **The journal stands beside the forest** with states that can be unfolded. -/
structure Legible (f : Forest) (j : Journal) : Prop where
  beside : j.Beside f
  states : ∀ y ∈ j.records, ∀ x ∈ y.2, f.Unfoldable x

theorem Legible.grown (h : j.Legible f) (hf : f.GrownFrom f') : j.Legible f' :=
  ⟨.grown hf h.beside, fun y hy x hx => (h.states y hy x hx).grown hf⟩

theorem legible_new : ({} : Journal).Legible f := ⟨.new f, fun _ hy => absurd hy List.not_mem_nil⟩

theorem Beside.recorded {N : Notice} {plan : Tracking.Plan} (h : j.Beside f) :
    (Tracking.record N plan j).Beside f := by
  have hnote : ∀ note : Journal → NodeId → Journal,
      (∀ j n, j.Beside f → (note j n).Beside f) →
      ∀ (ns : List NodeId) (j : Journal), j.Beside f → (ns.foldl note j).Beside f := by
    intro note hstep ns
    induction ns with
    | nil => exact fun _ h => h
    | cons n ns ih => exact fun j h => ih _ (hstep j n h)
  unfold Tracking.record
  split
  · exact h
  · exact .record _ (hnote Journal.noteEntry (fun _ n => .noteEntry n) _ _
      (hnote Journal.noteExit (fun _ n => .noteExit n) _ _ h))

/-- **What a recorder records** is read off a slot. -/
theorem Legible.recorded {N : Notice} {plan : Tracking.Plan} {strict : Bool} (hf : f.Shaped)
    (hplan : Tracking.plan strict f N = .ok plan) (h : j.Legible f) :
    (Tracking.record N plan j).Legible f := by
  refine ⟨h.beside.recorded, ?_⟩
  -- A suspended journal stays as it is. Any other takes one state, the one that was planned.
  cases hsuspended : j.suspended with
  | true =>
    unfold Tracking.record
    rw [if_pos hsuspended]
    exact h.states
  | false =>
    rw [(record_plan hsuspended).2]
    exact forall_appendRecord (P := fun _ x => f.Unfoldable x) h.states
      (hf.unfoldable (Tracking.plan_eq_ok hplan).2 _)

theorem Legible.written {g : Journal → Journal} (hg : Recording.Writes g) (h : j.Legible f) :
    (g j).Legible f := by
  refine ⟨.written hg h.beside, ?_⟩
  cases hg with
  | start session initial => exact fun _ hy => absurd hy List.not_mem_nil
  | forget => exact fun _ hy => absurd hy List.not_mem_nil
  | extendInitial nodes => exact h.states
  | mark seat recording suspended => exact h.states

theorem Legible.asked {generation : Nat} (question : Question) (h : j.Legible f) :
    (question.answered f generation j).Legible f := by
  refine ⟨.asked generation question h.beside, ?_⟩
  obtain ⟨_, _, _, _, hj, -, -⟩ := question.answered_frame f generation j
  rw [hj]
  exact h.states

/-- The forest has a slot for every state. -/
theorem Legible.exists_slot (hf : f.Shaped) (h : j.Legible f) :
    ∀ r ∈ j.allEarliest, ∃ s, f.slot r.node r.property = .ok s := by
  refine forall_allEarliest fun y hy x hx => ?_
  obtain ⟨g, hg, -⟩ := h.states y hy x hx
  exact hf.slot_of_feature _ _ g hg

/-- **A reduction** goes through, and leaves some of the states. -/
theorem Legible.reduced (hf : f.Shaped) (prune : Bool) (h : j.Legible f) :
    (j.reduce f prune).2.Legible f := by
  -- Without a slot for one of the states all of them would be lost.
  have hslots := h.exists_slot hf
  refine ⟨.reduced prune hslots h.beside, ?_⟩
  rw [reduce_apply f prune hslots]
  intro y hy x hx
  obtain ⟨z, hz, rfl⟩ := List.mem_map.mp (List.mem_filter.mp hy).1
  exact h.states z hz x (mem_of_mem_earliest (List.mem_filter.mp hx).1)

/-- **The prior states of a node** are the first ones that were recorded, and what follows them. -/
theorem Legible.exists_unfolding (hf : f.Shaped) (h : j.Legible f) :
    ∃ ms, (j.priorStates f n).1 = .ok (firsts (fun _ => true) (j.recordsOf n) ++ ms) ∧
      f.Unfolds n (firsts (fun _ => true) (j.recordsOf n)) ms := by
  have hfirsts : firsts (fun _ => true) (j.recordsOf n) = j.earliestOf n := by
    rw [← filter_earliest, List.filter_true]
    rfl
  have hmem : ∀ r ∈ j.earliestOf n, r ∈ j.allEarliest ∧ r.node = n :=
    fun r hr => h.beside.made.indexed.mem_earliestOf.mp hr
  -- An answer from memory is the answer that the records give.
  rw [hfirsts, h.beside.mindful.priorStates.1]
  unfold recollect
  cases hrs : j.earliestOf n with
  | nil => exact ⟨[], rfl, fun _ => rfl, fun r hr => absurd hr List.not_mem_nil⟩
  | cons y rs =>
    rw [hrs] at hmem
    refine hf.expand_unfolds (List.cons_ne_nil y rs) (fun r hr => (hmem r hr).2) ?_ fun r hr => ?_
    · rw [← hrs]
      exact pairwise_earliest
    · exact forall_allEarliest h.states r (hmem r hr).1

end Journal

/-! ## Documents with journals -/

section documents

variable {schema : Schema}

/-- **A document and its journals**: edits, whoever is told of them, what recordings write to their
journals, reductions and questions, and whatever else leaves the forest and the journals as they
are. -/
inductive Document.Journaled (schema : Schema) : Document τ → Prop
  | new (rootType : String) (memory : τ) (d : Document τ)
      (h : Document.new schema rootType memory = .ok d) : Journaled schema d
  | edit (d : Document τ) (m : Mutation) (h : Journaled schema d) : Journaled schema (m.run d).2
  | write (d : Document τ) (i : Nat) {g : Journal → Journal} (hg : Recording.Writes g)
      (h : Journaled schema d) : Journaled schema (Edit.modifyJournal i g d).2
  | reduce (d : Document τ) (i : Nat) (prune : Bool) (h : Journaled schema d) :
      Journaled schema (Edit.reduceJournal i prune d).2
  | ask (d : Document τ) (a : Recording) (question : Journal.Question) (h : Journaled schema d) :
      Journaled schema (a.ask question d).2
  | other (d d' : Document τ) (h : Journaled schema d) (hf : d'.forest = d.forest)
      (hr : d'.root = d.root) (hj : ∀ i, d'.audience.journal i = d.audience.journal i) :
      Journaled schema d'

namespace Document.Journaled

theorem reachable (h : d.Journaled schema) : d.Reachable schema fun _ _ => True := by
  induction h with
  | new rootType memory d h => exact .new rootType memory d h
  | edit d m _ ih => exact .edit d m ih trivial
  | write d i hg _ ih => exact .other d _ ih rfl rfl
  | reduce d i prune _ ih => exact .other d _ ih rfl rfl
  | ask d a question _ ih => exact .other d _ ih rfl rfl
  | other d d' _ hf hr _ ih => exact .other d d' ih hf hr

/-- Whatever calls on a recording are made of is among this. -/
theorem upholds {a : Recording} : a.Upholds (Journaled schema : Document τ → Prop) where
  edits := fun m d => .edit d m
  audience := fun g hg d h => .other d _ h rfl rfl fun i => by
    show (g d.audience).2.journal i = d.audience.journal i
    unfold Audience.journal
    rw [hg]
  sessions := fun d i h => .other d _ h rfl rfl fun _ => rfl
  writes := fun g hg d => .write d _ hg
  reduces := fun d => .reduce d _ _

end Document.Journaled

/-- **A document in use** is among these. -/
theorem Document.Used.journaled (h : d.Used schema) : d.Journaled schema := by
  induction h with
  | new rootType memory d h => exact .new rootType memory d h
  | edit d m _ ih => exact .edit d m ih
  | call d a c _ ih => exact Journaled.upholds.perform c d ih
  | ask d a question _ ih => exact .ask d a question ih
  | other d d' _ hf hr _ hj ih => exact .other d d' ih hf hr hj

/-- The condition that goes along with edits: all journals can be unfolded. -/
def Journal.cargo : Edit.Cargo τ where
  Holds := fun d => ∀ i, (d.audience.journal i).Legible d.forest
  poll := fun d N _ h i => by
    rw [journal_poll, forest_poll]
    exact h i
  announce := fun d N hf h i => by
    rw [forest_announce]
    exact journal_announced (P := fun j => j.Legible d.forest)
      (fun _ _ _ hplan hj => hj.recorded hf hplan) (h i)
  grow := fun _ _ hf h i => (h i).grown hf
  advance := fun _ h => h
  repair := fun _ _ h => h

/-- A journal may be written so that it can be unfolded. -/
theorem Document.legible_setJournal {i : Nat} (h : ∀ i, (d.audience.journal i).Legible d.forest)
    (hj : j.Legible d.forest) (m : Nat) :
    ((d.audience.setJournal i j).journal m).Legible d.forest := by
  rw [Audience.journal_setJournal]
  split
  · exact hj
  · exact h m

variable {declarations : List TypeDeclaration} (hb : Schema.build declarations = .ok schema)

include hb

/-- **All journals can be unfolded**, at any time. -/
theorem Document.Journaled.legible (h : d.Journaled schema) (i : Nat) :
    (d.audience.journal i).Legible d.forest := by
  have hc := Schema.coherent_of_build hb
  induction h generalizing i with
  | new rootType memory d h =>
    rw [journal_new h]
    exact Journal.legible_new
  | edit d m h ih =>
    -- While the edit goes on others may be told, and the forest may grow.
    exact (Edit.Carries.mutation (P := Journal.cargo) m d
      ⟨ih, h.reachable.shaped hc, .refl _⟩).1 i
  | write d k hg _ ih => exact legible_setJournal ih (.written hg (ih k)) i
  | reduce d k prune h ih =>
    exact legible_setJournal ih (.reduced (h.reachable.shaped hc) prune (ih k)) i
  | ask d a question _ ih => exact legible_setJournal ih (.asked question (ih _)) i
  | other d d' _ hf _ hj ih =>
    rw [hj, hf]
    exact ih i

/-- **Prior states of members are what the members would have answered.** Whatever was recorded,
reduced and asked before, the prior states of a node are the first state that was recorded of each
property, in order of time, and after them the states of the members of mixed content as the
forest would answer them if the slot held what was recorded. -/
theorem Document.Journaled.priorStates_unfold (h : d.Journaled schema) (i : Nat) (n : NodeId) :
    let j := d.audience.journal i
    let rs := Journal.firsts (fun _ => true) (j.recordsOf n)
    ∃ ms, (j.priorStates d.forest n).1 = .ok (rs ++ ms) ∧ d.forest.Unfolds n rs ms :=
  (h.legible hb i).exists_unfolding (h.reachable.shaped (Schema.coherent_of_build hb))

end documents

/-! ## An example -/

namespace Letter

/-- Letters with a body of lines, among which there may be a stamp. -/
def types : List TypeDeclaration :=
  [{ name := "Letter"
     properties := [
       { name := "body", role := .mixed },
       { name := "lines", role := .attribute, many := true, memberOf := some "body" },
       { name := "stamp", role := .attribute, memberOf := some "body" },
       { name := "subject", role := .attribute }] }]

def schema : Schema := Schema.resolve types

def body : PropertyId := ⟨0⟩

def lines : PropertyId := ⟨1⟩

def stamp : PropertyId := ⟨2⟩

def subject : PropertyId := ⟨3⟩

/-- One letter. -/
def blank : Document Unit where
  forest := ⟨schema,
    [⟨⟨0⟩, [⟨.mixed [], false⟩, ⟨.null, false⟩, ⟨.null, false⟩, ⟨.null, false⟩], none⟩]⟩
  root := ⟨0⟩
  audience := { journals := [{}], memory := () }

/-- What the body holds when the session starts. -/
def written : MixedContent :=
  [⟨lines, .str "Dear friend,"⟩, ⟨stamp, .str "red"⟩, ⟨lines, .str "Yours"⟩]

/-- A letter with a stamp is given a subject, and loses the stamp and its first line. -/
def revised : Document Unit :=
  Recording.acted ⟨0, {}⟩ blank ((written.map fun e => .edit (.addMixed ⟨0⟩ e.property e.value)) ++
    [.call .start, .edit (.set ⟨0⟩ subject (.str "Draft")), .edit (.removeMixed ⟨0⟩ 1),
      .edit (.removeMixed ⟨0⟩ 0)])

theorem build_types : Schema.build types = .ok schema := rfl

theorem blank_used : blank.Used schema :=
  .other { blank with audience := { memory := () } } _ (.new "Letter" () _ rfl) rfl rfl rfl
    fun i => by cases i <;> rfl

end Letter

open Letter in
/-- Two states were recorded first, and two follow that of the body. -/
theorem Document.Journaled.priorStates_unfold_letter :
    Schema.build types = .ok schema ∧ revised.Journaled schema ∧
    ((revised.audience.journal 0).priorStates revised.forest ⟨0⟩).1 = .ok
      [⟨⟨0⟩, subject, .null, false⟩, ⟨⟨0⟩, body, .mixed written, true⟩,
        ⟨⟨0⟩, lines, .list [.str "Dear friend,", .str "Yours"], true⟩,
        ⟨⟨0⟩, stamp, .str "red", true⟩] ∧
    (revised.forest.setSlot ⟨0⟩ body ⟨.mixed written, true⟩).get ⟨0⟩ lines =
      .ok (.list [.str "Dear friend,", .str "Yours"]) ∧
    (revised.forest.setSlot ⟨0⟩ body ⟨.mixed written, true⟩).get ⟨0⟩ stamp = .ok (.str "red") ∧
    revised.forest.get ⟨0⟩ stamp = .ok .null := by
  have hjournaled : revised.Journaled schema := (blank_used.acted _).journaled
  have hstates : ((revised.audience.journal 0).priorStates revised.forest ⟨0⟩).1 = .ok
      ([⟨⟨0⟩, subject, .null, false⟩, ⟨⟨0⟩, body, .mixed written, true⟩] ++
        [⟨⟨0⟩, lines, .list [.str "Dear friend,", .str "Yours"], true⟩,
          ⟨⟨0⟩, stamp, .str "red", true⟩]) := by decide +kernel
  have hfirsts : Journal.firsts (fun _ => true) ((revised.audience.journal 0).recordsOf ⟨0⟩) =
      [⟨⟨0⟩, subject, .null, false⟩, ⟨⟨0⟩, body, .mixed written, true⟩] := by decide +kernel
  obtain ⟨ms, hunfolded, hunfolds⟩ :=
    Document.Journaled.priorStates_unfold build_types hjournaled 0 ⟨0⟩
  rw [hfirsts] at hunfolded hunfolds
  obtain rfl := List.append_cancel_left (ok_unique hstates hunfolded)
  obtain ⟨es, hes, -, -, hanswers⟩ :=
    hunfolds.mixed ⟨⟨0⟩, body, .mixed written, true⟩ (by simp) _ rfl rfl
  obtain rfl := Value.mixed.inj hes
  have hlines := hanswers ⟨⟨0⟩, lines, .list [.str "Dear friend,", .str "Yours"], true⟩ (by simp)
  have hstamp := hanswers ⟨⟨0⟩, stamp, .str "red", true⟩ (by simp)
  exact ⟨build_types, hjournaled, hstates, (hlines.2.2 true).1, (hstamp.2.2 true).1,
    by decide +kernel⟩

end TrackedGraph
