/-
How an edit ends.

An edit is a function of the document, so what it does is an equation; but it is made
of parts that may each fail, and a proof that rewrites with equations splits on every
one of them. `Ends` puts the question the other way round: a condition on the result and
on the document that is left. It goes through a sequence of edits by one rule
(`Ends.bind`), and each of the steps that edits are made of has one lemma here. The two
insertions differ only in how they are admitted: what follows is the same edit (`bringIn`).
-/
import TrackedGraph.Proofs.Forest.Sound
import TrackedGraph.Document.Edit

set_option autoImplicit false

namespace TrackedGraph.Edit

variable {τ α β : Type} {d : Document τ} {x : Edit τ α} {k : α → Edit τ β}

/-- The condition holds of the result of the edit and of the document it leaves. -/
def Ends (x : Edit τ α) (d : Document τ) (R : Except Fault α → Document τ → Prop) : Prop :=
  R (x d).1 (x d).2

section rules

variable {R S : Except Fault α → Document τ → Prop} {Q : Except Fault β → Document τ → Prop}

theorem Ends.mono (h : x.Ends d R) (hRS : ∀ r d', R r d' → S r d') : x.Ends d S := hRS _ _ h

theorem Ends.of_eq {r : Except Fault α} {d' : Document τ} (h : x d = (r, d')) (hr : R r d') :
    x.Ends d R := by
  unfold Ends
  rw [h]
  exact hr

theorem bind_apply : (x >>= k) d = match x d with
    | (.ok a, d') => k a d'
    | (.error e, d') => (.error e, d') := by
  show ExceptT.bindCont k (x d).1 (x d).2 = _
  rcases x d with ⟨r, d'⟩
  cases r <;> rfl

/-- **One edit after another.** -/
theorem Ends.bind (hx : x.Ends d R) (hok : ∀ a d', R (.ok a) d' → (k a).Ends d' Q)
    (herr : ∀ e d', R (.error e) d' → Q (.error e) d') : (x >>= k).Ends d Q := by
  unfold Ends at hx ⊢
  rw [bind_apply]
  rcases hxd : x d with ⟨r, d'⟩
  rw [hxd] at hx
  cases r with
  | ok a => exact hok a d' hx
  | error e => exact herr e d' hx

theorem bind_of_ok {a : α} {s : Document τ} (h : x d = (.ok a, s)) : (x >>= k) d = k a s := by
  rw [bind_apply, h]

theorem bind_of_error {e : Fault} {d' : Document τ} (h : x d = (.error e, d')) :
    (x >>= k) d = (.error e, d') := by
  rw [bind_apply, h]

/-- Of an edit in two parts that succeeds, both do. -/
theorem ok_of_bind {b : β} (h : ((x >>= k) d).1 = .ok b) :
    ∃ a, (x d).1 = .ok a ∧ (k a (x d).2).1 = .ok b := by
  rw [bind_apply] at h
  rcases hx : x d with ⟨e | a, d'⟩ <;> rw [hx] at h
  · exact absurd h (by simp)
  · exact ⟨a, rfl, h⟩

/-- A question before an edit that succeeds is answered. -/
theorem ok_of_bind_query {q : Forest → Except Fault α} {b : β}
    (h : ((Edit.query q >>= k) d).1 = .ok b) : ∃ a, q d.forest = .ok a ∧ (k a d).1 = .ok b :=
  ok_of_bind h

theorem snd_bind_pure {g : α → β} :
    ((x >>= fun a => pure (g a) : Edit τ β) d).2 = (x d).2 := by
  rw [bind_apply]
  rcases x d with ⟨_ | _, d'⟩ <;> rfl

/-- A question to the forest leaves the document as it is. -/
theorem Ends.query {q : Forest → Except Fault α} (hok : ∀ a, q d.forest = .ok a → (k a).Ends d Q)
    (herr : ∀ e, q d.forest = .error e → Q (.error e) d) : (Edit.query q >>= k).Ends d Q := by
  cases hq : q d.forest with
  | ok a => exact .of_eq (bind_of_ok (congrArg (·, d) hq)) (hok a hq)
  | error e => exact .of_eq (bind_of_error (congrArg (·, d) hq)) (herr e hq)

theorem ends_bind_of_ok {a : α} {s : Document τ} (h : x d = (.ok a, s)) :
    (x >>= k).Ends d Q ↔ (k a).Ends s Q := by
  unfold Ends
  rw [bind_of_ok h]

theorem ends_query_of_ok {q : Forest → Except Fault α} {a : α} (h : q d.forest = .ok a) :
    (Edit.query q >>= k).Ends d Q ↔ (k a).Ends d Q :=
  ends_bind_of_ok (congrArg (·, d) h)

theorem Ends.mending {repair : Edit τ Unit} (hok : ∀ a d', R (.ok a) d' → S (.ok a) d')
    (herr : ∀ e d', R (.error e) d' → repair.Ends d' fun _ d'' => S (.error e)
      { d'' with repairRefusals := d'.repairRefusals + (d''.refusals - d'.refusals) })
    (hx : x.Ends d R) : (x.mending repair).Ends d S := by
  unfold Ends at hx
  unfold Ends Edit.mending
  rcases hxd : x d with ⟨r, d'⟩
  rw [hxd] at hx
  cases r with
  | ok a => exact hok a d' hx
  | error e => exact herr e d' hx

end rules

/-! ## What an edit keeps -/

/-- The edit keeps a condition on the document, however it ends. -/
def Keeps (P : Document τ → Prop) (x : Edit τ α) : Prop := ∀ d, P d → P (x d).2

namespace Keeps

variable {P : Document τ → Prop} {y : Edit τ α}

theorem of_same (h : ∀ d, (x d).2 = d) : Keeps P x := fun d hd => by rw [h]; exact hd

theorem bind (hx : Keeps P x) (hk : ∀ a, Keeps P (k a)) : Keeps P (x >>= k) := by
  intro d hd
  have hd' := hx d hd
  rw [bind_apply]
  rcases h : x d with ⟨_ | a, d'⟩ <;> rw [h] at hd'
  · exact hd'
  · exact hk a d' hd'

theorem ite {c : Prop} [Decidable c] (hx : Keeps P x) (hy : Keeps P y) :
    Keeps P (if c then x else y) := by
  split
  · exact hx
  · exact hy

theorem pure (a : α) : Keeps P (pure a : Edit τ α) := of_same fun _ => rfl

theorem throw (e : Fault) : Keeps P (throw e : Edit τ α) := of_same fun _ => rfl

theorem query (q : Forest → Except Fault α) : Keeps P (Edit.query q : Edit τ α) :=
  of_same fun _ => rfl

/-- After a question, only what some forest answers has to be gone on with. -/
theorem bind_query {q : Forest → Except Fault α} (hk : ∀ a, (∃ f, q f = .ok a) → Keeps P (k a)) :
    Keeps P (Edit.query q >>= k) := fun d hd =>
  Ends.query (Q := fun _ d' => P d') (fun a ha => hk a ⟨_, ha⟩ d hd) fun _ _ => hd

theorem forM_mem {ι : Type} {k : ι → Edit τ Unit} {l : List ι} (hk : ∀ i ∈ l, Keeps P (k i)) :
    Keeps P (l.forM k) := by
  induction l with
  | nil => exact .pure ()
  | cons i l ih =>
    rw [List.forall_mem_cons] at hk
    exact .bind hk.1 fun _ => ih hk.2

theorem forM {ι : Type} {k : ι → Edit τ Unit} (hk : ∀ i, Keeps P (k i)) (l : List ι) :
    Keeps P (l.forM k) := .forM_mem fun i _ => hk i

end Keeps

/-- The edit keeps a condition on the document, and what it returns satisfies another one. -/
def Yields (P : Document τ → Prop) (Q : α → Prop) (x : Edit τ α) : Prop :=
  ∀ d, P d → x.Ends d fun r d' => P d' ∧ ∀ a, r = .ok a → Q a

namespace Yields

variable {P : Document τ → Prop} {Q : α → Prop} {S : β → Prop}

theorem pure {a : α} (h : Q a) : Yields P Q (pure a : Edit τ α) :=
  fun _ hd => ⟨hd, fun _ ha => Except.ok.inj ha ▸ h⟩

theorem of_keeps (hx : Keeps P x) (h : ∀ a, Q a) : Yields P Q x := fun d hd => ⟨hx d hd, fun a _ => h a⟩

theorem bind (hx : Yields P Q x) (hk : ∀ a, Q a → Yields P S (k a)) : Yields P S (x >>= k) :=
  fun d hd => Ends.bind (hx d hd) (fun a d' h => hk a (h.2 a rfl) d' h.1)
    fun _ _ h => ⟨h.1, fun _ hb => absurd hb (by simp)⟩

theorem mending {repair : Edit τ Unit} (hx : Yields P Q x) (hr : Keeps P repair)
    (hcount : ∀ d i, P d → P { d with repairRefusals := i }) : Yields P Q (x.mending repair) :=
  fun d hd => Ends.mending (fun _ _ h => h)
    (fun _ d' h => ⟨hcount _ _ (hr d' h.1), fun _ ha => absurd ha (by simp)⟩) (hx d hd)

end Yields

theorem Keeps.bind_yields {P : Document τ → Prop} {Q : α → Prop} (hx : Yields P Q x)
    (hk : ∀ a, Q a → Keeps P (k a)) : Keeps P (x >>= k) :=
  fun d hd => (hx.bind (fun a ha => .of_keeps (hk a ha) fun _ => trivial) d hd).1

theorem Keeps.mending {P : Document τ → Prop} {repair : Edit τ Unit} (hx : Keeps P x)
    (hr : Keeps P repair) (hcount : ∀ d i, P d → P { d with repairRefusals := i }) :
    Keeps P (x.mending repair) :=
  fun d hd => (Yields.mending (.of_keeps hx fun _ => trivial) hr hcount d hd).1

/-! ## Writing -/

theorem setPlace_apply {n : NodeId} {place : Option Place} (h : d.forest.contains n = true) :
    setPlace n place d = (.ok (), { d with forest := d.forest.setPlace n place }) := by
  obtain ⟨t, ht⟩ := Forest.contains_iff.mp h
  obtain ⟨node, hnode, -⟩ := Forest.typeOf_eq_ok.mp ht
  unfold setPlace
  rw [Forest.node_eq_ok.mpr hnode]

theorem modifySlot_apply {n : NodeId} {p : PropertyId} {s : Slot} {g : Slot → Slot}
    (h : d.forest.slot n p = .ok s) :
    modifySlot n p g d = (.ok (), { d with forest := d.forest.setSlot n p (g s) }) := by
  obtain ⟨node, hnode, hs⟩ := Forest.slot_eq_ok.mp h
  unfold modifySlot
  rw [Forest.node_eq_ok.mpr hnode]
  simp only [hs]

theorem unlink_apply {cs : List NodeId} (h : ∀ c ∈ cs, d.forest.contains c = true) :
    unlink cs d = (.ok (), { d with forest := d.forest.free cs }) := by
  induction cs generalizing d with
  | nil => rfl
  | cons c cs ih =>
    rw [List.forall_mem_cons] at h
    refine (bind_of_ok (setPlace_apply h.1)).trans (ih fun x hx => ?_)
    rw [Forest.contains_congr (Forest.typeOf_setPlace none)]
    exact h.2 x hx

/-- Places of children written one after the other are those of `Forest.take`. -/
theorem forM_setPlace_apply {n : NodeId} {cs : List (NodeId × PropertyId)}
    (h : ∀ c ∈ cs, d.forest.contains c.1 = true) :
    cs.forM (fun c => setPlace c.1 (some ⟨n, c.2⟩)) d =
      (.ok (), { d with forest := d.forest.take n cs }) := by
  induction cs generalizing d with
  | nil => rfl
  | cons c cs ih =>
    rw [List.forall_mem_cons] at h
    refine (bind_of_ok (setPlace_apply h.1)).trans (ih fun x hx => ?_)
    rw [Forest.contains_congr (Forest.typeOf_setPlace _)]
    exact h.2 x hx

/-- The end of every edit: the places are written, then the slot, and the generation goes
up. -/
theorem write_apply {n : NodeId} {p : PropertyId} {s : Slot} {g : Slot → Slot}
    (freed : List NodeId) (taken : List (NodeId × PropertyId))
    (h : d.forest.slot n p = .ok s) :
    (do modifySlot n p g; advance : Edit τ Unit)
        { d with forest := (d.forest.free freed).take n taken } =
      (.ok (), { d with
        forest := d.forest.write n p (g s) freed taken
        generation := d.generation + 1 }) := by
  have hs : ((d.forest.free freed).take n taken).slot n p = .ok s := by
    rw [Forest.slot_take, Forest.slot_free]
    exact h
  exact (bind_of_ok (modifySlot_apply hs)).trans rfl

theorem write_return_apply {n : NodeId} {p : PropertyId} {s : Slot} {g : Slot → Slot} {a : α}
    (freed : List NodeId) (taken : List (NodeId × PropertyId))
    (h : d.forest.slot n p = .ok s) :
    (do modifySlot n p g; advance; return a : Edit τ α)
        { d with forest := (d.forest.free freed).take n taken } =
      (.ok a, { d with
        forest := d.forest.write n p (g s) freed taken
        generation := d.generation + 1 }) := by
  have hs : ((d.forest.free freed).take n taken).slot n p = .ok s := by
    rw [Forest.slot_take, Forest.slot_free]
    exact h
  exact (bind_of_ok (modifySlot_apply hs)).trans rfl

/-! ## Insertions -/

/-- An insertion once it is admitted: the audience is asked, the child that comes in is
released, and the slot is changed. -/
def bringIn (restore : List Whereabouts → Edit τ Unit) (N : Notice) (incoming : Option NodeId)
    (q : PropertyId) (w : Slot → Slot) : Edit τ Unit := do
  poll N
  let moved ← match incoming with
    | some child => release child
    | none => pure []
  (announce N).mending (restore moved)
  incoming.forM (setPlace · (some ⟨N.node, q⟩))
  modifySlot N.node N.property w
  advance

theorem insertBy_eq {restore : List Whereabouts → Edit τ Unit} {n : NodeId} {p : PropertyId}
    {i : Nat} {item : Value} : insertBy restore n p i item = (do
      let incoming ← query (·.admitItem n p i item)
      let slot ← query (·.slot n p)
      bringIn restore ⟨n, p, .add, .null, item, some i, slot.isSet⟩ incoming p
        (·.insertItem i item)) := rfl

theorem insertMixedBy_eq {restore : List Whereabouts → Edit τ Unit} {n : NodeId} {i : Nat}
    {member : PropertyId} {v : Value} : insertMixedBy restore n i member v = (do
      let (mixed, incoming) ← query (·.admitEntry n i member v)
      let slot ← query (·.slot n mixed)
      bringIn restore ⟨n, mixed, .add, .null, .mixed [⟨member, v⟩], some i, slot.isSet⟩ incoming
        member (·.insertEntry i ⟨member, v⟩)) := rfl

end TrackedGraph.Edit
