/-
One sequence, many lists.

The members of mixed content share one sequence, and yet each of them behaves as a list of its
own: an entry that is put in or taken out at a position of the sequence concerns the list of its
member, at the position that the entries of this member before it determine
(`MixedContent.rank`), and no other list. What is to be shown of an edit is therefore only which
sequence it leaves. A child that is put in may be released from another slot first, of the same
node or of another one; since the sequence did not list the child, its slot is none of these
(`Forest.Shaped.not_concerns`). Nothing is asked of the defaults or the places.
-/
import TrackedGraph.Proofs.Document.Shaping

set_option autoImplicit false

namespace TrackedGraph

variable {τ α : Type} {d : Document τ} {n m c : NodeId} {p q : PropertyId} {v : Value} {i : Nat}

/-! ## The list of a member -/

namespace MixedContent

variable {es es' : MixedContent} {e : Entry Value}

/-- How many entries of a member stand before a position. -/
def rank (es : MixedContent) (p : PropertyId) (i : Nat) : Nat :=
  (es.take i).countP (·.property == p)

theorem ofMember_append : ofMember (es ++ es') p = es.ofMember p ++ es'.ofMember p := by
  unfold ofMember
  rw [List.filter_append, List.map_append]

theorem ofMember_cons_self : ofMember (⟨p, v⟩ :: es) p = v :: es.ofMember p := by
  unfold ofMember
  rw [List.filter_cons_of_pos (by simp), List.map_cons]

theorem ofMember_cons_of_ne (h : e.property ≠ p) : ofMember (e :: es) p = es.ofMember p := by
  unfold ofMember
  rw [List.filter_cons_of_neg (by simpa using h)]

theorem length_ofMember_take : (ofMember (es.take i) p).length = es.rank p i := by
  unfold ofMember rank
  rw [List.length_map, List.countP_eq_length_filter]

/-- The list of a member, cut where the sequence is cut. -/
theorem ofMember_take_drop (es : MixedContent) (p : PropertyId) (i : Nat) :
    es.ofMember p = ofMember (es.take i) p ++ ofMember (es.drop i) p := by
  rw [← ofMember_append, List.take_append_drop]

theorem rank_le : es.rank p i ≤ (es.ofMember p).length := by
  rw [ofMember_take_drop es p i, List.length_append, length_ofMember_take]
  exact Nat.le_add_right _ _

/-- **An entry is put in**: its value enters the list of its member at the rank. -/
theorem ofMember_insertIdx_self (h : i ≤ es.length) :
    ofMember (es.insertIdx i ⟨p, v⟩) p = (es.ofMember p).insertIdx (es.rank p i) v := by
  rw [insertIdx_eq_take_cons_drop h, ofMember_append, ofMember_cons_self,
    insertIdx_eq_take_cons_drop rank_le, ofMember_take_drop es p i, ← length_ofMember_take,
    List.take_left, List.drop_left]

theorem ofMember_insertIdx_of_ne (h : i ≤ es.length) (hp : p ≠ q) :
    ofMember (es.insertIdx i ⟨q, v⟩) p = es.ofMember p := by
  rw [insertIdx_eq_take_cons_drop h, ofMember_append, ofMember_cons_of_ne (Ne.symm hp),
    ← ofMember_take_drop]

/-- The list of the member of an entry, cut at the entry. -/
theorem ofMember_of_getElem? (h : es[i]? = some e) : es.ofMember e.property =
    ofMember (es.take i) e.property ++ e.value :: ofMember (es.drop (i + 1)) e.property := by
  have hcut : es = es.take i ++ ⟨e.property, e.value⟩ :: es.drop (i + 1) := eq_take_cons_drop h
  conv_lhs => rw [hcut]
  rw [ofMember_append, ofMember_cons_self]

theorem getElem?_rank (h : es[i]? = some e) :
    (es.ofMember e.property)[es.rank e.property i]? = some e.value := by
  rw [ofMember_of_getElem? h, ← length_ofMember_take]
  simp

/-- **An entry is taken out**: its value leaves the list of its member at the rank. -/
theorem ofMember_eraseIdx_self (h : es[i]? = some e) : ofMember (es.eraseIdx i) e.property =
    (es.ofMember e.property).eraseIdx (es.rank e.property i) := by
  rw [List.eraseIdx_eq_take_drop_succ, ofMember_append, List.eraseIdx_eq_take_drop_succ,
    ofMember_of_getElem? h, ← length_ofMember_take, List.take_left]
  simp

theorem ofMember_eraseIdx_of_ne (h : es[i]? = some e) (hp : p ≠ e.property) :
    ofMember (es.eraseIdx i) p = es.ofMember p := by
  have hcut := eq_take_cons_drop h
  conv_rhs => rw [hcut]
  rw [List.eraseIdx_eq_take_drop_succ, ofMember_append, ofMember_append,
    ofMember_cons_of_ne (Ne.symm hp)]

theorem any_eq (es : MixedContent) (p : PropertyId) :
    es.any (·.property == p) = !(es.ofMember p).isEmpty := by
  unfold ofMember
  induction es with
  | nil => rfl
  | cons e es ih =>
    rw [List.any_cons, ih]
    by_cases he : e.property = p
    · rw [List.filter_cons_of_pos (by simpa using he)]
      simp [he]
    · rw [List.filter_cons_of_neg (by simpa using he)]
      simp [he]

end MixedContent

/-! ## What members answer -/

namespace Forest

variable {f : Forest} {g : Feature} {es : MixedContent}

/-- **The members of the mixed content of a node answer from a sequence**: a many-valued one with
its list, a single-valued one with the first value or else its default. A member is set exactly if
its list is not empty. -/
def AnswersFrom (f : Forest) (n : NodeId) (es : MixedContent) : Prop :=
  f.mixedContent n = .ok (some es) ∧
    ∀ p g, f.feature n p = .ok g → g.owner.isSome = true →
      f.get n p = .ok (if g.many then .list (es.ofMember p)
        else (es.ofMember p).head?.getD g.default) ∧
      f.isSet n p = .ok (!(es.ofMember p).isEmpty)

/-- A member answers from the sequence of its owner. -/
theorem answers_of_sequence {k : Feature} (hk : f.feature n q = .ok k) (ho : k.owner = some p)
    (hs : f.sequence n p = .ok es) :
    f.get n q = .ok (if k.many then .list (es.ofMember q)
        else (es.ofMember q).head?.getD k.default) ∧
      f.isSet n q = .ok (!(es.ofMember q).isEmpty) := by
  constructor
  · unfold get memberValue
    rw [hk]
    simp only [ho, hs, bind_ok, pure_eq_ok]
  · unfold isSet
    rw [hk]
    simp only [ho, hs, bind_ok, pure_eq_ok, MixedContent.any_eq]

theorem Shaped.answersFrom (hf : f.Shaped) (hg : f.feature n p = .ok g) (hx : g.isMixed = true)
    (hs : f.sequence n p = .ok es) : f.AnswersFrom n es := by
  constructor
  · obtain ⟨t, ht, hgt⟩ := feature_eq_ok.mp hg
    have hm := (hf.coherent.mixed t p g hgt hx).2.2
    unfold mixedContent
    simp only [ht, hm, hs, bind_ok, pure_eq_ok]
  · intro q k hk hko
    obtain ⟨r, hr⟩ := Option.isSome_iff_exists.mp hko
    obtain rfl : r = p := hf.eq_of_mixed hg hx hk hr
    exact answers_of_sequence hk hr hs

/-- The mixed content of the node turns from one sequence into another. -/
def MixedBecomes (f f' : Forest) (n : NodeId) (es es' : MixedContent) : Prop :=
  ∃ p g, f.feature n p = .ok g ∧ g.isMixed = true ∧ f.sequence n p = .ok es ∧
    f'.sequence n p = .ok es'

theorem MixedBecomes.answersFrom {f' : Forest} {es' : MixedContent}
    (h : f.MixedBecomes f' n es es') (hf : f.Shaped) (hf' : f'.Shaped) (hgrown : GrownFrom f f') :
    f.AnswersFrom n es ∧ f'.AnswersFrom n es' := by
  obtain ⟨p, g, hg, hx, hes, hes'⟩ := h
  exact ⟨hf.answersFrom hg hx hes, hf'.answersFrom (hgrown.feature hg) hx hes'⟩

end Forest

/-! ## Where a child is that the sequence does not list -/

/-- A release from here may write the slot. -/
def Whereabouts.Concerns (w : Whereabouts) (n : NodeId) (p : PropertyId) : Prop :=
  match w.position with
  | .mixed _ => w.place.container = n
  | _ => w.place.container = n ∧ w.place.property = p

namespace Forest

variable {f : Forest} {g : Feature} {s : Slot} {w : Whereabouts}

/-- A child that mixed content does not list is not released from there. -/
theorem Shaped.not_concerns (hf : f.Shaped) (hg : f.feature n p = .ok g)
    (hx : g.isMixed = true) (hs : f.slot n p = .ok s) (hc : c ∉ s.value.nodes)
    (h : f.whereabouts c = .ok (some w)) : ¬ w.Concerns n p := by
  unfold whereabouts at h
  cases hplace : f.place? c with
  | none =>
    rw [hplace] at h
    exact absurd h (by simp)
  | some place =>
    rw [hplace] at h
    obtain ⟨k, hk, h⟩ := bind_eq_ok.mp h
    cases ho : k.owner with
    | some r =>
      simp only [ho, bind_eq_ok] at h
      obtain ⟨es, hes, h⟩ := h
      split at h
      · next i hi =>
        simp only [pure_eq_ok, Except.ok.injEq, Option.some.injEq] at h
        subst h
        -- The sequence of the node would list the child.
        rintro rfl
        obtain rfl : r = p := hf.eq_of_mixed hg hx hk ho
        obtain ⟨s', hs', hv⟩ := sequence_eq_ok.mp hes
        obtain rfl := ok_unique hs hs'
        obtain ⟨hlt, hfound, -⟩ := List.findIdx?_eq_some_iff_getElem.mp hi
        simp only [Bool.and_eq_true, beq_iff_eq] at hfound
        apply hc
        rw [hv]
        exact List.mem_filterMap.mpr ⟨es[i], List.getElem_mem hlt, hfound.2⟩
      · exact absurd h (by simp)
    | none =>
      simp only [ho] at h
      cases hm : k.many with
      | true =>
        rw [hm, if_pos rfl] at h
        obtain ⟨items, hitems, h⟩ := bind_eq_ok.mp h
        obtain ⟨k', -, hk', -, -, hx', -⟩ := itemsOf_eq_ok.mp hitems
        split at h
        · simp only [pure_eq_ok, Except.ok.injEq, Option.some.injEq] at h
          subst h
          -- Mixed content is no list, and neither is it single-valued.
          rintro ⟨rfl, rfl⟩
          obtain rfl := ok_unique hg hk'
          exact absurd (hx.symm.trans hx') (by simp)
        · exact absurd h (by simp)
      | false =>
        simp only [hm, Bool.false_eq_true, if_false, pure_eq_ok, Except.ok.injEq,
          Option.some.injEq] at h
        subst h
        rintro ⟨rfl, rfl⟩
        obtain rfl := ok_unique hg hk
        exact absurd ((hf.many_of_mixed hg hx).symm.trans hm) (by simp)

end Forest

/-! ## Edits that spare a slot -/

namespace Edit

variable {x : Edit τ α} {s : Slot} {w : Slot → Slot} {N : Notice}

/-- The edit leaves what a slot holds alone. -/
def Spares (n : NodeId) (p : PropertyId) (s : Slot) (x : Edit τ α) : Prop :=
  Keeps (fun d => d.forest.slot n p = .ok s) x

namespace Spares

theorem of_forest (h : ∀ d, (x d).2.forest = d.forest) : Spares n p s x := by
  intro d hd
  rw [h d]
  exact hd

theorem setPlace (place : Option Place) : Spares n p s (Edit.setPlace m place : Edit τ Unit) := by
  intro d hd
  unfold Edit.setPlace
  split
  · exact hd
  · exact (Forest.slot_setPlace place).trans hd

theorem modifySlot (h : (m, q) ≠ (n, p)) :
    Spares n p s (Edit.modifySlot m q w : Edit τ Unit) := by
  intro d hd
  unfold Edit.modifySlot
  split
  · exact hd
  · split
    · exact hd
    · exact (Forest.slot_setSlot_of_ne h).trans hd

theorem unlink (cs : List NodeId) : Spares n p s (Edit.unlink cs : Edit τ Unit) :=
  Keeps.forM (fun _ => setPlace none) cs

theorem overwrite_null (h : (m, q) ≠ (n, p)) (isSet : Bool) :
    Spares n p s (Edit.overwrite m q .null isSet : Edit τ Unit) :=
  Keeps.bind (.query _) fun _ => Keeps.bind (.query _) fun _ => Keeps.bind (.query _) fun cs =>
    Keeps.bind (unlink _) fun _ => Keeps.bind (Keeps.forM (fun _ => setPlace _) cs) fun _ =>
      Keeps.bind (modifySlot h) fun _ => of_forest fun _ => rfl

theorem remove (h : (m, q) ≠ (n, p)) (i : Nat) :
    Spares n p s (Edit.remove m q i : Edit τ Value) := by
  refine Keeps.bind (.query _) fun items => ?_
  split
  · exact Keeps.throw _
  · next item _ =>
    have hrest : Spares n p s (do
        Edit.modifySlot m q (·.removeItem i)
        Edit.advance
        return item : Edit τ Value) :=
      Keeps.bind (modifySlot h) fun _ => Keeps.bind (of_forest fun _ => rfl) fun _ => Keeps.pure _
    exact Keeps.bind (of_forest fun _ => forest_announce _) fun _ => Keeps.bind (.query _) fun _ =>
      Keeps.ite (Keeps.bind (unlink _) fun _ => hrest) hrest

theorem removeMixed (h : m ≠ n) (i : Nat) :
    Spares n p s (Edit.removeMixed m i : Edit τ (Entry Value)) := by
  refine Keeps.bind (.query _) fun t => Keeps.bind (.query _) fun r =>
    Keeps.bind (.query _) fun es => ?_
  have hne : (m, r) ≠ (n, p) := fun heq => h (congrArg Prod.fst heq)
  split
  · exact Keeps.throw _
  · next e _ =>
    have hrest : Spares n p s (do
        Edit.modifySlot m r (·.removeEntry i)
        Edit.advance
        return e : Edit τ (Entry Value)) :=
      Keeps.bind (modifySlot hne) fun _ => Keeps.bind (of_forest fun _ => rfl) fun _ => Keeps.pure _
    exact Keeps.bind (of_forest fun _ => forest_announce _) fun _ => Keeps.bind (.query _) fun _ =>
      Keeps.ite (Keeps.bind (unlink _) fun _ => hrest) hrest

end Spares

/-- **Releasing a child** that mixed content does not list leaves the sequence as it is. -/
theorem release_spares {g : Feature} (hf : d.forest.Shaped) (hg : d.forest.feature n p = .ok g)
    (hx : g.isMixed = true) (hs : d.forest.slot n p = .ok s) (hc : c ∉ s.value.nodes) :
    (Edit.release c).Ends d fun _ d' => d'.forest.slot n p = .ok s := by
  refine Ends.query (fun w hw => ?_) fun _ _ => hs
  cases w with
  | none => exact hs
  | some w =>
    -- The child is found in another slot, since this one does not list it.
    have hne := hf.not_concerns hg hx hs hc hw
    obtain ⟨child, ⟨m, q⟩, position⟩ := w
    cases position with
    | mixed i => exact Keeps.bind (Spares.removeMixed hne i) (fun _ => Keeps.pure _) d hs
    | listed i =>
      have hne : (m, q) ≠ (n, p) := fun heq => hne ⟨congrArg Prod.fst heq, congrArg Prod.snd heq⟩
      exact Keeps.bind (Spares.remove hne i) (fun _ => Keeps.pure _) d hs
    | single =>
      have hne : (m, q) ≠ (n, p) := fun heq => hne ⟨congrArg Prod.fst heq, congrArg Prod.snd heq⟩
      have hreplace : Spares n p s
          (Edit.replace (fun _ => return []) (fun _ => return ()) m q .null : Edit τ Unit) :=
        Keeps.bind (.query _) fun _ => Keeps.bind (.query _) fun _ =>
          Keeps.bind (Spares.of_forest fun _ => forest_poll _) fun _ =>
          Keeps.bind (Keeps.pure _) fun _ =>
          Keeps.bind (Keeps.mending (Spares.of_forest fun _ => forest_announce _) (Keeps.pure _)
            fun _ _ h => h) fun _ =>
          Keeps.bind (.query _) fun _ => Spares.overwrite_null hne _
      exact Keeps.bind hreplace (fun _ => Keeps.pure _) d hs

/-! ## What edits of mixed content leave -/

/-- **What comes in once it is admitted** goes into the slot as it was, wherever it is released
from. -/
theorem bringIn_writes {g : Feature} {restore : List Whereabouts → Edit τ Unit}
    {incoming : Option NodeId} (hf : d.forest.Shaped)
    (hg : d.forest.feature N.node N.property = .ok g) (hx : g.isMixed = true)
    (hs : d.forest.slot N.node N.property = .ok s)
    (hnew : ∀ c, incoming = some c → c ∉ s.value.nodes) :
    (bringIn restore N incoming q w).Ends d fun r d' =>
      r = .ok () → d'.forest.slot N.node N.property = .ok (w s) := by
  have hplace : Spares N.node N.property s
      (incoming.forM (Edit.setPlace · (some ⟨N.node, q⟩)) : Edit τ Unit) := by
    cases incoming with
    | none => exact Keeps.pure _
    | some c => exact Spares.setPlace _
  -- From here on the slot is as it was when the entry was admitted.
  have hend : ∀ (moved : List Whereabouts) (d₁ : Document τ),
      d₁.forest.slot N.node N.property = .ok s → (do
        (Edit.announce N).mending (restore moved)
        incoming.forM (Edit.setPlace · (some ⟨N.node, q⟩))
        Edit.modifySlot N.node N.property w
        Edit.advance : Edit τ Unit).Ends d₁ fun r d' =>
          r = .ok () → d'.forest.slot N.node N.property = .ok (w s) := by
    intro moved d₁ hs₁
    have hannounce : ((Edit.announce N).mending (restore moved)).Ends d₁ fun r d' =>
        r = .ok () → d'.forest.slot N.node N.property = .ok s := by
      apply Ends.mending (R := fun _ d' => d'.forest.slot N.node N.property = .ok s)
      · exact fun _ _ h _ => h
      · exact fun _ _ _ h => absurd h (by simp)
      · exact (congrArg (·.slot N.node N.property) (forest_announce N)).trans hs₁
    refine hannounce.bind (fun _ d₂ hs₂ => ?_) fun _ _ _ h => absurd h (by simp)
    refine Ends.bind (R := fun _ d' => d'.forest.slot N.node N.property = .ok s)
      (hplace d₂ (hs₂ rfl)) (fun _ d₃ hs₃ => ?_) fun _ _ _ h => absurd h (by simp)
    rw [ends_bind_of_ok (modifySlot_apply hs₃)]
    exact fun _ => Forest.slot_setSlot_self hs₃
  refine Ends.bind (R := fun _ d' => d'.forest = d.forest) (forest_poll N) (fun _ d₁ hd₁ => ?_)
    fun _ _ _ h => absurd h (by simp)
  have hs₁ : d₁.forest.slot N.node N.property = .ok s := by
    rw [hd₁]
    exact hs
  cases incoming with
  | none =>
    exact Ends.bind (R := fun _ d' => d'.forest.slot N.node N.property = .ok s) hs₁ hend
      fun _ _ _ h => absurd h (by simp)
  | some c =>
    rw [← hd₁] at hf hg
    exact Ends.bind (release_spares hf hg hx hs₁ (hnew c rfl)) hend
      fun _ _ _ h => absurd h (by simp)

theorem insertMixed_becomes (hf : d.forest.Shaped) : (Edit.insertMixed n i q v).Ends d fun r d' =>
    r = .ok () → ∃ es, i ≤ es.length ∧
      d.forest.MixedBecomes d'.forest n es (es.insertIdx i ⟨q, v⟩) := by
  unfold Edit.insertMixed
  rw [insertMixedBy_eq]
  refine Ends.query (fun a ha => ?_) fun _ _ h => absurd h (by simp)
  obtain ⟨p, incoming⟩ := a
  obtain ⟨k, es, hk, hko, hes, hi, -, -, hnew⟩ := Forest.admitEntry_eq_ok.mp ha
  obtain ⟨s, hs, hv⟩ := Forest.sequence_eq_ok.mp hes
  obtain ⟨g, hg, hx⟩ := hf.exists_mixed hk hko
  refine Ends.query (fun s' hs' => ?_) fun _ _ h => absurd h (by simp)
  obtain rfl := ok_unique hs hs'
  refine (bringIn_writes hf hg hx hs fun c hc => ?_).mono fun r d' hd' hok => ?_
  · obtain ⟨-, s', hs', hc⟩ := Forest.requireNewcomer_eq_ok.mp (hnew c hc)
    rw [ok_unique hs hs']
    exact hc
  · refine ⟨es, hi, p, g, hg, hx, hes, Forest.sequence_eq_ok.mpr ⟨_, hd' hok, ?_⟩⟩
    unfold Slot.insertEntry
    rw [hv]

theorem removeMixed_becomes (hf : d.forest.Shaped) : (Edit.removeMixed n i).Ends d fun r d' =>
    ∀ e, r = .ok e → ∃ es, es[i]? = some e ∧
      d.forest.MixedBecomes d'.forest n es (es.eraseIdx i) := by
  refine Ends.query (fun t ht => ?_) fun _ _ _ h => absurd h (by simp)
  refine Ends.query (fun p hp => ?_) fun _ _ _ h => absurd h (by simp)
  have hm : d.forest.schema.mixedOf? t = some p := by
    cases h : d.forest.schema.mixedOf? t with
    | none => simp [h] at hp
    | some m => simpa [h] using hp
  obtain ⟨g, hgt, hx⟩ := hf.coherent.mixedOf t p hm
  have hg : d.forest.feature n p = .ok g := Forest.feature_eq_ok.mpr ⟨t, ht, hgt⟩
  refine Ends.query (fun es hes => ?_) fun _ _ _ h => absurd h (by simp)
  obtain ⟨s, hs, hv⟩ := Forest.sequence_eq_ok.mp hes
  cases hi : es[i]? with
  | none =>
    intro e he
    have hthrown : (Except.error (.outOfBounds i es.length) : Except Fault (Entry Value)) =
      .ok e := he
    exact absurd hthrown (by simp)
  | some entry =>
    -- Whatever was announced and unlinked, the entry is taken out of the slot as it was.
    have hrest : ∀ d₁ : Document τ, d₁.forest.slot n p = .ok s → (do
        Edit.modifySlot n p (·.removeEntry i)
        Edit.advance
        return entry : Edit τ (Entry Value)).Ends d₁ fun r d' => ∀ e, r = .ok e → ∃ es,
          es[i]? = some e ∧ d.forest.MixedBecomes d'.forest n es (es.eraseIdx i) := by
      intro d₁ hs₁
      rw [ends_bind_of_ok (modifySlot_apply hs₁)]
      intro e he
      obtain rfl : entry = e := Except.ok.inj he
      refine ⟨es, hi, p, g, hg, hx, hes,
        Forest.sequence_eq_ok.mpr ⟨_, Forest.slot_setSlot_self hs₁, ?_⟩⟩
      unfold Slot.removeEntry
      rw [hv]
    have hannounced : ∀ N, (Edit.announce N d).2.forest.slot n p = .ok s := fun N =>
      (congrArg (·.slot n p) (forest_announce N)).trans hs
    refine Ends.bind (R := fun _ d' => d'.forest.slot n p = .ok s) (hannounced _)
      (fun _ d₁ hs₁ => ?_) fun _ _ _ _ h => absurd h (by simp)
    refine Ends.query (fun k _ => ?_) fun _ _ _ h => absurd h (by simp)
    by_cases hown : k.owns = true
    · rw [if_pos hown]
      exact Ends.bind (R := fun _ d' => d'.forest.slot n p = .ok s) (Spares.unlink _ d₁ hs₁)
        (fun _ => hrest) fun _ _ _ _ h => absurd h (by simp)
    · rw [if_neg hown]
      exact hrest d₁ hs₁

end Edit

/-! ## Reachable documents -/

/-- **Members of mixed content are lists of their own.** An entry that is put in at a position
enters the list of its member at the rank that this position has there, and an entry that is taken
out leaves it from there; the lists of all other members stay as they are. Before and after, every
member of the node answers from these lists. -/
theorem Document.Reachable.members_interleaved {schema : Schema}
    {declarations : List TypeDeclaration} (hb : Schema.build declarations = .ok schema)
    (h : d.Reachable schema fun _ _ => True) (n : NodeId) :
    (∀ i q v, (Edit.insertMixed n i q v d).1 = .ok () →
      ∃ es, d.forest.AnswersFrom n es ∧
        (Edit.insertMixed n i q v d).2.forest.AnswersFrom n (es.insertIdx i ⟨q, v⟩) ∧
        (∀ p g, d.forest.feature n p = .ok g →
          (Edit.insertMixed n i q v d).2.forest.feature n p = .ok g) ∧
        i ≤ es.length ∧ es.rank q i ≤ (es.ofMember q).length ∧
        MixedContent.ofMember (es.insertIdx i ⟨q, v⟩) q =
          (es.ofMember q).insertIdx (es.rank q i) v ∧
        ∀ p, p ≠ q → MixedContent.ofMember (es.insertIdx i ⟨q, v⟩) p = es.ofMember p) ∧
    ∀ i e, (Edit.removeMixed n i d).1 = .ok e →
      ∃ es, d.forest.AnswersFrom n es ∧
        (Edit.removeMixed n i d).2.forest.AnswersFrom n (es.eraseIdx i) ∧
        (∀ p g, d.forest.feature n p = .ok g →
          (Edit.removeMixed n i d).2.forest.feature n p = .ok g) ∧
        es[i]? = some e ∧ (es.ofMember e.property)[es.rank e.property i]? = some e.value ∧
        MixedContent.ofMember (es.eraseIdx i) e.property =
          (es.ofMember e.property).eraseIdx (es.rank e.property i) ∧
        ∀ p, p ≠ e.property → MixedContent.ofMember (es.eraseIdx i) p = es.ofMember p := by
  have hf := h.shaped (Schema.coherent_of_build hb)
  constructor
  · intro i q v hok
    obtain ⟨es, hi, hbecomes⟩ := Edit.insertMixed_becomes hf hok
    obtain ⟨hf', hgrown⟩ := (Edit.Carries.insertMixed (n := n) i q v).shapes d ⟨hf, .refl _⟩
    obtain ⟨hbefore, hafter⟩ := hbecomes.answersFrom hf hf' hgrown
    exact ⟨es, hbefore, hafter, fun p g => hgrown.feature, hi, MixedContent.rank_le,
      MixedContent.ofMember_insertIdx_self hi,
      fun p hp => MixedContent.ofMember_insertIdx_of_ne hi hp⟩
  · intro i e hok
    obtain ⟨es, hi, hbecomes⟩ := Edit.removeMixed_becomes hf e hok
    obtain ⟨hf', hgrown⟩ := (Edit.Carries.removeMixed (n := n) i).shapes d ⟨hf, .refl _⟩
    obtain ⟨hbefore, hafter⟩ := hbecomes.answersFrom hf hf' hgrown
    exact ⟨es, hbefore, hafter, fun p g => hgrown.feature, hi, MixedContent.getElem?_rank hi,
      MixedContent.ofMember_eraseIdx_self hi,
      fun p hp => MixedContent.ofMember_eraseIdx_of_ne hi hp⟩

namespace Notebook

/-- A page with a page of its own, a part and a mention. -/
def bound : Document Unit :=
  (blank ()).after [.create "Page", .create "Page", .create "Page", .add ⟨0⟩ pages (.node ⟨1⟩),
    .addMixed ⟨0⟩ parts (.node ⟨2⟩), .addMixed ⟨0⟩ mentions (.node ⟨3⟩)]

end Notebook

open Notebook in
/-- The page of its own becomes a part, between the part and the mention; and instead the part is
taken out. -/
theorem Document.Reachable.members_interleaved_bound :
    let d := (Edit.insertMixed ⟨0⟩ 1 parts (.node ⟨1⟩) bound).2
    let d' := (Edit.removeMixed ⟨0⟩ 0 bound).2
    Schema.build types = .ok schema ∧ bound.Reachable schema (fun _ _ => True) ∧
    (Edit.insertMixed ⟨0⟩ 1 parts (.node ⟨1⟩) bound).1 = .ok () ∧
      d.forest.get ⟨0⟩ parts = .ok (.list [.node ⟨2⟩, .node ⟨1⟩]) ∧
      d.forest.get ⟨0⟩ mentions = .ok (.list [.node ⟨3⟩]) ∧
    (Edit.removeMixed ⟨0⟩ 0 bound).1 = .ok ⟨parts, .node ⟨2⟩⟩ ∧
      d'.forest.get ⟨0⟩ parts = .ok (.list []) ∧ d'.forest.isSet ⟨0⟩ parts = .ok false := by
  intro d d'
  have h : bound.Reachable schema fun _ _ => True :=
    .edit _ _ (.edit _ _ (.edit _ _ (.edit _ _ (.edit _ _ (.edit _ _ (.new "Page" () _
      (new_eq_blank ())) trivial) trivial) trivial) trivial) trivial) trivial
  have hbody : bound.forest.mixedContent ⟨0⟩ =
      .ok (some [⟨parts, .node ⟨2⟩⟩, ⟨mentions, .node ⟨3⟩⟩]) := by decide +kernel
  have hparts : ∃ g, bound.forest.feature ⟨0⟩ parts = .ok g ∧ g.owner.isSome = true ∧
      g.many = true := ⟨_, rfl, rfl, rfl⟩
  have hmentions : ∃ g, bound.forest.feature ⟨0⟩ mentions = .ok g ∧ g.owner.isSome = true ∧
      g.many = true := ⟨_, rfl, rfl, rfl⟩
  have hinsert : (Edit.insertMixed ⟨0⟩ 1 parts (.node ⟨1⟩) bound).1 = .ok () := by decide +kernel
  have hremove : (Edit.removeMixed ⟨0⟩ 0 bound).1 = .ok ⟨parts, .node ⟨2⟩⟩ := by decide +kernel
  obtain ⟨hinserted, hremoved⟩ := Document.Reachable.members_interleaved build_types h ⟨0⟩
  obtain ⟨gp, hgp, hop, hmp⟩ := hparts
  obtain ⟨gm, hgm, hom, hmm⟩ := hmentions
  obtain ⟨es, hes, hafter, hkeeps, -⟩ := hinserted _ _ _ hinsert
  obtain ⟨es', hes', hafter', hkeeps', -⟩ := hremoved _ _ hremove
  obtain rfl : _ = es := by simpa using hbody.symm.trans hes.1
  obtain rfl : _ = es' := by simpa using hbody.symm.trans hes'.1
  have hp := hafter.2 parts gp (hkeeps _ _ hgp) hop
  have hm := hafter.2 mentions gm (hkeeps _ _ hgm) hom
  have hp' := hafter'.2 parts gp (hkeeps' _ _ hgp) hop
  rw [hmp] at hp hp'
  rw [hmm] at hm
  exact ⟨build_types, h, hinsert, hp.1, hm.1, hremove, hp'⟩

end TrackedGraph
