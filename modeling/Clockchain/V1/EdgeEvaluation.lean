import Clockchain.V1.Classification
import Clockchain.V1.Edges

/-!
# Evaluating one edge event

Once the events an edge event waits for are settled, its checks return, and a valid
verdict says what its pins and its history are.
-/

namespace Clockchain.V1
open Relation Maps Programs
set_option autoImplicit false

theorem State.eq_valid {s : State} (hinvalid : s ≠ .invalid) (hpending : s ≠ .pending) :
    s = .valid := by
  cases s with
  | valid => rfl
  | invalid => exact absurd rfl hinvalid
  | pending => exact absurd rfl hpending

theorem sortedSet_mem {l : List Hash} {k : Hash} : k ∈ sortedSet l ↔ k ∈ l := by
  rw [sortedSet, Std.ExtTreeSet.mem_toList, mem_ofSet]

theorem sortedSet_isEmpty {l : List Hash} : (sortedSet l).isEmpty = l.isEmpty := by
  rw [Bool.eq_iff_iff, List.isEmpty_iff, List.isEmpty_iff, List.eq_nil_iff_forall_not_mem,
    List.eq_nil_iff_forall_not_mem]
  exact forall_congr' fun k => not_congr sortedSet_mem

/-! ## The subject events that edges read -/

section
variable {cr : Crypto} {C : Candidates} {out : BTreeMap Status} {s : Subjects}

theorem keptMap_get {kept : List (Hash × Signed)} (hsub : kept.Sublist C.toList)
    (hmem : ∀ item, item ∈ kept ↔ item ∈ C.toList ∧
      (isSubject item.2 = true ∧ ∃ st : Status, out[item.1]? = some st ∧ st.state = .valid)) :
    Std.ExtTreeMap.ofList kept compare = validOf C out := by
  refine ext_graph fun e t => ?_
  rw [getElem?_ofList_part hsub, hmem, Std.ExtTreeMap.mem_toList_iff_getElem?_eq_some, validOf_get]

theorem validSubjects_spec (subjects : ∀ {e t}, C[e]? = some t → isSubject t = true → e ∈ out) :
    validSubjects C out = some (validOf C out) := by
  have hdecides : ∀ item ∈ C.toList, Decides
      (if isSubject item.2 then do return (← out[item.1]?).state = .valid else some false)
      (isSubject item.2 = true ∧ ∃ st : Status, out[item.1]? = some st ∧ st.state = .valid) := by
    rintro ⟨e, t⟩ hmem
    have ht := Std.ExtTreeMap.mem_toList_iff_getElem?_eq_some.mp hmem
    cases hsubject : isSubject t with
    | false => exact ⟨false, by simp, by simp⟩
    | true =>
      obtain ⟨st, hst⟩ := mem_iff.mp (subjects ht hsubject)
      exact ⟨decide (st.state = .valid), by simp [hst], by simp [hst]⟩
  obtain ⟨kept, hrun, hsub, hmem⟩ := filterM_part hdecides
  unfold validSubjects
  rw [hrun]
  exact congrArg some (keptMap_get hsub hmem)

theorem admitted_spec (settled : ∀ e ∈ C, e ∈ out) : admitted C out = some (validOf C out) := by
  have hdecides : ∀ item ∈ C.toList, Decides
      (do return (← out[item.1]?).state = .valid && isSubject item.2)
      (isSubject item.2 = true ∧ ∃ st : Status, out[item.1]? = some st ∧ st.state = .valid) := by
    rintro ⟨e, t⟩ hmem
    have ht := Std.ExtTreeMap.mem_toList_iff_getElem?_eq_some.mp hmem
    obtain ⟨st, hst⟩ := mem_iff.mp (settled e (mem_of_getElem? ht))
    exact ⟨decide (st.state = .valid) && isSubject t, by simp [hst], by simp [hst, and_comm]⟩
  obtain ⟨kept, hrun, hsub, hmem⟩ := filterM_part hdecides
  unfold admitted
  rw [hrun]
  exact congrArg some (keptMap_get hsub hmem)

/-- Only the verdicts on subject events count. -/
theorem validOf_congr {out' : BTreeMap Status}
    (h : ∀ (e : Hash) (t : Signed), C[e]? = some t → isSubject t = true → out'[e]? = out[e]?) :
    validOf C out' = validOf C out := by
  refine ext_graph fun e t => ?_
  rw [validOf_get, validOf_get]
  refine and_congr_right fun ht => and_congr_right fun hsubject => ?_
  rw [h e t ht hsubject]

/-- `s` is what edges read of the valid subject events `W`. -/
structure Subjects.Reads (cr : Crypto) (W : Candidates) (s : Subjects) : Prop where
  valid : s.valid = W
  selected : Selected cr W s.selected
  total : ∀ e ∈ W, e ∈ s.selected
  revisions : s.revisions = V1.revisions cr W

theorem Branch.subjects_spec (branch : Branch cr C (validOf C out))
    (subjects : ∀ {e t}, C[e]? = some t → isSubject t = true → e ∈ out) :
    ∃ s, Subjects.new cr C out = some s ∧ s.Reads cr (validOf C out) := by
  obtain ⟨selected, hrun, inv, htotal⟩ := branch.selections_spec
  exact ⟨_, by simp [Subjects.new, validSubjects_spec subjects, hrun]; rfl, rfl, inv, htotal, rfl⟩

/-- The revision selected by a valid event is on record. -/
theorem Subjects.Reads.selected_revision {W : Candidates} (reads : s.Reads cr W)
    (free : CollisionFree cr W) {e r : Hash} (h : s.selected[e]? = some r) :
    ∃ c t rev, Selects cr W e c ∧ W[c]? = some t ∧ r = revisionId cr (subjectOf c t) c ∧
      s.revisions[r]? = some rev ∧ t.envelope.payload.newBody = some rev.body := by
  obtain ⟨c, t, hc, ht, rfl⟩ := reads.selected.created h
  obtain ⟨u, hu, hbody⟩ := hc.creator
  obtain rfl := Option.some.inj (ht.symm.trans hu)
  obtain ⟨b, hb⟩ := Option.isSome_iff_exists.mp hbody
  obtain ⟨rev, hrev, _, hrb⟩ := revisions_created free ht hb
  exact ⟨c, t, rev, hc, ht, rfl, by rw [reads.revisions, hrev], by rw [hb, hrb]⟩

/-! ## Pins -/

theorem checkPin_some (reads : s.Reads cr (validOf C out)) (free : CollisionFree cr (validOf C out))
    (subjects : ∀ {e t}, C[e]? = some t → isSubject t = true → e ∈ out) (pin : Pin) :
    ∃ status, checkPin pin C out s = some status := by
  unfold checkPin
  refine guard_returns fun hmissing => ?_
  simp only [Bool.not_eq_true', List.isEmpty_eq_false_iff, ne_eq, not_not, List.dedup_eq_nil,
    List.filter_eq_nil_iff, List.mem_cons, List.not_mem_nil, or_false, forall_eq_or_imp,
    forall_eq, contains_eq_false] at hmissing
  obtain ⟨genesis, hgenesis⟩ := mem_iff.mp hmissing.1
  obtain ⟨basis, hbasis⟩ := mem_iff.mp hmissing.2
  simp only [hgenesis, hbasis, Option.bind_eq_bind, Option.bind_some]
  refine guard_returns fun hguard => ?_
  simp only [Bool.or_eq_true, decide_eq_true_eq, Bool.not_eq_true', not_or,
    Bool.not_eq_false] at hguard
  obtain ⟨st, hst⟩ := mem_iff.mp (subjects hbasis hguard.1.2)
  simp only [hst, Option.bind_some]
  cases hstate : st.state with
  | invalid => exact ⟨_, rfl⟩
  | pending => exact ⟨_, rfl⟩
  | valid =>
    have hmem : pin.basis ∈ validOf C out :=
      mem_of_getElem? (validOf_get.mpr ⟨hbasis, hguard.1.2, st, hst, hstate⟩)
    obtain ⟨r, hr⟩ := mem_iff.mp (reads.total _ hmem)
    simp only [hr, Option.bind_some]
    refine guard_returns fun hrevision => ?_
    obtain rfl := not_not.mp hrevision
    obtain ⟨_, _, rev, _, _, _, hrev, _⟩ := reads.selected_revision free hr
    simp only [hrev, Option.bind_some]
    exact guard_returns fun _ => ⟨_, rfl⟩

/-- What a valid pin says. -/
structure Pin.Holds (C : Candidates) (out : BTreeMap Status) (s : Subjects) (pin : Pin) :
    Prop where
  genesis : ∃ t : Signed, C[pin.subject]? = some t ∧ t.envelope.payload.kind = .genesis
  basis : ∃ (t : Signed) (st : Status), C[pin.basis]? = some t ∧ isSubject t = true ∧
    subjectOf pin.basis t = pin.subject ∧ out[pin.basis]? = some st ∧ st.state = .valid
  selected : s.selected[pin.basis]? = some pin.revision
  body : ∃ rev : Revision, s.revisions[pin.revision]? = some rev ∧ rev.body = pin.body

theorem checkPin_valid {pin : Pin} {status : Status} (h : checkPin pin C out s = some status)
    (hvalid : status.state = .valid) : pin.Holds C out s := by
  unfold checkPin at h
  obtain ⟨_, h⟩ := passed_pending h hvalid
  obtain ⟨basis, hbasis, h⟩ := Option.bind_eq_some_iff.mp h
  obtain ⟨genesis, hgenesis, h⟩ := Option.bind_eq_some_iff.mp h
  obtain ⟨hguard, h⟩ := passed_invalid h hvalid
  simp only [Bool.or_eq_true, decide_eq_true_eq, Bool.not_eq_true', not_or, not_not,
    Bool.not_eq_false] at hguard
  obtain ⟨st, hst, h⟩ := Option.bind_eq_some_iff.mp h
  cases hstate : st.state with
  | invalid =>
    simp only [hstate] at h
    simp [← Option.some.inj h] at hvalid
  | pending =>
    simp only [hstate] at h
    simp [← Option.some.inj h] at hvalid
  | valid =>
    simp only [hstate] at h
    obtain ⟨r, hr, h⟩ := Option.bind_eq_some_iff.mp h
    obtain ⟨hrevision, h⟩ := passed_invalid h hvalid
    obtain ⟨rev, hrev, h⟩ := Option.bind_eq_some_iff.mp h
    obtain ⟨hbody, _⟩ := passed_invalid h hvalid
    exact ⟨⟨genesis, hgenesis, hguard.1.1⟩, ⟨basis, st, hbasis, hguard.1.2, hguard.2, hst, hstate⟩,
      by rw [hr, not_not.mp hrevision], rev, hrev, not_not.mp hbody⟩

theorem checkPins_some (reads : s.Reads cr (validOf C out))
    (free : CollisionFree cr (validOf C out))
    (subjects : ∀ {e t}, C[e]? = some t → isSubject t = true → e ∈ out) (pins : Pins) :
    ∃ status, checkPins pins C out s = some status := by
  obtain ⟨source, hsource⟩ := checkPin_some reads free subjects pins.source
  obtain ⟨target, htarget⟩ := checkPin_some reads free subjects pins.target
  simp only [checkPins, hsource, htarget, Option.bind_eq_bind, Option.bind_some]
  exact guard_returns fun _ => guard_returns fun _ => guard_returns fun _ =>
    guard_returns fun _ => guard_returns fun _ => ⟨_, rfl⟩

theorem checkPins_valid {pins : Pins} {status : Status} (h : checkPins pins C out s = some status)
    (hvalid : status.state = .valid) : pins.source.Holds C out s ∧ pins.target.Holds C out s := by
  unfold checkPins at h
  obtain ⟨source, hsource, h⟩ := Option.bind_eq_some_iff.mp h
  obtain ⟨target, htarget, h⟩ := Option.bind_eq_some_iff.mp h
  obtain ⟨hs, h⟩ := passed_other h hvalid fun hs => by simp [hs]
  obtain ⟨ht, h⟩ := passed_other h hvalid fun ht => by simp [ht]
  obtain ⟨_, h⟩ := passed_pending h hvalid
  obtain ⟨hs', h⟩ := passed_other h hvalid fun hs => by simp [hs]
  obtain ⟨ht', _⟩ := passed_other h hvalid fun ht => by simp [ht]
  exact ⟨checkPin_valid hsource (State.eq_valid hs hs'),
    checkPin_valid htarget (State.eq_valid ht ht')⟩

end

/-! ## Chains -/

theorem edgeOf_cases {e edge : Hash} {s : Signed} (h : edgeOf e s = some edge) :
    (∃ relation pins d, s.envelope.payload = .edgeAssert relation pins d ∧ e = edge) ∨
      ∃ old new d, s.envelope.payload = .edgeReaffirm edge old new d := by
  unfold edgeOf at h
  split at h
  case h_1 hp => exact Or.inl ⟨_, _, _, hp, Option.some.inj h⟩
  case h_2 hp => exact Or.inr ⟨_, _, _, by rw [hp, Option.some.inj h]⟩
  case h_3 => simp at h

theorem edgeOf_pins {e edge : Hash} {s : Signed} (h : edgeOf e s = some edge) :
    ∃ pins, pinsOf s = some pins := by
  rcases edgeOf_cases h with ⟨_, pins, _, hp, _⟩ | ⟨_, new, _, hp⟩
  · exact ⟨pins, by simp [pinsOf, hp]⟩
  · exact ⟨new, by simp [pinsOf, hp]⟩

theorem edgeOf_subject {e edge : Hash} {s : Signed} (h : edgeOf e s = some edge) :
    isSubject s = false ∧ isAttestation s = false := by
  rcases edgeOf_cases h with ⟨_, _, _, hp, _⟩ | ⟨_, _, _, hp⟩ <;>
    simp [isSubject, isAttestation, hp, Payload.kind]

/-- `e` is a valid event of the edge. -/
def EdgeValid (C : Candidates) (out : BTreeMap Status) (edge e : Hash) : Prop :=
  ∃ (s : Signed) (st : Status), C[e]? = some s ∧ edgeOf e s = some edge ∧ out[e]? = some st ∧
    st.state = .valid

/-- The parents of a valid event of an edge are valid events of the edge. -/
structure Linked (cr : Crypto) (C : Candidates) (out : BTreeMap Status) : Prop where
  parent : ∀ {edge e p : Hash}, EdgeValid C out edge e → (history cr C).parent p e →
    EdgeValid C out edge p
  acyclic : ∀ {edge e : Hash}, EdgeValid C out edge e → Acc (history cr C).parent e

section
variable {cr : Crypto} {C : Candidates} {out : BTreeMap Status}

theorem EdgeValid.mem {edge e : Hash} (h : EdgeValid C out edge e) : e ∈ C := by
  obtain ⟨s, _, hs, _⟩ := h
  exact mem_of_getElem? hs

theorem Linked.anc (linked : Linked cr C out) {edge e a : Hash} (h : EdgeValid C out edge e)
    (ha : (history cr C).Anc a e) : EdgeValid C out edge a := by
  induction ha using ReflTransGen.head_induction_on with
  | refl => exact h
  | head hp _ ih => exact linked.parent ih hp

theorem Linked.cone_part (linked : Linked cr C out) {edge e : Hash} (h : EdgeValid C out edge e) :
    cone C e = some (coneOf C e) ∧ IsPart (coneOf C e) C fun a => (history cr C).Anc a e := by
  obtain ⟨K, hK, hpart⟩ := cone_spec fun a ha => (linked.anc h ha).mem
  exact ⟨by simp [coneOf, hK], by simpa [coneOf, hK] using hpart⟩

end

/-! ## Edge events -/

section
variable {cr : Crypto} {C : Candidates} {out : BTreeMap Status} {s : Subjects}
variable (reads : s.Reads cr (validOf C out)) (free : CollisionFree cr (validOf C out))
variable (subjects : ∀ {e t}, C[e]? = some t → isSubject t = true → e ∈ out)
include reads free subjects

theorem evaluateAssert_some (e : Envelope) (relation : String) (pins : Pins) (d : Decision) :
    ∃ status, evaluateAssert C out s e relation pins d = some status := by
  unfold evaluateAssert
  refine guard_returns fun _ => guard_returns fun _ => guard_returns fun _ => ?_
  obtain ⟨status, hstatus⟩ := checkPins_some reads free subjects pins
  simp only [hstatus, Option.bind_eq_bind, Option.bind_some]
  refine guard_returns fun hvalid => ?_
  obtain ⟨⟨⟨t, ht, _⟩, _⟩, _⟩ := checkPins_valid hstatus (not_not.mp hvalid)
  simp only [ht, Option.bind_some]
  split_ifs <;> exact ⟨_, rfl⟩

omit reads free subjects in
theorem comparable_spec (linked : Linked cr C out) {edge : Hash} {ps : List Hash}
    (hps : ∀ p ∈ ps, EdgeValid C out edge p) : Decides (comparable C ps)
      (ps.length > 1 ∧ ∃ p ∈ ps, (ps.filter (coneOf C p).contains).length > 1) := by
  refine Decides.andThen ⟨_, rfl, decide_eq_true_iff⟩ fun _ => Decides.anyM fun p hp => ?_
  exact ⟨_, by rw [(linked.cone_part (hps p hp)).1]; rfl, decide_eq_true_iff⟩

omit reads free subjects in
theorem misquoted_spec {edge : Hash} {o : ParentPins} (h : EdgeValid C out edge o.parent) :
    Decides (o.misquoted C) (∃ t pins, C[o.parent]? = some t ∧ pinsOf t = some pins ∧
      o.pins ≠ pins) := by
  obtain ⟨t, _, ht, hedge, _⟩ := h
  obtain ⟨pins, hpins⟩ := edgeOf_pins hedge
  exact ⟨decide (o.pins ≠ pins), by simp [ParentPins.misquoted, ht, hpins], by simp [ht, hpins]⟩

omit reads free subjects in
theorem elsewhere_spec {edge p : Hash} {t : Signed} (ht : C[p]? = some t) :
    Decides (elsewhere C edge p) (edgeOf p t ≠ some edge) :=
  ⟨decide (edgeOf p t ≠ some edge), by simp [elsewhere, ht], decide_eq_true_iff⟩

theorem evaluateReaffirmed_some (linked : Linked cr C out) {e : Envelope} {base : Signed}
    {edge : Hash} {old : List ParentPins} {new : Pins} (d : Decision)
    (hbase : edgeOf edge base = some edge) (hparents : ∀ p ∈ e.parents, EdgeValid C out edge p) :
    ∃ status, evaluateReaffirmed C out s e base old new d = some status := by
  obtain ⟨b, hb, _⟩ := comparable_spec linked hparents
  obtain ⟨basePins, hpins⟩ := edgeOf_pins hbase
  unfold evaluateReaffirmed
  refine bind_returns hb <| guard_returns fun _ => bind_returns hpins <|
    guard_returns fun _ => guard_returns fun hold => ?_
  obtain ⟨c, hc, _⟩ := Decides.anyM fun o (ho : o ∈ old) => misquoted_spec <| hparents o.parent (by
    rw [← not_not.mp hold]
    exact List.mem_map_of_mem ho)
  exact bind_returns hc <| guard_returns fun _ => guard_returns fun _ =>
    checkPins_some reads free subjects new

theorem evaluateReaffirm_some (linked : Linked cr C out) {e : Envelope} {edge : Hash}
    {old : List ParentPins} {new : Pins} (d : Decision)
    (hready : ∀ p ∈ e.parents ++ [edge], p ∈ out ∨ (C[p]?).all isAttestation = true) :
    ∃ status, evaluateReaffirm C out s e edge old new d = some status := by
  unfold evaluateReaffirm
  refine guard_returns fun _ => guard_returns fun hmissing => ?_
  have hknown : ∀ p ∈ e.parents ++ [edge], p ∈ C := by
    simp only [Bool.not_eq_true', Bool.not_eq_false, sortedSet_isEmpty, List.isEmpty_iff,
      List.filter_eq_nil_iff, contains_eq_false, not_not] at hmissing
    exact hmissing
  obtain ⟨base, hbase⟩ := mem_iff.mp (hknown edge (by simp))
  refine bind_returns hbase <| guard_returns fun hkind => ?_
  have helsewhere : Decides (e.parents.anyM (elsewhere C edge))
      (∃ p ∈ e.parents, ∃ t, C[p]? = some t ∧ edgeOf p t ≠ some edge) :=
    Decides.anyM fun p hp => by
      obtain ⟨t, ht⟩ := mem_iff.mp (hknown p (by simp [hp]))
      exact (elsewhere_spec ht).congr (by simp [ht])
  obtain ⟨b, hb, hother⟩ := helsewhere
  refine bind_returns hb <| guard_returns fun hnone => ?_
  -- Every event of the history is now an event of the edge, so it is settled.
  have hedge : ∀ p ∈ e.parents ++ [edge], ∃ t st, C[p]? = some t ∧ edgeOf p t = some edge ∧
      out[p]? = some st := by
    intro p hp
    have ht : ∃ t, C[p]? = some t ∧ edgeOf p t = some edge := by
      rcases List.mem_append.mp hp with hp | hp
      · obtain ⟨t, ht⟩ := mem_iff.mp (hknown p (by simp [hp]))
        refine ⟨t, ht, ?_⟩
        by_contra hne
        exact hnone (hother.mpr ⟨p, hp, t, ht, hne⟩)
      · obtain rfl := List.mem_singleton.mp hp
        refine ⟨base, hbase, ?_⟩
        cases hp : base.envelope.payload <;> simp [hp, Payload.kind, edgeOf] at hkind ⊢
    obtain ⟨t, ht, hedge⟩ := ht
    obtain ⟨st, hst⟩ := mem_iff.mp ((hready p hp).resolve_right (by
      simp [ht, (edgeOf_subject hedge).2]))
    exact ⟨t, st, ht, hedge, hst⟩
  have hstates : (e.parents ++ [edge]).mapM (fun p => out[p]?) =
      some ((e.parents ++ [edge]).map fun p => out[p]?.getD .valid) := by
    apply mapM_spec
    intro p hp
    obtain ⟨_, st, _, _, hst⟩ := hedge p hp
    simp [hst]
  refine bind_returns hstates <| guard_returns fun hinvalid => guard_returns fun _ =>
    guard_returns fun hpending => ?_
  have hvalid : ∀ p ∈ e.parents ++ [edge], EdgeValid C out edge p := by
    intro p hp
    obtain ⟨t, st, ht, hedge, hst⟩ := hedge p hp
    have hmem : st ∈ (e.parents ++ [edge]).map fun p => out[p]?.getD .valid :=
      List.mem_map.mpr ⟨p, hp, by simp [hst]⟩
    simp only [List.any_eq_true, decide_eq_true_eq, not_exists, not_and] at hinvalid hpending
    exact ⟨t, st, ht, hedge, hst, State.eq_valid (hinvalid st hmem) (hpending st hmem)⟩
  obtain ⟨t, _, ht, hbaseEdge, _⟩ := hvalid edge (by simp)
  obtain rfl := Option.some.inj (hbase.symm.trans ht)
  exact evaluateReaffirmed_some reads free subjects linked d hbaseEdge
    fun p hp => hvalid p (by simp [hp])

/-- `evaluate` of an edge event or an attestation returns once it is ready. -/
theorem evaluateEdge_some (linked : Linked cr C out) {id : Hash} {event : Signed}
    (hs : C[id]? = some event) (hsubject : isSubject event = false)
    (hready : edgeReady C out event = true) :
    ∃ status, evaluateEdge id C out s = some status := by
  unfold evaluateEdge
  refine bind_returns hs <| guard_returns fun _ => ?_
  cases hp : event.envelope.payload with
  | edgeAssert relation pins d => exact evaluateAssert_some reads free subjects _ _ _ _
  | edgeReaffirm edge old new d =>
    refine evaluateReaffirm_some reads free subjects linked d fun p hmem => ?_
    simp only [edgeReady, edgeDeps, hp, List.all_eq_true, Bool.or_eq_true, contains_iff] at hready
    exact hready p hmem
  | attestation targetKind target artifactKind artifact => exact ⟨_, rfl⟩
  | _ => simp [isSubject, hp, Payload.kind] at hsubject

end

/-! ## What a valid edge event says -/

section
variable {C : Candidates} {out : BTreeMap Status} {s : Subjects} {status : Status}

theorem evaluateAssert_valid {e : Envelope} {relation : String} {pins : Pins} {d : Decision}
    (h : evaluateAssert C out s e relation pins d = some status) (hvalid : status.state = .valid) :
    e.parents = [] ∧ pins.source.Holds C out s ∧ pins.target.Holds C out s := by
  unfold evaluateAssert at h
  obtain ⟨hparents, h⟩ := passed_invalid h hvalid
  obtain ⟨_, h⟩ := passed_invalid h hvalid
  obtain ⟨_, h⟩ := passed_invalid h hvalid
  obtain ⟨pinned, hpinned, h⟩ := Option.bind_eq_some_iff.mp h
  refine ⟨by simpa using hparents, checkPins_valid hpinned ?_⟩
  by_contra hne
  rw [if_pos hne] at h
  exact hne (Option.some.inj h ▸ hvalid)

theorem anyM_elsewhere {edge : Hash} {ps : List Hash}
    (h : ps.anyM (elsewhere C edge) = some false) :
    ∀ p ∈ ps, ∃ t, C[p]? = some t ∧ edgeOf p t = some edge := by
  intro p hp
  obtain ⟨t, ht, h⟩ := Option.bind_eq_some_iff.mp (anyM_false h p hp)
  exact ⟨t, ht, by simpa using h⟩

theorem evaluateReaffirm_valid {e : Envelope} {edge : Hash} {old : List ParentPins} {new : Pins}
    {d : Decision} (h : evaluateReaffirm C out s e edge old new d = some status)
    (hvalid : status.state = .valid) :
    ∃ base, C[edge]? = some base ∧ base.envelope.payload.kind = .edgeAssert ∧ e.parents ≠ [] ∧
      e.author = base.envelope.author ∧ (∀ p ∈ e.parents ++ [edge], EdgeValid C out edge p) ∧
      evaluateReaffirmed C out s e base old new d = some status := by
  unfold evaluateReaffirm at h
  obtain ⟨hparents, h⟩ := passed_invalid h hvalid
  obtain ⟨_, h⟩ := passed_pending h hvalid
  obtain ⟨base, hbase, h⟩ := Option.bind_eq_some_iff.mp h
  obtain ⟨hkind, h⟩ := passed_invalid h hvalid
  obtain ⟨b, hb, h⟩ := Option.bind_eq_some_iff.mp h
  obtain ⟨hnone, h⟩ := passed_invalid h hvalid
  obtain ⟨states, hstates, h⟩ := Option.bind_eq_some_iff.mp h
  obtain ⟨hinvalid, h⟩ := passed_invalid h hvalid
  obtain ⟨hauthor, h⟩ := passed_invalid h hvalid
  obtain ⟨hpending, h⟩ := passed_pending h hvalid
  simp only [Bool.not_eq_true] at hnone
  rw [hnone] at hb
  refine ⟨base, hbase, not_not.mp hkind, by simpa using hparents, not_not.mp hauthor,
    fun p hp => ?_, h⟩
  obtain ⟨st, hmem, hst⟩ := mapM_some hstates p hp
  simp only [List.any_eq_true, decide_eq_true_eq, not_exists, not_and] at hinvalid hpending
  have ht : ∃ t, C[p]? = some t ∧ edgeOf p t = some edge := by
    rcases List.mem_append.mp hp with hp | hp
    · exact anyM_elsewhere hb p hp
    · obtain rfl := List.mem_singleton.mp hp
      refine ⟨base, hbase, ?_⟩
      cases hp : base.envelope.payload <;> simp [hp, Payload.kind, edgeOf] at hkind ⊢
  obtain ⟨t, ht, hedge⟩ := ht
  exact ⟨t, st, ht, hedge, hst, State.eq_valid (hinvalid st hmem) (hpending st hmem)⟩

/-- The same subjects at both ends. -/
def Pins.SameEnds (pins pins' : Pins) : Prop :=
  pins.source.subject = pins'.source.subject ∧ pins.target.subject = pins'.target.subject

theorem evaluateReaffirmed_valid {e : Envelope} {base : Signed} {old : List ParentPins}
    {new : Pins} {d : Decision} (h : evaluateReaffirmed C out s e base old new d = some status)
    (hvalid : status.state = .valid) : (new.source.Holds C out s ∧ new.target.Holds C out s) ∧
      ∃ pins, pinsOf base = some pins ∧ new.SameEnds pins := by
  unfold evaluateReaffirmed at h
  obtain ⟨_, _, h⟩ := Option.bind_eq_some_iff.mp h
  obtain ⟨_, h⟩ := passed_invalid h hvalid
  obtain ⟨pins, hpins, h⟩ := Option.bind_eq_some_iff.mp h
  obtain ⟨hends, h⟩ := passed_invalid h hvalid
  obtain ⟨_, h⟩ := passed_invalid h hvalid
  obtain ⟨_, _, h⟩ := Option.bind_eq_some_iff.mp h
  obtain ⟨_, h⟩ := passed_invalid h hvalid
  obtain ⟨_, h⟩ := passed_invalid h hvalid
  refine ⟨checkPins_valid h hvalid, pins, hpins, ?_⟩
  simpa [Pins.SameEnds, not_or] using hends

/-- What the valid verdict on an event of `edge` established. -/
structure Chained (C : Candidates) (out : BTreeMap Status) (s : Subjects) (edge id : Hash)
    (event : Signed) : Prop where
  parents : ∀ p ∈ parentsOf event, EdgeValid C out edge p
  base : ∃ t : Signed, C[edge]? = some t ∧ t.envelope.payload.kind = .edgeAssert ∧
    (id = edge ∨ EdgeValid C out edge edge)
  pins : ∃ pins, pinsOf event = some pins ∧ pins.source.Holds C out s ∧ pins.target.Holds C out s
  rooted : id = edge ∨ ∃ p, p ∈ parentsOf event
  same : ∃ (t : Signed) (pins basePins : Pins), C[edge]? = some t ∧
    event.envelope.author = t.envelope.author ∧ pinsOf event = some pins ∧
    pinsOf t = some basePins ∧ pins.SameEnds basePins

theorem evaluateEdge_valid {edge id : Hash} {event : Signed} (hs : C[id]? = some event)
    (hedge : edgeOf id event = some edge) (h : evaluateEdge id C out s = some status)
    (hvalid : status.state = .valid) : Chained C out s edge id event := by
  unfold evaluateEdge at h
  obtain ⟨event', hs', h⟩ := Option.bind_eq_some_iff.mp h
  obtain rfl := Option.some.inj (hs.symm.trans hs')
  obtain ⟨_, h⟩ := passed_invalid h hvalid
  rcases edgeOf_cases hedge with ⟨relation, pins, d, hp, rfl⟩ | ⟨old, new, d, hp⟩
  · simp only [hp] at h
    obtain ⟨hnil, hpins⟩ := evaluateAssert_valid h hvalid
    have hshown : pinsOf event = some pins := by simp [pinsOf, hp]
    refine ⟨fun p hmem => ?_, ⟨event, hs, by simp [hp, Payload.kind], Or.inl rfl⟩,
      ⟨pins, hshown, hpins⟩, Or.inl rfl, event, pins, pins, hs, rfl, hshown, hshown, rfl, rfl⟩
    simp [parentsOf, hnil] at hmem
  · simp only [hp] at h
    obtain ⟨base, hbase, hkind, hparents, hauthor, hall, h⟩ := evaluateReaffirm_valid h hvalid
    obtain ⟨hpins, basePins, hshown, hends⟩ := evaluateReaffirmed_valid h hvalid
    exact ⟨fun p hmem => hall p (List.mem_append_left _ hmem),
      ⟨base, hbase, hkind, Or.inr (hall edge (by simp))⟩, ⟨new, by simp [pinsOf, hp], hpins⟩,
      Or.inr (List.exists_mem_of_ne_nil _ hparents), base, new, basePins, hbase, hauthor,
      by simp [pinsOf, hp], hshown, hends⟩

end

/-! ## What a verdict depends on -/

section
variable {C : Candidates} {out out' : BTreeMap Status} {s : Subjects}
variable (hsub : ∀ (k : Hash) (t : Signed), C[k]? = some t → isSubject t = true →
  out'[k]? = out[k]?)
include hsub

theorem checkPin_congr (pin : Pin) : checkPin pin C out' s = checkPin pin C out s := by
  unfold checkPin
  refine guard_same fun _ => bind_same fun basis hbasis => bind_same fun genesis _ =>
    guard_same fun hguard => ?_
  simp only [Bool.or_eq_true, decide_eq_true_eq, Bool.not_eq_true', not_or,
    Bool.not_eq_false] at hguard
  rw [hsub pin.basis basis hbasis hguard.1.2]

theorem checkPins_congr (pins : Pins) : checkPins pins C out' s = checkPins pins C out s := by
  simp only [checkPins, checkPin_congr hsub]

theorem evaluateReaffirm_congr {e : Envelope} {edge : Hash} {old : List ParentPins} {new : Pins}
    {d : Decision} (hdeps : ∀ k ∈ e.parents ++ [edge], ∀ t, C[k]? = some t →
      isAttestation t = false → out'[k]? = out[k]?) :
    evaluateReaffirm C out' s e edge old new d = evaluateReaffirm C out s e edge old new d := by
  unfold evaluateReaffirm
  refine guard_same fun _ => guard_same fun _ => bind_same fun base hbase =>
    guard_same fun hkind => bind_same fun b hb => guard_same fun hnone => ?_
  rw [Bool.not_eq_true] at hnone
  have hstates : (e.parents ++ [edge]).mapM (fun p => out'[p]?) =
      (e.parents ++ [edge]).mapM fun p => out[p]? := by
    apply mapM_congr
    intro p hp
    rcases List.mem_append.mp hp with hmem | hmem
    · obtain ⟨t, ht, hedge⟩ := anyM_elsewhere (hnone ▸ hb) p hmem
      exact hdeps p hp t ht (edgeOf_subject hedge).2
    · obtain rfl := List.mem_singleton.mp hmem
      refine hdeps p hp base hbase ?_
      simp [isAttestation, not_not.mp hkind]
  simp only [hstates, evaluateReaffirmed, checkPins_congr hsub]

theorem evaluateEdge_congr {id : Hash} {event : Signed} (hs : C[id]? = some event)
    (hdeps : ∀ k ∈ edgeDeps event, ∀ t, C[k]? = some t → isAttestation t = false →
      out'[k]? = out[k]?)
    (hmedia : isAttestation event = true → ∀ (k : Hash) (t : Signed), C[k]? = some t →
      isAttestation t = false → out'[k]? = out[k]?) :
    evaluateEdge id C out' s = evaluateEdge id C out s := by
  unfold evaluateEdge
  refine bind_same fun event' hs' => guard_same fun _ => ?_
  obtain rfl := Option.some.inj (hs.symm.trans hs')
  cases hp : event.envelope.payload with
  | edgeAssert relation pins d => simp only [evaluateAssert, checkPins_congr hsub]
  | edgeReaffirm edge old new d =>
    refine evaluateReaffirm_congr hsub fun k hk => hdeps k ?_
    simpa [edgeDeps, hp, parentsOf] using hk
  | attestation targetKind target artifactKind artifact =>
    simp only [evaluateAttestation]
    cases targetKind with
    | revision => rfl
    | event =>
      cases ht : C[target]? with
      | none => rfl
      | some t =>
        by_cases hkind : t.envelope.payload.kind = .attestation
        · simp only [if_pos hkind]
        · rw [hmedia (by simp [isAttestation, hp, Payload.kind]) target t ht
            (by simp [isAttestation, hkind])]
  | _ => rfl

end

end Clockchain.V1
