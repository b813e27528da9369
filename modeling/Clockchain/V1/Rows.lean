import Clockchain.V1.EdgeReading
import Clockchain.V1.Support

/-!
# Projections

`project` returns one row for each candidate, and every row follows from the verdicts,
the effects and the heads.
-/

namespace Clockchain.V1
open Relation Maps Programs
set_option autoImplicit false

/-- `e` is a valid attestation. -/
def MediaValid (C : Candidates) (out : BTreeMap Status) (e : Hash) : Prop :=
  ∃ (t : Signed) (st : Status), C[e]? = some t ∧ isAttestation t = true ∧ out[e]? = some st ∧
    st.state = .valid

/-- The place of an event in a projection. -/
inductive Placed (cr : Crypto) (C : Candidates) (out : BTreeMap Status) (A : Authority) :
    Hash → RowState → Prop where
  | subject {e : Hash} {t : Signed} : (validOf C out)[e]? = some t → Placed cr C out A e
      (rowOf (history cr (validOf C out)) A.revokes (actsOf (validOf C out) (subjectOf e t)) e)
  | edge {edge e : Hash} : EdgeValid C out edge e → Placed cr C out A e (edgeRowOf cr C out edge e)
  | media {e : Hash} : MediaValid C out e → Placed cr C out A e ⟨.head, .none, false⟩
  | pending {e : Hash} {st : Status} : out[e]? = some st → st.state = .pending →
      Placed cr C out A e ⟨.pending, st.reason, false⟩
  | invalid {e : Hash} {st : Status} : out[e]? = some st → st.state = .invalid →
      Placed cr C out A e ⟨.invalid, st.reason, false⟩

/-! ## Media -/

section
variable {cr : Crypto} {C : Candidates} {out : BTreeMap Status} {s s' : Subjects}
variable (verdicts : Verdicts cr C out s) (reads : s'.Reads cr (validOf C out))
include verdicts reads

theorem media_revision {e : Hash} {event : Signed} {targetKind : TargetKind}
    {target artifact : Hash} {artifactKind : String} (hs : C[e]? = some event)
    (hp : event.envelope.payload = .attestation targetKind target artifactKind artifact)
    (hvalid : MediaValid C out e) {r : Hash} (hr : mediaRevision cr s' targetKind target = some r) :
    ∃ rev, s'.revisions[r]? = some rev := by
  refine mem_iff.mp ?_
  cases targetKind with
  | event =>
    simp only [mediaRevision, Option.bind_eq_bind] at hr
    obtain ⟨t, _, hr⟩ := Option.bind_eq_some_iff.mp hr
    split_ifs at hr with hmem
    rw [← Option.some.inj hr]
    exact contains_iff.mp hmem
  | revision =>
    obtain rfl := Option.some.inj hr
    obtain ⟨t, st, ht, hmedia, hst, hstate⟩ := hvalid
    obtain rfl := Option.some.inj (hs.symm.trans ht)
    have hverdict := (verdicts.media hs hmedia).trans hst
    simp only [evaluateEdge, hs, Option.bind_eq_bind, Option.bind_some] at hverdict
    obtain ⟨_, hverdict⟩ := passed_invalid hverdict hstate
    simp only [hp, Option.pure_def, Option.some.injEq, evaluateAttestation] at hverdict
    split_ifs at hverdict with h1 h2 h3
    · simp [← hverdict] at hstate
    · simp [← hverdict] at hstate
    · rw [reads.revisions, ← verdicts.reads.revisions]
      exact contains_iff.mp h3
    · simp [← hverdict] at hstate

/-- What the loop over the media has placed after the items `done`. -/
def MediaRows (C : Candidates) (out : BTreeMap Status) (edgeRows : RowStates)
    (done : List (Hash × Signed)) (rows : RowStates) : Prop :=
  ∀ {e : Hash} {row : RowState}, rows[e]? = some row ↔
    (e ∈ done.map Prod.fst ∧ MediaValid C out e) ∧ row = ⟨.head, .none, false⟩ ∨
      ¬ (e ∈ done.map Prod.fst ∧ MediaValid C out e) ∧ edgeRows[e]? = some row

theorem projectMedia_spec {edgeRows rows : RowStates} {done : List (Hash × Signed)}
    {media : List MediaReading} (inv : MediaRows C out edgeRows done rows) {id : Hash}
    {event : Signed} (hs : C[id]? = some event) :
    ∃ media' rows', projectMedia cr out s' (media, rows) (id, event) = some (media', rows') ∧
      MediaRows C out edgeRows (done ++ [(id, event)]) rows' := by
  obtain ⟨st, hst⟩ := verdicts.get (mem_of_getElem? hs)
  have hskip : ¬ MediaValid C out id → MediaRows C out edgeRows (done ++ [(id, event)]) rows := by
    intro hnot e row
    have hiff : (e ∈ (done ++ [(id, event)]).map Prod.fst ∧ MediaValid C out e) ↔
        (e ∈ done.map Prod.fst ∧ MediaValid C out e) := by
      simp only [List.map_append, List.map_cons, List.map_nil, List.mem_append, List.mem_singleton]
      refine and_congr_left fun hvalid => or_iff_left ?_
      rintro rfl
      exact hnot hvalid
    rw [inv, hiff]
  cases hp : event.envelope.payload with
  | attestation targetKind target artifactKind artifact =>
    have hmedia : isAttestation event = true := by simp [isAttestation, hp, Payload.kind]
    by_cases hvalid : st.state = .valid
    · have hmv : MediaValid C out id := ⟨event, st, hs, hmedia, hst, hvalid⟩
      have hbody : ∃ b, mediaBody s' (mediaRevision cr s' targetKind target) = some b := by
        cases hr : mediaRevision cr s' targetKind target with
        | none => exact ⟨none, rfl⟩
        | some r =>
          obtain ⟨rev, hrev⟩ := media_revision verdicts reads hs hp hmv hr
          exact ⟨some rev.body, by simp [mediaBody, hrev]⟩
      obtain ⟨b, hb⟩ := hbody
      refine ⟨media ++ [⟨id, event.envelope.author, targetKind, target,
        mediaRevision cr s' targetKind target, b, artifactKind, artifact⟩],
        rows.insert id ⟨.head, .none, false⟩, ?_, ?_⟩
      · simp [projectMedia, hp, hst, hvalid, hb]
      · intro e row
        rw [getElem?_insert]
        by_cases he : id = e
        · subst he
          simp [hmv, eq_comm]
        · rw [if_neg he, inv]
          simp [Ne.symm he]
    · refine ⟨media, rows, by simp [projectMedia, hp, hst, hvalid], hskip ?_⟩
      rintro ⟨t, st', _, _, hst', hvalid'⟩
      obtain rfl := Option.some.inj (hst.symm.trans hst')
      exact hvalid hvalid'
  | _ =>
    refine ⟨media, rows, by simp [projectMedia, hp], hskip ?_⟩
    rintro ⟨t, _, ht, hmedia, _⟩
    obtain rfl := Option.some.inj (hs.symm.trans ht)
    simp [isAttestation, hp, Payload.kind] at hmedia

end

/-! ## Edges and media -/

section
variable {cr : Crypto} {C : Candidates} {out : BTreeMap Status} {s : Subjects}
variable (verdicts : Verdicts cr C out s) {A : Authority} {ancestors : BTreeMap BTreeSet}
variable (pasts : Pasts (history cr (validOf C out)) {e | e ∈ validOf C out} ancestors)
variable {subjects : List SubjectReading} {states : RowStates}
variable
    (subjectRows : SubjectRows cr (validOf C out) A (genesesOf (validOf C out)) subjects states)
include verdicts pasts subjectRows

/-- `edges::project` returns; its rows are those of valid edge events and attestations. -/
theorem projectEdges_spec : ∃ edges media rows,
    projectEdges cr C out subjects ancestors = some (edges, media, rows) ∧
      edges.map EdgeReading.edge = assertsOf out C.toList ∧ (∀ r ∈ edges, r.Reads cr C out A) ∧
      ∀ {e : Hash} {row : RowState}, rows[e]? = some row ↔
        MediaValid C out e ∧ row = ⟨.head, .none, false⟩ ∨
          ∃ edge, EdgeValid C out edge e ∧ row = edgeRowOf cr C out edge e := by
  obtain ⟨s', hs', reads⟩ := verdicts.branch.subjects_spec fun ht _ =>
    (verdicts.mem _).mpr (mem_of_getElem? ht)
  have hedges : ∃ state : List EdgeReading × RowStates, C.toList.foldlM
      (projectEdge C out s' (readingsOf subjects) ancestors) ([], ∅) = some state ∧
      EdgeRows cr C out A C.toList state.1 state.2 := by
    refine foldlM_spec (fun before (state : List EdgeReading × RowStates) =>
      EdgeRows cr C out A before state.1 state.2) ⟨rfl, by simp, by simp⟩ ?_
    rintro before ⟨id, event⟩ after ⟨edges, rows⟩ heq inv
    have hs : C[id]? = some event :=
      Std.ExtTreeMap.mem_toList_iff_getElem?_eq_some.mp (by simp [heq])
    obtain ⟨edges', rows', hrun, inv'⟩ :=
      projectEdge_spec verdicts pasts reads subjectRows inv hs
    exact ⟨(edges', rows'), hrun, inv'⟩
  obtain ⟨⟨edges, edgeRows⟩, hedges, hnamed, hreads, hrows⟩ := hedges
  have hmedia : ∃ state : List MediaReading × RowStates, C.toList.foldlM
      (projectMedia cr out s') ([], edgeRows) = some state ∧
      MediaRows C out edgeRows C.toList state.2 := by
    refine foldlM_spec (fun before (state : List MediaReading × RowStates) =>
      MediaRows C out edgeRows before state.2) (by simp [MediaRows]) ?_
    rintro before ⟨id, event⟩ after ⟨media, rows⟩ heq inv
    have hs : C[id]? = some event :=
      Std.ExtTreeMap.mem_toList_iff_getElem?_eq_some.mp (by simp [heq])
    obtain ⟨media', rows', hrun, inv'⟩ := projectMedia_spec verdicts reads inv hs
    exact ⟨(media', rows'), hrun, inv'⟩
  obtain ⟨⟨media, rows⟩, hmedia, inv⟩ := hmedia
  have hreadings : (Std.ExtTreeMap.ofList (subjects.map fun r => (r.subject, r)) compare :
      BTreeMap SubjectReading) = readingsOf subjects := rfl
  refine ⟨edges, media, rows, by simp [projectEdges, hs', hreadings, hedges, hmedia], hnamed,
    hreads, fun {e row} => ?_⟩
  have hedge : edgeRows[e]? = some row ↔
      ∃ edge, EdgeValid C out edge e ∧ row = edgeRowOf cr C out edge e := by
    rw [hrows]
    constructor
    · rintro ⟨item, _, _, _, he, rfl⟩
      exact ⟨item.1, he, rfl⟩
    · rintro ⟨edge, he, rfl⟩
      obtain ⟨_, _, _, chained⟩ := verdicts.chained he
      obtain ⟨t, ht, hkind, hbase⟩ := chained.base
      have hvalid : EdgeValid C out edge edge := by
        rcases hbase with rfl | hbase
        · exact he
        · exact hbase
      exact ⟨(edge, t), Std.ExtTreeMap.mem_toList_iff_getElem?_eq_some.mpr ht, hkind, hvalid,
        he, rfl⟩
  rw [inv, hedge]
  refine or_congr (and_congr_left fun _ => ?_) ?_
  · refine and_iff_right_of_imp ?_
    rintro ⟨t, _, ht, _⟩
    simpa using mem_of_getElem? ht
  · refine and_iff_right_of_imp ?_
    rintro ⟨edge, ⟨t, _, ht, hedge, _⟩, _⟩ ⟨_, u, _, hu, hmedia, _⟩
    obtain rfl := Option.some.inj (ht.symm.trans hu)
    simp [(edgeOf_subject hedge).2] at hmedia

end

/-! ## The projection -/

structure EventReading.Reads (cr : Crypto) (C : Candidates) (out : BTreeMap Status) (A : Authority)
    (r : EventReading) : Prop where
  known : ∃ t st, C[r.event]? = some t ∧ out[r.event]? = some st ∧ r.envelope = t.envelope ∧
    r.missing = st.missing
  placed : Placed cr C out A r.event ⟨r.state, r.reason, r.frontier⟩
  revision : r.revision.isSome ↔ r.event ∈ validOf C out
  selected : ∀ {rev : Hash}, r.revision = some rev → ∃ c t, Selects cr (validOf C out) r.event c ∧
    (validOf C out)[c]? = some t ∧ rev = revisionId cr (subjectOf c t) c
  controls : r.controllingRevokes = (A.effects[r.event]?.map Effect.controllingRevokes).getD ∅

/-- What `project` computes. -/
structure Projected (cr : Crypto) (C : Candidates) (out : BTreeMap Status) (A : Authority)
    (p : Projection) : Prop where
  authority : p.authority = A
  events : p.rows.map EventReading.event = C.keys
  rows : ∀ r ∈ p.rows, r.Reads cr C out A
  named : p.subjects.map SubjectReading.subject = genesesOf (validOf C out)
  subjects : ∀ r ∈ p.subjects, r.Reads cr (validOf C out) A
  asserts : p.edges.map EdgeReading.edge = assertsOf out C.toList
  edges : ∀ r ∈ p.edges, r.Reads cr C out A
  revisions : p.revisions = (V1.revisions cr (validOf C out)).toList.map Prod.snd

section
variable {cr : Crypto} {C : Candidates} {out : BTreeMap Status} {s : Subjects}
variable (verdicts : Verdicts cr C out s) {A : Authority}

theorem valid_subject {e : Hash} {t : Signed} {st : Status} (ht : C[e]? = some t)
    (hst : out[e]? = some st) (hvalid : st.state = .valid) :
    (validOf C out)[e]? = some t ∨ MediaValid C out e ∨ ∃ edge, EdgeValid C out edge e := by
  cases hp : t.envelope.payload with
  | edgeAssert => exact Or.inr (Or.inr ⟨e, t, st, ht, by simp [edgeOf, hp], hst, hvalid⟩)
  | edgeReaffirm edge => exact Or.inr (Or.inr ⟨edge, t, st, ht, by simp [edgeOf, hp], hst, hvalid⟩)
  | attestation =>
    exact Or.inr (Or.inl ⟨t, st, ht, by simp [isAttestation, hp, Payload.kind], hst, hvalid⟩)
  | _ => exact Or.inl (validOf_get.mpr ⟨ht, by simp [isSubject, hp, Payload.kind], st, hst, hvalid⟩)

include verdicts in
theorem eventReading_spec {selected : BTreeMap Hash} {states : RowStates}
    (inv : Selected cr (validOf C out) selected) (htotal : ∀ e ∈ validOf C out, e ∈ selected)
    (hstates : ∀ {e : Hash} {row : RowState}, states[e]? = some row ↔
      (∃ t, (validOf C out)[e]? = some t ∧ row = rowOf (history cr (validOf C out)) A.revokes
        (actsOf (validOf C out) (subjectOf e t)) e) ∨
      MediaValid C out e ∧ row = ⟨.head, .none, false⟩ ∨
      ∃ edge, EdgeValid C out edge e ∧ row = edgeRowOf cr C out edge e)
    {e : Hash} {t : Signed} (ht : C[e]? = some t) :
    ∃ r, eventReading out A selected states (e, t) = some r ∧ r.event = e ∧
      r.Reads cr C out A := by
  obtain ⟨st, hst⟩ := verdicts.get (mem_of_getElem? ht)
  refine ⟨_, by simp only [eventReading, hst, Option.bind_eq_bind, Option.bind_some]; rfl, rfl,
    ⟨⟨t, st, ht, hst, rfl, rfl⟩, ?_, ?_, ?_, rfl⟩⟩
  · cases hrow : states[e]? with
    | some row =>
      rcases hstates.mp hrow with ⟨u, hu, rfl⟩ | ⟨hmedia, rfl⟩ | ⟨edge, hedge, rfl⟩
      · exact .subject hu
      · exact .media hmedia
      · exact .edge hedge
    | none =>
      have hnot : st.state ≠ .valid := by
        intro hvalid
        have hsome : ∃ row, states[e]? = some row := by
          rcases valid_subject ht hst hvalid with hu | hmedia | ⟨edge, hedge⟩
          · exact ⟨_, hstates.mpr (Or.inl ⟨t, hu, rfl⟩)⟩
          · exact ⟨_, hstates.mpr (Or.inr (Or.inl ⟨hmedia, rfl⟩))⟩
          · exact ⟨_, hstates.mpr (Or.inr (Or.inr ⟨edge, hedge, rfl⟩))⟩
        obtain ⟨row, hrow'⟩ := hsome
        simp [hrow] at hrow'
      cases hstate : st.state with
      | valid => exact absurd hstate hnot
      | invalid => simpa [hstate] using Placed.invalid hst hstate
      | pending => simpa [hstate] using Placed.pending hst hstate
  · simp only [← Std.ExtTreeMap.mem_iff_isSome_getElem?]
    exact ⟨inv.mem e, htotal e⟩
  · exact fun hrev => inv.created hrev

end

/-- `project` returns. -/
theorem project_spec {cr : Crypto} {C : Candidates} (free : CollisionFree cr C) :
    ∃ out s A p, classify cr C = some out ∧ Verdicts cr C out s ∧
      analyze cr C = some ⟨out, A⟩ ∧ A.Reads cr (validOf C out) ∧ project cr C = some p ∧
      Projected cr C out A p := by
  obtain ⟨out, s, hout, verdicts⟩ := classify_spec free
  have branch := verdicts.branch
  obtain ⟨A, hA, reads⟩ := branch.derive_spec
  have hadmitted : admitted C out = some (validOf C out) :=
    admitted_spec fun e he => (verdicts.mem e).mpr he
  have hanalyze : analyze cr C = some ⟨out, A⟩ := by simp [analyze, hout, hadmitted, hA]
  obtain ⟨selected, hselected, inv, htotal⟩ := branch.selections_spec
  obtain ⟨pasts, hpasts, hspec⟩ := branch.pasts_spec
  obtain ⟨subjects, states, hsubjects, subjectRows⟩ := branch.projectSubjects_spec reads hspec
  obtain ⟨edges, media, edgeStates, hedges, hnamed, hreads, hrows⟩ :=
    projectEdges_spec verdicts hspec subjectRows
  have hstates : ∀ {e : Hash} {row : RowState}, (states ∪ edgeStates)[e]? = some row ↔
      (∃ t, (validOf C out)[e]? = some t ∧ row = rowOf (history cr (validOf C out)) A.revokes
        (actsOf (validOf C out) (subjectOf e t)) e) ∨
      MediaValid C out e ∧ row = ⟨.head, .none, false⟩ ∨
      ∃ edge, EdgeValid C out edge e ∧ row = edgeRowOf cr C out edge e := by
    intro e row
    rw [getElem?_union_eq, Option.or_eq_some_iff, hrows, branch.subjectRows_get subjectRows]
    constructor
    · rintro (h | ⟨_, h⟩)
      · exact Or.inr h
      · exact Or.inl h
    · rintro (⟨t, ht, rfl⟩ | h)
      · refine Or.inr ⟨?_, t, ht, rfl⟩
        obtain ⟨htC, hsubject, _⟩ := validOf_get.mp ht
        refine Option.eq_none_iff_forall_ne_some.mpr fun row' hrow => ?_
        rcases hrows.mp hrow with ⟨⟨u, _, hu, hmedia, _⟩, _⟩ | ⟨edge, ⟨u, _, hu, hedge, _⟩, _⟩
        · obtain rfl := Option.some.inj (htC.symm.trans hu)
          simp [attestation_subject hmedia] at hsubject
        · obtain rfl := Option.some.inj (htC.symm.trans hu)
          simp [(edgeOf_subject hedge).1] at hsubject
      · exact Or.inl h
  have heach : ∀ item ∈ C.toList, ∃ r, eventReading out A selected (states ∪ edgeStates) item =
      some r ∧ r.event = item.1 ∧ r.Reads cr C out A := by
    rintro ⟨e, t⟩ hmem
    exact eventReading_spec verdicts inv htotal hstates
      (Std.ExtTreeMap.mem_toList_iff_getElem?_eq_some.mp hmem)
  obtain ⟨rows, hrun, hnames, hall⟩ := mapM_named heach
  refine ⟨out, s, A, ⟨rows, (V1.revisions cr (validOf C out)).toList.map Prod.snd, subjects, A,
    edges, media⟩, hout, verdicts, hanalyze, reads, ?_, rfl, ?_, hall, subjectRows.named,
    subjectRows.reads, hnamed, hreads, rfl⟩
  · simp [project, hanalyze, hadmitted, hselected, hpasts, hsubjects, hedges, hrun]
  · rw [hnames, Std.ExtTreeMap.map_fst_toList_eq_keys]

end Clockchain.V1
