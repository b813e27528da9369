import Clockchain.V1.Frontiers

/-!
# Reading edges

Every valid edge has a head, its pins are readable at both endpoints, and the rows of
its events follow from its heads.
-/

namespace Clockchain.V1
open Relation Maps Programs
set_option autoImplicit false

theorem exists_head {H : History Hash Hash} {D : Set Hash} (finite : D.Finite)
    (hne : D.Nonempty) (irrefl : ∀ e ∈ D, ¬ H.Before e e) : ∃ m ∈ D, ∀ x ∈ D, ¬ H.Before m x := by
  have := finite.to_subtype
  let later : D → D → Prop := fun a b => H.Before b.1 a.1
  have htrans : IsTrans D later := ⟨fun _ _ _ hab hbc => hbc.trans hab⟩
  have hirrefl : Std.Irrefl later := ⟨fun a => irrefl a.1 a.2⟩
  have hwf : WellFounded later := Finite.wellFounded_of_trans_of_irrefl later
  obtain ⟨x, hx⟩ := hne
  obtain ⟨m, _, hmin⟩ := hwf.has_min Set.univ ⟨⟨x, hx⟩, trivial⟩
  exact ⟨m.1, m.2, fun y hy => hmin ⟨y, hy⟩ trivial⟩

/-- The valid events of an edge that no valid event of it descends from. -/
def edgeHeads (cr : Crypto) (C : Candidates) (out : BTreeMap Status) (edge : Hash) : Set Hash :=
  {c | EdgeValid C out edge c ∧ ∀ x, EdgeValid C out edge x → ¬ (history cr C).Before c x}

open Classical in
/-- The row of a valid event of an edge. -/
noncomputable def edgeRowOf (cr : Crypto) (C : Candidates) (out : BTreeMap Status) (edge e : Hash) :
    RowState :=
  let place := standing (edgeHeads cr C out edge)
    (fun a => ∀ h ∈ edgeHeads cr C out edge, (history cr C).Anc a h) .edgeConflict e
  ⟨place.1, place.2, decide (e ∈ edgeHeads cr C out edge)⟩

/-- The reading of a valid pin does not fail. -/
structure Pin.Readable (C : Candidates) (W : Candidates) (pin : Pin) : Prop where
  known : pin.subject ∈ C
  basis : ∃ t, W[pin.basis]? = some t ∧ subjectOf pin.basis t = pin.subject

theorem Pin.Holds.readable {C : Candidates} {out : BTreeMap Status} {s : Subjects} {pin : Pin}
    (h : pin.Holds C out s) : pin.Readable C (validOf C out) := by
  obtain ⟨g, hg, _⟩ := h.genesis
  obtain ⟨t, st, ht, hsubject, heq, hst, hvalid⟩ := h.basis
  exact ⟨mem_of_getElem? hg, t, validOf_get.mpr ⟨ht, hsubject, st, hst, hvalid⟩, heq⟩

/-- Whether a payload creates a revision after the first. -/
def Payload.revises : Payload → Bool
  | .correction .. | .resolve (.mergedBody _) _ _ => true
  | _ => false

theorem creates_spec {s : Subjects} {e : Hash} {t : Signed} (ht : s.valid[e]? = some t) :
    creates s e = some t.envelope.payload.revises := by
  simp only [creates, ht, Option.bind_eq_bind, Option.bind_some]
  rfl

/-- A current pin: its subject has one frontier head, which still selects the pinned revision
and descends from the basis with no revision created since. -/
structure Pin.Current (cr : Crypto) (W : Candidates) (A : Authority) (pin : Pin) (head : Hash) :
    Prop where
  single : (history cr W).Frontier A.revokes (actsOf W pin.subject) = {head}
  basis : (history cr W).Anc pin.basis head
  selected : ∃ c t, Selects cr W head c ∧ W[c]? = some t ∧
    pin.revision = revisionId cr (subjectOf c t) c
  unrevised : ∀ {x : Hash} {t : Signed}, W[x]? = some t → (history cr W).Anc x head →
    ¬ (history cr W).Anc x pin.basis → t.envelope.payload.revises = false

theorem single_head {F : BTreeSet} {S : Set Hash} (hF : ∀ e, e ∈ F ↔ e ∈ S)
    (hstate : subjectStateOf S = .resolved) : ∃ head heads, F.toList = head :: heads ∧
    S = {head} := by
  have hne : S.Nonempty := by
    rw [Set.nonempty_iff_ne_empty]
    rintro rfl
    simp [subjectStateOf] at hstate
  have hone : ¬ S.Nontrivial := by
    intro hmany
    simp [subjectStateOf, hne.ne_empty, hmany] at hstate
  obtain ⟨x, hx⟩ := hne
  obtain ⟨head, heads, hcons⟩ := List.exists_cons_of_ne_nil
    (List.ne_nil_of_mem (Std.ExtTreeSet.mem_toList.mpr ((hF x).mpr hx)))
  have hhead : head ∈ S := (hF head).mp (Std.ExtTreeSet.mem_toList.mp (by simp [hcons]))
  refine ⟨head, heads, hcons, Set.eq_singleton_iff_unique_mem.mpr ⟨hhead, fun y hy => ?_⟩⟩
  exact Set.not_nontrivial_iff.mp hone hy hhead

section
variable {cr : Crypto} {C W : Candidates} (branch : Branch cr C W) {A : Authority}
variable {ancestors : BTreeMap BTreeSet} (pasts : Pasts (history cr W) {e | e ∈ W} ancestors)
variable {s : Subjects} (reads : s.Reads cr W) {subjects : List SubjectReading} {states : RowStates}
variable (rows : SubjectRows cr W A (genesesOf W) subjects states)

/-- The readings under their subjects. -/
def readingsOf (subjects : List SubjectReading) : BTreeMap SubjectReading :=
  .ofList (subjects.map fun r => (r.subject, r))

include rows in
theorem readingsOf_get {g : Hash} {r : SubjectReading} :
    (readingsOf subjects)[g]? = some r ↔ r ∈ subjects ∧ r.subject = g := by
  have hnodup : ((subjects.map fun r => (r.subject, r)).map Prod.fst).Nodup := by
    rw [List.map_map]
    change (subjects.map SubjectReading.subject).Nodup
    rw [rows.named]
    exact genesesOf_nodup W
  rw [readingsOf, getElem?_ofList hnodup]
  constructor
  · intro h
    obtain ⟨q, hq, heq⟩ := List.mem_map.mp h
    obtain ⟨rfl, rfl⟩ := Prod.mk.inj heq
    exact ⟨hq, rfl⟩
  · rintro ⟨hr, rfl⟩
    exact List.mem_map.mpr ⟨r, hr, rfl⟩

include rows in
theorem reading_exists {g : Hash} (hg : g ∈ genesesOf W) :
    ∃ r, (readingsOf subjects)[g]? = some r ∧ r.Reads cr W A := by
  obtain ⟨r, hr, rfl⟩ := List.mem_map.mp (rows.named ▸ hg)
  exact ⟨r, (readingsOf_get rows).mpr ⟨hr, rfl⟩, rows.reads r hr⟩

include branch pasts reads rows in
theorem endpoint_spec {pin : Pin} (readable : pin.Readable C W) :
    ∃ drift, endpoint pin (readingsOf subjects) s ancestors = some drift ∧
      (drift = none → ∃ head, pin.Current cr W A head) := by
  obtain ⟨t, ht, hsubject⟩ := readable.basis
  obtain ⟨g, hg, hkind, _⟩ := branch.genesis_exists ht
  obtain ⟨r, hr, hreads⟩ := reading_exists rows (genesesOf_mem.mpr ⟨g, hg, hkind⟩)
  rw [hsubject] at hr
  have hrsubject := ((readingsOf_get rows).mp hr).2
  simp only [endpoint, hr, Option.bind_eq_bind, Option.bind_some]
  cases hstate : r.state with
  | contested => exact ⟨_, rfl, by simp⟩
  | noCurrentBody => exact ⟨_, rfl, by simp⟩
  | resolved =>
    obtain ⟨head, heads, hcons, hsingle⟩ :=
      single_head hreads.frontier (hreads.state.symm.trans hstate)
    have hhead : head ∈ W := by
      have hmem : head ∈ r.frontier := Std.ExtTreeSet.mem_toList.mp (by simp [hcons])
      obtain ⟨⟨u, hu, _⟩, _⟩ := (hreads.frontier head).mp hmem
      exact mem_of_getElem? hu
    obtain ⟨past, hpast, hanc⟩ := pasts.past hhead
    obtain ⟨basisPast, hbasis, hbasisAnc⟩ := pasts.past (mem_of_getElem? ht)
    obtain ⟨rev, hrev⟩ := mem_iff.mp (reads.total head hhead)
    simp only [hcons, List.head?_cons, hpast, hrev, hbasis, Option.bind_some]
    split_ifs with hnot hchanged
    · exact ⟨_, rfl, by simp⟩
    · exact ⟨_, rfl, by simp⟩
    · have hdecides : ∀ id ∈ (past \ basisPast).toList, Decides (creates s id)
          (∃ u, W[id]? = some u ∧ u.envelope.payload.revises = true) := by
        intro id hid
        have hmem := Std.ExtTreeSet.mem_diff_iff.mp (Std.ExtTreeSet.mem_toList.mp hid)
        obtain ⟨u, hu⟩ := mem_iff.mp (branch.lawful.anc_mem ((hanc id).mp hmem.1) hhead)
        exact ⟨_, creates_spec (by rw [reads.valid, hu]), by simp [hu]⟩
      obtain ⟨created, hrun, hcreated⟩ := Decides.anyM hdecides
      refine ⟨_, by rw [hrun]; rfl, fun hnone => ⟨head, ?_, ?_, ?_, fun {x u} hu hx hxb => ?_⟩⟩
      · rw [← hrsubject, hsingle]
      · exact (hanc _).mp (by simpa using hnot)
      · rw [← not_not.mp hchanged]
        exact reads.selected.created hrev
      · by_contra hrevises
        have hmem : x ∈ (past \ basisPast).toList := Std.ExtTreeSet.mem_toList.mpr
          (Std.ExtTreeSet.mem_diff_iff.mpr ⟨(hanc x).mpr hx, mt (hbasisAnc x).mp hxb⟩)
        have htrue := hcreated.mpr ⟨x, hmem, u, hu, by simpa using hrevises⟩
        simp [htrue] at hnone

include branch pasts reads rows in
theorem edgeDrifts_spec {pins : Pins} (source : pins.source.Readable C W)
    (target : pins.target.Readable C W) :
    ∃ found, edgeDrifts pins (readingsOf subjects) s ancestors = some found ∧
      (found = [] → (∃ head, pins.source.Current cr W A head) ∧
        ∃ head, pins.target.Current cr W A head) := by
  obtain ⟨a, ha, hsource⟩ := endpoint_spec branch pasts reads rows source
  obtain ⟨b, hb, htarget⟩ := endpoint_spec branch pasts reads rows target
  refine ⟨_, by simp only [edgeDrifts, ha, hb]; rfl, fun hnil => ?_⟩
  rw [List.append_eq_nil_iff, List.map_eq_nil_iff, List.map_eq_nil_iff, Option.toList_eq_nil_iff,
    Option.toList_eq_nil_iff] at hnil
  exact ⟨hsource hnil.1, htarget hnil.2⟩

end

/-! ## Valid edges -/

theorem EdgeValid.unique {C : Candidates} {out : BTreeMap Status} {edge edge' e : Hash}
    (h : EdgeValid C out edge e) (h' : EdgeValid C out edge' e) : edge = edge' := by
  obtain ⟨t, _, ht, hedge, _⟩ := h
  obtain ⟨u, _, hu, hedge', _⟩ := h'
  obtain rfl := Option.some.inj (ht.symm.trans hu)
  exact Option.some.inj (hedge.symm.trans hedge')

namespace Verdicts
variable {cr : Crypto} {C : Candidates} {out : BTreeMap Status} {s : Subjects}
variable (verdicts : Verdicts cr C out s)
include verdicts

theorem branch : Branch cr C (validOf C out) := verdicts.sound.branch verdicts.free

theorem get {e : Hash} (he : e ∈ C) : ∃ st, out[e]? = some st :=
  mem_iff.mp ((verdicts.mem e).mpr he)

theorem chained {edge e : Hash} (h : EdgeValid C out edge e) :
    ∃ event, C[e]? = some event ∧ edgeOf e event = some edge ∧ Chained C out s edge e event := by
  obtain ⟨event, st, hs, hedge, hst, hvalid⟩ := h
  obtain ⟨hsubject, hmedia⟩ := edgeOf_subject hedge
  refine ⟨event, hs, hedge, ?_⟩
  by_cases hsettled : EdgeSettled C e
  · exact evaluateEdge_valid hs hedge ((verdicts.edge hs hsubject hmedia hsettled).trans hst) hvalid
  · obtain rfl := Option.some.inj (hst.symm.trans (verdicts.edgeCycle hs hsubject hmedia hsettled))
    simp at hvalid

theorem history_spec (edge : Hash) : ∃ h, historyOf C out edge = some h ∧
    ∀ e, e ∈ h ↔ EdgeValid C out edge e := by
  have hdecides : ∀ item ∈ C.toList, Decides
      ((do return (← out[item.1]?).state = .valid) <&&> some (edgeOf item.1 item.2 = some edge))
      ((∃ st : Status, out[item.1]? = some st ∧ st.state = .valid) ∧
        edgeOf item.1 item.2 = some edge) := by
    rintro ⟨e, t⟩ hmem
    obtain ⟨st, hst⟩ := verdicts.get
      (mem_of_getElem? (Std.ExtTreeMap.mem_toList_iff_getElem?_eq_some.mp hmem))
    exact Decides.andThen ⟨decide (st.state = .valid), by simp [hst], by simp [hst]⟩
      fun _ => ⟨_, rfl, decide_eq_true_iff⟩
  obtain ⟨kept, hrun, hkept⟩ := filterM_spec hdecides
  refine ⟨.ofList (kept.map Prod.fst), ?_, fun e => ?_⟩
  · unfold historyOf
    rw [hrun]
    rfl
  · rw [mem_ofSet, List.mem_map]
    constructor
    · rintro ⟨⟨_, t⟩, hmem, rfl⟩
      obtain ⟨ht, ⟨st, hst, hvalid⟩, hedge⟩ := (hkept _).mp hmem
      exact ⟨t, st, Std.ExtTreeMap.mem_toList_iff_getElem?_eq_some.mp ht, hedge, hst, hvalid⟩
    · rintro ⟨t, st, ht, hedge, hst, hvalid⟩
      exact ⟨(e, t), (hkept _).mpr ⟨Std.ExtTreeMap.mem_toList_iff_getElem?_eq_some.mpr ht,
        ⟨st, hst, hvalid⟩, hedge⟩, rfl⟩

theorem edge_irrefl {edge e : Hash} (h : EdgeValid C out edge e) : ¬ (history cr C).Before e e :=
  not_before_self (verdicts.linked.acyclic h)

theorem edgePasts_spec {edge : Hash} {h : BTreeSet} (hh : ∀ e, e ∈ h ↔ EdgeValid C out edge e) :
    ∃ cones, h.toList.mapM (pastOf C) = some cones ∧
      Pasts (history cr C) {e | EdgeValid C out edge e} (.ofList cones) :=
  pasts_of (nodup_toList h) (Std.ExtTreeSet.mem_toList.trans (hh _))
    (fun _ he _ ha => (verdicts.linked.anc he ha).mem) fun _ he => verdicts.edge_irrefl he

theorem edgeHeads_nonempty {edge e : Hash} (h : EdgeValid C out edge e) :
    (edgeHeads cr C out edge).Nonempty := by
  obtain ⟨m, hm, hlast⟩ := exists_head (H := history cr C) (D := {e | EdgeValid C out edge e})
    ((finite_keys C).subset fun _ he => he.mem) ⟨e, h⟩ fun _ he => verdicts.edge_irrefl he
  exact ⟨m, hm, hlast⟩

/-- A valid event of an edge shows pins that are readable at both ends. -/
theorem pinsAt_spec {edge e : Hash} (h : EdgeValid C out edge e) : ∃ pins, pinsAt C e = some pins ∧
    pins.source.Readable C (validOf C out) ∧ pins.target.Readable C (validOf C out) := by
  obtain ⟨event, hs, _, chained⟩ := verdicts.chained h
  obtain ⟨pins, hpins, hsource, htarget⟩ := chained.pins
  exact ⟨pins, by simp [pinsAt, hs, hpins], hsource.readable, htarget.readable⟩

theorem heads_spec {edge : Hash} (hedge : EdgeValid C out edge edge) :
    ∃ h cones consumed common, historyOf C out edge = some h ∧
      h.toList.mapM (pastOf C) = some cones ∧
      strictPast (.ofList cones) h.toList = some consumed ∧
      commonPast (.ofList cones) (h \ consumed).toList = some common ∧
      (∀ e, e ∈ h ↔ EdgeValid C out edge e) ∧
      (∀ e, e ∈ h \ consumed ↔ e ∈ edgeHeads cr C out edge) ∧
      ∀ e, e ∈ common ↔ ∀ k ∈ edgeHeads cr C out edge, (history cr C).Anc e k := by
  obtain ⟨h, hh, hmem⟩ := verdicts.history_spec edge
  obtain ⟨cones, hcones, hpasts⟩ := verdicts.edgePasts_spec hmem
  obtain ⟨consumed, hconsumed, hbefore⟩ := hpasts.strictPast_spec fun e he =>
    (hmem e).mp (Std.ExtTreeSet.mem_toList.mp he)
  have hheads : ∀ e, e ∈ h \ consumed ↔ e ∈ edgeHeads cr C out edge := by
    intro e
    rw [Std.ExtTreeSet.mem_diff_iff, hmem, hbefore]
    simp only [Std.ExtTreeSet.mem_toList, hmem, not_exists, not_and]
    rfl
  obtain ⟨common, hcommon, hspec⟩ := hpasts.commonPast_spec fun e he =>
    ((hheads e).mp (Std.ExtTreeSet.mem_toList.mp he)).1
  obtain ⟨m, hm⟩ := verdicts.edgeHeads_nonempty hedge
  have hne : (h \ consumed).toList ≠ [] :=
    List.ne_nil_of_mem (Std.ExtTreeSet.mem_toList.mpr ((hheads m).mpr hm))
  refine ⟨h, cones, consumed, common, hh, hcones, hconsumed, hcommon, hmem, hheads, fun e => ?_⟩
  rw [hspec hne]
  simp only [Std.ExtTreeSet.mem_toList, hheads]

theorem pins_spec {edge : Hash} (hedge : EdgeValid C out edge edge) {heads : BTreeSet}
    (hheads : ∀ e, e ∈ heads ↔ e ∈ edgeHeads cr C out edge) :
    ∃ first rest, heads.toList.mapM (pinsAt C) = some (first :: rest) ∧
      first.source.Readable C (validOf C out) ∧ first.target.Readable C (validOf C out) := by
  have hpinned : ∀ c ∈ heads.toList, ∃ pins, pinsAt C c = some pins ∧
      pins.source.Readable C (validOf C out) ∧ pins.target.Readable C (validOf C out) :=
    fun c hc => verdicts.pinsAt_spec ((hheads c).mp (Std.ExtTreeSet.mem_toList.mp hc)).1
  obtain ⟨m, hm⟩ := verdicts.edgeHeads_nonempty hedge
  obtain ⟨head, rest, hcons⟩ := List.exists_cons_of_ne_nil
    (List.ne_nil_of_mem (Std.ExtTreeSet.mem_toList.mpr ((hheads m).mpr hm)))
  obtain ⟨first, hfirst, hreadable⟩ := hpinned head (by simp [hcons])
  have hpins : heads.toList.mapM (pinsAt C) =
      some (heads.toList.map fun c => (pinsAt C c).getD first) := by
    apply mapM_spec
    intro c hc
    obtain ⟨q, hq, _⟩ := hpinned c hc
    simp [hq]
  exact ⟨first, rest.map fun c => (pinsAt C c).getD first,
    by rw [hpins, hcons, List.map_cons, hfirst]; rfl, hreadable⟩

end Verdicts

/-! ## All edges -/

/-- What an edge's reading says. -/
structure EdgeReading.Reads (cr : Crypto) (C : Candidates) (out : BTreeMap Status) (A : Authority)
    (r : EdgeReading) : Prop where
  valid : EdgeValid C out r.edge r.edge
  asserted : ∃ t pins decision, C[r.edge]? = some t ∧ t.envelope.author = r.author ∧
    t.envelope.payload = .edgeAssert r.relation pins decision
  heads : ∀ e, e ∈ r.heads ↔ e ∈ edgeHeads cr C out r.edge
  history : ∀ e, e ∈ r.history ↔ EdgeValid C out r.edge e
  pins : r.heads.toList.mapM (pinsAt C) = some r.pins
  ends : ∃ first rest, r.pins = first :: rest ∧ first.source.subject ∈ C ∧
    first.target.subject ∈ C
  current : r.status = .current → ∃ pins, r.pins = [pins] ∧
    (∃ head, pins.source.Current cr (validOf C out) A head) ∧
    ∃ head, pins.target.Current cr (validOf C out) A head

/-- The valid assertions among listed events. -/
def assertsOf (out : BTreeMap Status) (items : List (Hash × Signed)) : List Hash :=
  (items.filter fun item => item.2.envelope.payload.kind = .edgeAssert ∧
    (out[item.1]?).any fun st => st.state = .valid).map Prod.fst

theorem assertsOf_append {out : BTreeMap Status} {items : List (Hash × Signed)} {id : Hash}
    {event : Signed} {st : Status} (hst : out[id]? = some st) :
    assertsOf out (items ++ [(id, event)]) = assertsOf out items ++
      if event.envelope.payload.kind = .edgeAssert ∧ st.state = .valid then [id] else [] := by
  simp only [assertsOf, List.filter_append, List.map_append, List.filter_singleton, hst,
    Option.any_some]
  split_ifs with h
  · simp [h.1, h.2]
  · have hnot : (decide (event.envelope.payload.kind = .edgeAssert) &&
        decide (st.state = .valid)) = false := by
      simpa using h
    simp [hnot]

/-- What the loop over the edges has read after the items `done`. -/
structure EdgeRows (cr : Crypto) (C : Candidates) (out : BTreeMap Status) (A : Authority)
    (done : List (Hash × Signed)) (edges : List EdgeReading) (rows : RowStates) : Prop where
  named : edges.map EdgeReading.edge = assertsOf out done
  reads : ∀ r ∈ edges, r.Reads cr C out A
  rows : ∀ {e : Hash} {row : RowState}, rows[e]? = some row ↔
    ∃ item ∈ done, item.2.envelope.payload.kind = .edgeAssert ∧
      EdgeValid C out item.1 item.1 ∧ EdgeValid C out item.1 e ∧
      row = edgeRowOf cr C out item.1 e

section
variable {cr : Crypto} {C : Candidates} {out : BTreeMap Status} {s s' : Subjects}
variable (verdicts : Verdicts cr C out s) {A : Authority} {ancestors : BTreeMap BTreeSet}
variable (pasts : Pasts (history cr (validOf C out)) {e | e ∈ validOf C out} ancestors)
variable (reads : s'.Reads cr (validOf C out)) {subjects : List SubjectReading} {states : RowStates}
variable
    (subjectRows : SubjectRows cr (validOf C out) A (genesesOf (validOf C out)) subjects states)
include verdicts pasts reads subjectRows

theorem edgeStanding_spec {heads : BTreeSet} {first : Pins} {rest : List Pins}
    (hlen : (first :: rest).length = heads.size)
    (source : first.source.Readable C (validOf C out))
    (target : first.target.Readable C (validOf C out)) :
    ∃ place, edgeStanding heads (first :: rest) s' (readingsOf subjects) ancestors = some place ∧
      (place.1 = .current → rest = [] ∧
        (∃ head, first.source.Current cr (validOf C out) A head) ∧
        ∃ head, first.target.Current cr (validOf C out) A head) := by
  obtain ⟨found, hfound, hfresh⟩ :=
    edgeDrifts_spec verdicts.branch pasts reads subjectRows source target
  unfold edgeStanding
  split_ifs with hmany
  · exact ⟨_, rfl, by simp⟩
  · refine ⟨_, by simp only [List.getElem?_cons_zero, hfound, Option.bind_eq_bind,
      Option.bind_some]; rfl, fun hcurrent => ⟨?_, hfresh ?_⟩⟩
    · rw [List.length_cons] at hlen
      exact List.eq_nil_of_length_eq_zero (by omega)
    · simp only [edgeStatus] at hcurrent
      split_ifs at hcurrent with hempty
      simpa using hempty

omit verdicts pasts reads subjectRows in
open Classical in
theorem edgeRow_spec {edge : Hash} {heads common : BTreeSet}
    (hheads : ∀ e, e ∈ heads ↔ e ∈ edgeHeads cr C out edge)
    (hcommon : ∀ e, e ∈ common ↔ ∀ h ∈ edgeHeads cr C out edge, (history cr C).Anc e h) (e : Hash) :
    edgeRow heads common e = edgeRowOf cr C out edge e := by
  have hmem : heads.contains e = decide (e ∈ edgeHeads cr C out edge) := by
    rw [Bool.eq_iff_iff, Std.ExtTreeSet.contains_iff_mem, hheads, decide_eq_true_iff]
  simp only [edgeRow, edgeRowOf, contention_spec hheads (fun _ => hcommon), hmem]

theorem projectEdge_spec {done : List (Hash × Signed)} {edges : List EdgeReading} {rows : RowStates}
    (inv : EdgeRows cr C out A done edges rows) {id : Hash} {event : Signed}
    (hs : C[id]? = some event) :
    ∃ edges' rows', projectEdge C out s' (readingsOf subjects) ancestors (edges, rows) (id, event) =
        some (edges', rows') ∧ EdgeRows cr C out A (done ++ [(id, event)]) edges' rows' := by
  obtain ⟨st, hst⟩ := verdicts.get (mem_of_getElem? hs)
  -- An item that is not a valid edge adds nothing.
  have hskip : ¬ (event.envelope.payload.kind = .edgeAssert ∧ st.state = .valid) →
      EdgeRows cr C out A (done ++ [(id, event)]) edges rows := by
    intro hnot
    refine ⟨?_, inv.reads, fun {e row} => ?_⟩
    · rw [assertsOf_append hst, if_neg hnot, List.append_nil, inv.named]
    rw [inv.rows]
    constructor
    · rintro ⟨item, hitem, h⟩
      exact ⟨item, List.mem_append_left _ hitem, h⟩
    · rintro ⟨item, hitem, hkind, hvalid, h⟩
      rcases List.mem_append.mp hitem with hitem | hitem
      · exact ⟨item, hitem, hkind, hvalid, h⟩
      · obtain rfl := List.mem_singleton.mp hitem
        obtain ⟨_, st', _, _, hst', hvalid⟩ := hvalid
        exact absurd ⟨hkind, Option.some.inj (hst.symm.trans hst') ▸ hvalid⟩ hnot
  cases hp : event.envelope.payload with
  | edgeAssert relation pins decision =>
    by_cases hvalid : st.state = .valid
    · have hedge : EdgeValid C out id id := ⟨event, st, hs, by simp [edgeOf, hp], hst, hvalid⟩
      obtain ⟨h, cones, consumed, common, hh, hcones, hconsumed, hcommon, hmem, hheads, hspec⟩ :=
        verdicts.heads_spec hedge
      obtain ⟨first, rest, hpins, source, target⟩ := verdicts.pins_spec hedge hheads
      have hlen : (first :: rest).length = (h \ consumed).size := by
        rw [← mapM_length hpins, Std.ExtTreeSet.length_toList]
      obtain ⟨⟨status, reasons⟩, hplace, hcurrent⟩ :=
        edgeStanding_spec verdicts pasts reads subjectRows hlen source target
      refine ⟨edges ++ [⟨id, event.envelope.author, relation, decision.evidence, h \ consumed,
        first :: rest, h, status, reasons⟩],
        h.toList.foldl (fun rows c => rows.insert c (edgeRow (h \ consumed) common c)) rows,
        ?_, ?_, ?_, ?_⟩
      · simp only [projectEdge, hp, hst, hvalid, hh, hcones, hconsumed, hcommon, hpins, hplace,
          Option.bind_eq_bind, Option.bind_some, ne_eq, not_true, if_false]
        rfl
      · rw [assertsOf_append hst, if_pos ⟨by simp [hp, Payload.kind], hvalid⟩, List.map_append,
          inv.named]
        rfl
      · intro r hr
        rcases List.mem_append.mp hr with hr | hr
        · exact inv.reads r hr
        · obtain rfl := List.mem_singleton.mp hr
          refine ⟨hedge, ⟨event, pins, decision, hs, rfl, hp⟩, hheads, hmem, hpins,
            ⟨first, rest, rfl, source.known, target.known⟩, fun hnow => ?_⟩
          obtain ⟨hnil, hends⟩ := hcurrent hnow
          exact ⟨first, by rw [hnil], hends⟩
      · intro e row
        rw [insertRows_get, Std.ExtTreeSet.mem_toList, hmem, inv.rows, edgeRow_spec hheads hspec]
        constructor
        · rintro (⟨he, rfl⟩ | ⟨_, item, hitem, h⟩)
          · exact ⟨(id, event), by simp, by simp [hp, Payload.kind], hedge, he, rfl⟩
          · exact ⟨item, List.mem_append_left _ hitem, h⟩
        · rintro ⟨item, hitem, hkind, hbase, he, rfl⟩
          by_cases hid : EdgeValid C out id e
          · rw [he.unique hid]
            exact Or.inl ⟨hid, rfl⟩
          · refine Or.inr ⟨hid, item, ?_, hkind, hbase, he, rfl⟩
            refine (List.mem_append.mp hitem).resolve_right fun hsingle => hid ?_
            rwa [List.mem_singleton.mp hsingle] at he
    · exact ⟨edges, rows, by simp [projectEdge, hp, hst, hvalid], hskip fun h => hvalid h.2⟩
  | _ =>
    refine ⟨edges, rows, by simp [projectEdge, hp], hskip ?_⟩
    simp [hp, Payload.kind]

end

end Clockchain.V1
