import Clockchain.V0.Agreement
import Clockchain.V0.Reach

/-!
# Views pinned at a coordinate

What a further event does to the evidence view below its event time, for each of the four
reads and for the verdicts drawn from them.
-/

namespace Clockchain.V0
open Codec Lineages Survivors Programs
open V1 (Hash BTreeMap Crypto Verify)
set_option autoImplicit false

/-! ## What a search reads -/

/-- Two views answer alike at `asOf`, up to the order of rows no query asks for. -/
structure CorpusView.AgreeAt (v v' : CorpusView) (asOf : Tick) : Prop where
  neighbors : ∀ entity, v.neighbors entity asOf = v'.neighbors entity asOf
  neighborsMany : ∀ entities, ∃ out out', v.neighborsMany entities asOf = .ok out ∧
    v'.neighborsMany entities asOf = .ok out' ∧
    ∀ entity, (entity ∈ out ↔ entity ∈ out') ∧ (out.getD entity []).Perm (out'.getD entity [])
  window : ∀ entity, v.window entity asOf = v'.window entity asOf
  admissibility : ∀ c, v.admissibility c asOf = v'.admissibility c asOf

section Filter
variable {v v' : CorpusView} {asOf : Tick} (h : v.AgreeAt v' asOf)
include h

theorem expand_congr (labels : Labels) (depth : Nat) :
    expand v labels depth asOf = expand v' labels depth asOf := by
  obtain ⟨out, out', hout, hout', hsame⟩ := h.neighborsMany labels.frontier.toList
  have hedges : ∀ e, canonicalEdges (out.getD e []) = canonicalEdges (out'.getD e []) := fun e =>
    canonicalEdges_perm (hsame e).2
  simp only [expand, hout, hout', bind, Except.bind, hedges]

theorem search_congr (kHops rounds : Nat) (s : Search) :
    Search.run v kHops asOf rounds s = Search.run v' kHops asOf rounds s := by
  induction rounds generalizing s with
  | zero => rfl
  | succ rounds ih =>
    have hexpand : s.expand v asOf = s.expand v' asOf := by
      simp only [Search.expand, expand_congr h]
    simp only [Search.run, hexpand, ih]

theorem backwardLabels_congr (rounds level : Nat) (labels : Labels) :
    backwardLabels v asOf rounds level labels = backwardLabels v' asOf rounds level labels := by
  induction rounds generalizing level labels with
  | zero => rfl
  | succ rounds ih => simp only [backwardLabels, expand_congr h, ih]

theorem greedyWalk_congr (back : EntityMap Nat) (remaining : Nat) (cur : EntityId) :
    greedyWalk v back asOf remaining cur = greedyWalk v' back asOf remaining cur := by
  induction remaining generalizing cur with
  | zero => rfl
  | succ remaining ih => simp only [greedyWalk, h.neighbors, ih]

theorem knownK_congr (source target : EntityId) (k : Nat) :
    knownK v source target k asOf = knownK v' source target k asOf := by
  simp only [knownK, shortestDistance, search_congr h, backwardLabels_congr h, greedyWalk_congr h]

/-- The verdict on a query is a function of what the view says at its coordinate. -/
theorem feasibility_congr (f : Filter) (q : FeasibilityQuery) (hq : q.tQ = asOf) :
    (f.feasibility v q).map Judgment.consensusProjection =
      (f.feasibility v' q).map Judgment.consensusProjection := by
  subst hq
  simp only [Filter.feasibility, h.window, h.admissibility, knownK_congr h]
  cases (f.checkQuery q).mapError FilterError.malformed with
  | error e => rfl
  | ok _ =>
  simp only [bind, Except.bind]
  cases (v'.window q.subjects.1 q.tQ).mapError FilterError.view with
  | error e => rfl
  | ok first =>
  simp only
  cases (windowFactor first q.tQ q.subjects.1).rejects with
  | some verdict => rfl
  | none =>
  simp only
  cases (v'.window q.subjects.2 q.tQ).mapError FilterError.view with
  | error e => rfl
  | ok second =>
  simp only
  cases (windowFactor second q.tQ q.subjects.2).rejects with
  | some verdict => rfl
  | none =>
  simp only
  cases (v'.admissibility q.claim q.tQ).mapError FilterError.view with
  | error e => rfl
  | ok admitted =>
  simp only
  cases (admissFactor admitted q.claim).rejects with
  | some verdict => rfl
  | none =>
  simp only
  cases (knownK v' q.subjects.1 q.subjects.2 q.k q.tQ).mapError FilterError.view with
  | error e => rfl
  | ok reach => cases reach <;> rfl

theorem certify_congr (f : Filter) (q : FeasibilityQuery) (hq : q.tQ = asOf) :
    (f.certify v q).map (fun c => c.judgment.consensusProjection) =
      (f.certify v' q).map fun c => c.judgment.consensusProjection := by
  subst hq
  simp only [Filter.certify, h.window, h.admissibility, knownK_congr h]
  cases (f.checkQuery q).mapError FilterError.malformed with
  | error e => rfl
  | ok _ =>
  simp only [bind, Except.bind]
  cases (v'.window q.subjects.1 q.tQ).mapError FilterError.view with
  | error e => rfl
  | ok first =>
  simp only
  cases (v'.window q.subjects.2 q.tQ).mapError FilterError.view with
  | error e => rfl
  | ok second =>
  simp only
  cases (v'.admissibility q.claim q.tQ).mapError FilterError.view with
  | error e => rfl
  | ok admitted =>
  simp only
  cases (knownK v' q.subjects.1 q.subjects.2 q.k q.tQ).mapError FilterError.view with
  | error e => rfl
  | ok reach =>
  simp only
  split <;> rfl

end Filter

/-! ## What the queries return -/

section Queries
variable {t t' : Tables} {bound : Hash} {asOf : Tick}

/-- An edge row the bound lets through. -/
def Tables.Seen (t : Tables) (bound id : Hash) (src dst : EntityId) : Prop :=
  ∃ row, t.edges[id]? = some row ∧ row.eventTime ≤ bound ∧ row.srcEntity = src ∧
    row.dstEntity = dst

/-- The edge `via` joins two entities, whichever of them is its source. -/
def Tables.Joins (t : Tables) (bound : Hash) (entity other : EntityId) (via : Hash) : Prop :=
  t.Seen bound via entity other ∨ t.Seen bound via other entity

theorem Tables.Joins.comm {entity other : EntityId} {via : Hash} :
    t.Joins bound entity other via ↔ t.Joins bound other entity via := Or.comm

section Selections
variable {entities : List EntityId} {entity : EntityId} {e : Edge} {r : EntityId × Edge}

theorem outgoing_iff : (∃ row, t.edges[e.via]? = some row ∧
      (if row.srcEntity = entity ∧ row.eventTime ≤ bound then
        some (⟨row.dstEntity, e.via⟩ : Edge) else none) = some e) ↔
      t.Seen bound e.via entity e.other := by
  obtain ⟨other, via⟩ := e
  refine exists_congr fun row => and_congr_right fun _ => ?_
  simp only [Option.ite_none_right_eq_some, Option.some.injEq, Edge.mk.injEq, and_true]
  tauto

theorem incoming_iff : (∃ row, t.edges[e.via]? = some row ∧
      (if row.dstEntity = entity ∧ row.eventTime ≤ bound then
        some (⟨row.srcEntity, e.via⟩ : Edge) else none) = some e) ↔
      t.Seen bound e.via e.other entity := by
  obtain ⟨other, via⟩ := e
  refine exists_congr fun row => and_congr_right fun _ => ?_
  simp only [Option.ite_none_right_eq_some, Option.some.injEq, Edge.mk.injEq, and_true]
  tauto

theorem outgoing_rows_iff : (∃ row, t.edges[r.2.via]? = some row ∧
      (if row.srcEntity ∈ entities ∧ row.eventTime ≤ bound then
        some (row.srcEntity, (⟨row.dstEntity, r.2.via⟩ : Edge)) else none) = some r) ↔
      r.1 ∈ entities ∧ t.Seen bound r.2.via r.1 r.2.other := by
  obtain ⟨anchor, other, via⟩ := r
  rw [Tables.Seen, ← exists_and_left]
  refine exists_congr fun row => ?_
  simp only [Option.ite_none_right_eq_some, Option.some.injEq, Prod.mk.injEq, Edge.mk.injEq,
    and_true]
  constructor
  · rintro ⟨hrow, ⟨hmem, hle⟩, rfl, hdst⟩
    exact ⟨hmem, hrow, hle, rfl, hdst⟩
  · rintro ⟨hmem, hrow, hle, rfl, hdst⟩
    exact ⟨hrow, ⟨hmem, hle⟩, rfl, hdst⟩

theorem incoming_rows_iff : (∃ row, t.edges[r.2.via]? = some row ∧
      (if row.dstEntity ∈ entities ∧ row.eventTime ≤ bound then
        some (row.dstEntity, (⟨row.srcEntity, r.2.via⟩ : Edge)) else none) = some r) ↔
      r.1 ∈ entities ∧ t.Seen bound r.2.via r.2.other r.1 := by
  obtain ⟨anchor, other, via⟩ := r
  rw [Tables.Seen, ← exists_and_left]
  refine exists_congr fun row => ?_
  simp only [Option.ite_none_right_eq_some, Option.some.injEq, Prod.mk.injEq, Edge.mk.injEq,
    and_true]
  constructor
  · rintro ⟨hrow, ⟨hmem, hle⟩, rfl, hsrc⟩
    exact ⟨hmem, hrow, hle, hsrc, rfl⟩
  · rintro ⟨hmem, hrow, hle, hsrc, rfl⟩
    exact ⟨hrow, ⟨hmem, hle⟩, rfl, hsrc⟩

theorem selected_via {c : Prop} [Decidable c] {e' : Edge}
    (h : (if c then some e' else none) = some e) : e.via = e'.via := by
  rw [Option.ite_none_right_eq_some] at h
  rw [← Option.some.inj h.2]

theorem selected_row_via {c : Prop} [Decidable c] {r' : EntityId × Edge}
    (h : (if c then some r' else none) = some r) : r.2.via = r'.2.via := by
  rw [Option.ite_none_right_eq_some] at h
  rw [← Option.some.inj h.2]

theorem mem_neighborsAt : e ∈ t.neighborsAt entity asOf ↔
    t.Joins asOf.toCanon entity e.other e.via := by
  rw [Tables.neighborsAt, mem_sort, List.mem_append,
    Maps.mem_filterMap_toList Edge.via selected_via,
    Maps.mem_filterMap_toList Edge.via selected_via]
  exact or_congr outgoing_iff incoming_iff

theorem mem_neighborRows : r ∈ t.neighborRows entities asOf ↔
    r.1 ∈ entities ∧ t.Joins asOf.toCanon r.1 r.2.other r.2.via := by
  rw [Tables.neighborRows, List.mem_append,
    Maps.mem_filterMap_toList (fun r => r.2.via) selected_row_via,
    Maps.mem_filterMap_toList (fun r => r.2.via) selected_row_via, Tables.Joins, and_or_left]
  exact or_congr outgoing_rows_iff incoming_rows_iff

variable (h : ∀ (id : Hash) (src dst : EntityId),
  t.Seen asOf.toCanon id src dst ↔ t'.Seen asOf.toCanon id src dst)
include h

theorem neighborsAt_congr : t.neighborsAt entity asOf = t'.neighborsAt entity asOf := by
  refine Edge.sort_perm (List.Perm.append ?_ ?_)
  · refine Maps.filterMap_perm Edge.via selected_via fun e => ?_
    exact outgoing_iff.trans ((h _ _ _).trans outgoing_iff.symm)
  · refine Maps.filterMap_perm Edge.via selected_via fun e => ?_
    exact incoming_iff.trans ((h _ _ _).trans incoming_iff.symm)

theorem neighborRows_perm :
    (t.neighborRows entities asOf).Perm (t'.neighborRows entities asOf) := by
  refine List.Perm.append ?_ ?_
  · refine Maps.filterMap_perm (fun r => r.2.via) selected_row_via fun r => ?_
    rw [outgoing_rows_iff, outgoing_rows_iff, h]
  · refine Maps.filterMap_perm (fun r => r.2.via) selected_row_via fun r => ?_
    rw [incoming_rows_iff, incoming_rows_iff, h]

end Selections

/-! ## Batched reads -/

theorem getD_push {rows : List (EntityId × Edge)} {out : EntityMap (List Edge)} {e : EntityId} :
    (rows.foldl push out).getD e [] =
      out.getD e [] ++ (rows.filter fun r => r.1 = e).map Prod.snd := by
  induction rows generalizing out with
  | nil => simp
  | cons r rows ih =>
    rw [List.foldl_cons, ih, push, Std.ExtTreeMap.getD_eq_getD_getElem?, Maps.getElem?_insert,
      List.filter_cons]
    by_cases hr : r.1 = e
    · subst hr
      simp
    · simp [hr, Std.ExtTreeMap.getD_eq_getD_getElem?]

theorem mem_push {rows : List (EntityId × Edge)} {out : EntityMap (List Edge)} {e : EntityId} :
    e ∈ rows.foldl push out ↔ e ∈ out ∨ ∃ r ∈ rows, r.1 = e := by
  induction rows generalizing out with
  | nil => simp
  | cons r rows ih =>
    rw [List.foldl_cons, ih, push, Maps.mem_map_insert]
    simp only [List.mem_cons, exists_eq_or_imp]
    rw [or_assoc, eq_comm]
    tauto

section Views
variable {v v' : PgCorpusView} {entities : List EntityId} {entity : EntityId}

theorem getD_neighborsManyAt (hne : entities ≠ []) :
    (v.neighborsManyAt entities asOf).getD entity [] =
      ((v.scan entities asOf (v.tables.neighborRows entities asOf)).filter
        fun r => r.1 = entity).map Prod.snd := by
  rw [PgCorpusView.neighborsManyAt, if_neg (by simpa using hne), getD_push]
  simp

theorem mem_neighborsManyAt (hne : entities ≠ []) : entity ∈ v.neighborsManyAt entities asOf ↔
    ∃ r ∈ v.tables.neighborRows entities asOf, r.1 = entity := by
  rw [PgCorpusView.neighborsManyAt, if_neg (by simpa using hne), mem_push]
  simp only [Std.ExtTreeMap.not_mem_empty, false_or, (v.scanned _ _ _).mem_iff]

/-- The batched read gives a requested entity the edges the single read gives it. -/
theorem neighborsManyAt_iff (hmem : entity ∈ entities) {e : Edge} :
    e ∈ (v.neighborsManyAt entities asOf).getD entity [] ↔
      e ∈ v.tables.neighborsAt entity asOf := by
  rw [getD_neighborsManyAt (List.ne_nil_of_mem hmem), mem_neighborsAt, List.mem_map]
  constructor
  · rintro ⟨⟨anchor, e⟩, hr, rfl⟩
    rw [List.mem_filter, (v.scanned _ _ _).mem_iff, mem_neighborRows, decide_eq_true_eq] at hr
    obtain ⟨⟨_, hjoins⟩, rfl⟩ := hr
    exact hjoins
  · intro hjoins
    refine ⟨(entity, e), ?_, rfl⟩
    rw [List.mem_filter, (v.scanned _ _ _).mem_iff, mem_neighborRows]
    exact ⟨⟨hmem, hjoins⟩, by simp⟩

/-- The reads at `asOf` do not tell the tables apart. -/
structure Tables.AlikeAt (t t' : Tables) (asOf : Tick) : Prop where
  edges : ∀ (id : Hash) (src dst : EntityId),
    t.Seen asOf.toCanon id src dst ↔ t'.Seen asOf.toCanon id src dst
  window : ∀ entity, t.windowAt entity asOf = t'.windowAt entity asOf
  admissibility : ∀ c, t.admissibilityAt c asOf = t'.admissibilityAt c asOf

theorem Tables.AlikeAt.agree (h : v.tables.AlikeAt v'.tables asOf) :
    v.corpusView.AgreeAt v'.corpusView asOf where
  neighbors entity := congrArg Except.ok (neighborsAt_congr h.edges)
  neighborsMany entities := by
    refine ⟨_, _, rfl, rfl, fun entity => ?_⟩
    by_cases hne : entities = []
    · subst hne
      exact ⟨Iff.rfl, List.Perm.refl _⟩
    · have hrows := @neighborRows_perm _ _ _ entities h.edges
      rw [mem_neighborsManyAt hne, mem_neighborsManyAt hne, getD_neighborsManyAt hne,
        getD_neighborsManyAt hne]
      refine ⟨exists_congr fun r => and_congr_left' hrows.mem_iff, ?_⟩
      have hscans := (v.scanned entities asOf _).trans
        (hrows.trans (v'.scanned entities asOf _).symm)
      exact (hscans.filter _).map _
  window entity := congrArg Except.ok (h.window entity)
  admissibility c := congrArg Except.ok (h.admissibility c)

end Views

end Queries

/-! ## One more event -/

section Commits
variable {cr : Crypto} {verify : Verify} {s : Signed cr verify} {A : Set (Signed cr verify)}
  {t t' : Tables} {asOf : Tick}

theorem Folded.seen_iff (h : Folded A t) {bound id : Hash} {src dst : EntityId} :
    t.Seen bound id src dst ↔ ∃ s ∈ A, s.id = id ∧ ∃ ed, s.content.body = .edge ed ∧
      ed.src = src ∧ ed.dst = dst ∧ s.content.eventTime.toCanon ≤ bound := by
  constructor
  · rintro ⟨row, hrow, hle, rfl, rfl⟩
    obtain ⟨s, hs, hid, base, hbase, rfl⟩ := (h.edges id row).mp hrow
    unfold Signed.edge at hbase
    split at hbase
    · next ed hed =>
      obtain rfl := Option.some.inj hbase
      exact ⟨s, hs, hid, ed, hed, rfl, rfl, hle⟩
    · cases hbase
  · rintro ⟨s, hs, hid, ed, hed, rfl, rfl, hle⟩
    have hedge : s.edge = some (Tables.edgeRow s.content ed) := by simp only [Signed.edge, hed]
    exact ⟨_, (h.edges id _).mpr ⟨s, hs, hid, _, hedge, rfl⟩, hle, rfl, rfl⟩

section Later
variable (h : Folded A t) (h' : Folded (insert s A) t')
  (hlater : asOf.slt s.content.eventTime = true)
include h h' hlater

theorem Folded.seen_later {id : Hash} {src dst : EntityId} :
    t'.Seen asOf.toCanon id src dst ↔ t.Seen asOf.toCanon id src dst := by
  rw [h'.seen_iff, h.seen_iff]
  constructor
  · rintro ⟨s', rfl | hs', hid, ed, hed, hsrc, hdst, hle⟩
    · exact absurd (Tick.toCanon_lt.mpr hlater) (BitVec.not_lt.mpr hle)
    · exact ⟨s', hs', hid, ed, hed, hsrc, hdst, hle⟩
  · rintro ⟨s', hs', hsaid⟩
    exact ⟨s', Set.mem_insert_of_mem s hs', hsaid⟩

/-- A birth that comes after `asOf` replaces none that does not. -/
theorem Folded.window_later (entity : EntityId) :
    t'.windowAt entity asOf = t.windowAt entity asOf := by
  unfold Tables.windowAt
  rcases h.entities.kept_or_claimed h'.entities (k := entity) with heq | ⟨row', hclaim, hrow', hle⟩
  · rw [heq]
  · have htime : row'.birthEventTime = s.content.eventTime.toCanon := by
      unfold Signed.birth at hclaim
      split at hclaim
      · obtain ⟨_, rfl⟩ := Prod.mk.inj (Option.some.inj hclaim)
        rfl
      · cases hclaim
    have hlt : asOf.toCanon < row'.birthEventTime := htime ▸ Tick.toCanon_lt.mpr hlater
    have hhidden : ∀ row : EntityRow, asOf.toCanon < row.birthEventTime →
        (if row.birthEventTime ≤ asOf.toCanon then row.decodeWindow else .unrecorded) =
          Windowed.unrecorded := fun row hrow => if_neg (BitVec.not_le.mpr hrow)
    rw [hrow']
    simp only [hhidden row' hlt]
    cases hrow : t.entities[entity]? with
    | none => rfl
    | some row =>
      refine (hhidden row ?_).symm
      have hfirst := (Prod.Lex.toLex_le_toLex.mp (hle row hrow)).imp le_of_lt fun h => h.1.le
      rw [BitVec.lt_def] at hlt ⊢
      exact hlt.trans_le (or_self_iff.mp hfirst)

end Later

/-! ## Declarations -/

/-- The band of the declaration has begun by `asOf`. -/
def VocabularyRow.Begun (row : VocabularyRow) (asOf : Tick) : Prop :=
  row.startState = .known ∧ asOf.slt (Tick.ofCanon row.bandStart) = false

/-- A declaration whose band has begun names itself. -/
theorem provenance_of_begun {row : VocabularyRow} (h : row.Begun asOf) :
    admittedProvenance (row.admittedAt asOf) = [row.declaredBy] := by
  obtain ⟨hstart, hbegun⟩ := h
  simp only [VocabularyRow.admittedAt, hstart, hbegun, Bool.false_eq_true, if_false]
  split <;> rfl

theorem unrecorded_iff {row : VocabularyRow} :
    row.admittedAt asOf = .unrecorded ↔ ¬ row.Begun asOf := by
  constructor
  · intro h hbegun
    have hnamed := provenance_of_begun hbegun
    rw [h] at hnamed
    cases hnamed
  · intro h
    unfold VocabularyRow.admittedAt
    cases hstart : row.startState with
    | unknown => rfl
    | known =>
      have hbefore : asOf.slt (Tick.ofCanon row.bandStart) = true := by
        rw [← Bool.not_eq_false]
        exact fun hbegun => h ⟨hstart, hbegun⟩
      simp only [hbefore, if_true]

theorem admittedAt_eq_iff {row row' : VocabularyRow} (hne : row.declaredBy ≠ row'.declaredBy) :
    row.admittedAt asOf = row'.admittedAt asOf ↔ ¬ row.Begun asOf ∧ ¬ row'.Begun asOf := by
  constructor
  · intro heq
    by_cases h : row.Begun asOf
    · by_cases h' : row'.Begun asOf
      · have hnamed := congrArg admittedProvenance heq
        rw [provenance_of_begun h, provenance_of_begun h'] at hnamed
        exact absurd (List.singleton_inj.mp hnamed) hne
      · exact absurd h (unrecorded_iff.mp (heq.trans (unrecorded_iff.mpr h')))
    · exact ⟨h, unrecorded_iff.mp (heq.symm.trans (unrecorded_iff.mpr h))⟩
  · rintro ⟨h, h'⟩
    rw [unrecorded_iff.mpr h, unrecorded_iff.mpr h']

/-- A declaration takes its claim type over, and it or the one it replaces speaks at `asOf`. -/
def Tables.Leaks (t : Tables) (s : Signed cr verify) (v : VocabularyEntry) (asOf : Tick) : Prop :=
  (∀ prior, t.vocabulary[v.claimType]? = some prior →
    foldOrder s.content.eventTime.toCanon s.id < prior.order) ∧
  ((Tables.vocabularyRow s.content s.id v).Begun asOf ∨
    ∃ prior, t.vocabulary[v.claimType]? = some prior ∧ prior.Begun asOf)

section Declared
variable (h : Folded A t) (h' : Folded (insert s A) t')
include h h'

theorem Folded.vocabulary_unclaimed {c : ClaimType} (hno : ∀ r, s.declaration ≠ some (c, r)) :
    t'.admissibilityAt c asOf = t.admissibilityAt c asOf := by
  rw [Tables.admissibilityAt, Tables.admissibilityAt, h.vocabulary.unclaimed h'.vocabulary hno]

variable (hnamed : Named (insert s A)) (hnew : s ∉ A)
include hnamed hnew

theorem Folded.admissibility_declared {v : VocabularyEntry}
    (hbody : s.content.body = .vocabularyDeclare v) :
    t'.admissibilityAt v.claimType asOf = t.admissibilityAt v.claimType asOf ↔
      ¬ t.Leaks s v asOf := by
  have hdeclares : s.declaration = some (v.claimType, Tables.vocabularyRow s.content s.id v) := by
    simp only [Signed.declaration, hbody]
  unfold Tables.admissibilityAt Tables.Leaks
  cases hprior : t.vocabulary[v.claimType]? with
  | none =>
    rw [h.vocabulary.wins h'.vocabulary hdeclares (Or.inl (h.vocabulary.eq_empty hprior))]
    simp only [reduceCtorEq, false_implies, implies_true, true_and, false_and, exists_false,
      or_false]
    exact unrecorded_iff
  | some prior =>
    simp only [Option.some.injEq, forall_eq', exists_eq_left']
    by_cases hlt : foldOrder s.content.eventTime.toCanon s.id < prior.order
    · rw [h.vocabulary.wins h'.vocabulary hdeclares (Or.inr ⟨prior, hprior, hlt⟩)]
      obtain ⟨⟨s', hs', hdeclares'⟩, _⟩ := (h.vocabulary v.claimType prior).mp hprior
      have hne : s.id ≠ prior.declaredBy := fun heq =>
        hnamed.fresh hnew hs' ((Signed.declaration_event hdeclares').symm.trans heq.symm)
      simp only [hlt, true_and, not_or]
      exact admittedAt_eq_iff hne
    · rw [h.vocabulary.sits h'.vocabulary hdeclares hprior (not_lt.mp hlt)]
      simp only [hlt, false_and, not_false_eq_true]

end Declared

end Commits

/-! ## Every store a run reaches -/

section Runs
variable {cr : Crypto} {verify : Verify} {ledger : Ledger} {s : Signed cr verify} {asOf : Tick}

/-- A new declaration that takes its claim type over and is heard at `asOf`. -/
def Ledger.Leaks (ledger : Ledger) (s : Signed cr verify) (asOf : Tick) : Prop :=
  s.id ∉ ledger.events ∧ ∃ v, s.content.body = .vocabularyDeclare v ∧ v.claimType ≠ 0 ∧
    ledger.tables.Leaks s v asOf

/-- The commit of a vocabulary declaration goes through. -/
theorem submit_declaration (hsound : ledger.Sound cr verify) (hnew : s.id ∉ ledger.events)
    {v : VocabularyEntry} (hbody : s.content.body = .vocabularyDeclare v)
    (hcode : v.claimType ≠ 0) : ∃ outcome, ledger.commit s = .ok (outcome, ledger.submit s) := by
  have htally := Tables.ensureStatsRow_tallied hsound.folded.tallied
  have happly : ∀ events, ∃ t', ledger.tables.apply cr events s.content s.id = .ok t' := by
    intro events
    simp only [Tables.apply, hbody, Tables.projectVocabulary_eq htally hcode]
    exact ⟨_, rfl⟩
  obtain ⟨t', ht'⟩ := happly (ledger.events.insert s.id s.row)
  have hcommit : ledger.commit s =
      .ok (.new, { events := ledger.events.insert s.id s.row, tables := t' }) := by
    simp only [Ledger.commit, Ledger.append, Maps.contains_eq_false.mpr hnew, Bool.false_eq_true,
      if_false, ht']
    rfl
  exact ⟨.new, by rw [Ledger.submit, hcommit]⟩

/-- A commit changes nothing or folds one more event in. -/
theorem Ledger.Sound.submit_step (h : ledger.Sound cr verify) : ledger.submit s = ledger ∨
    s.id ∉ ledger.events ∧ s.Storable ∧ Named (insert s (stored cr verify ledger.events)) ∧
      Folded (insert s (stored cr verify ledger.events)) (ledger.submit s).tables := by
  rcases submit_cases ledger s with heq | ⟨outcome, hok⟩
  · exact Or.inl heq
  rcases commit_ok hok with ⟨_, heq⟩ | ⟨hnew, hevents, happly⟩
  · exact Or.inl heq
  · have h' := (h.commit hok).folded
    rw [hevents, stored_insert_eq hnew] at h'
    refine Or.inr ⟨hnew, apply_storable happly, ?_, h'⟩
    rw [← stored_insert_eq hnew]
    exact named_stored

theorem Ledger.Sound.seen_later (h : ledger.Sound cr verify)
    (hlater : asOf.slt s.content.eventTime = true) (id : Hash) (src dst : EntityId) :
    (ledger.submit s).tables.Seen asOf.toCanon id src dst ↔
      ledger.tables.Seen asOf.toCanon id src dst := by
  rcases h.submit_step (s := s) with hstep | ⟨_, _, _, h'⟩
  · rw [hstep]
  · exact h.folded.seen_later h' hlater

theorem Ledger.Sound.window_later (h : ledger.Sound cr verify)
    (hlater : asOf.slt s.content.eventTime = true) (entity : EntityId) :
    (ledger.submit s).tables.windowAt entity asOf = ledger.tables.windowAt entity asOf := by
  rcases h.submit_step (s := s) with hstep | ⟨_, _, _, h'⟩
  · rw [hstep]
  · exact h.folded.window_later h' hlater entity

theorem Ledger.Sound.admissibility_iff (h : ledger.Sound cr verify) :
    (∀ c, (ledger.submit s).tables.admissibilityAt c asOf = ledger.tables.admissibilityAt c asOf) ↔
      ¬ ledger.Leaks s asOf := by
  rcases h.submit_step (s := s) with hstep | ⟨hnew, hstorable, hnamed, h'⟩
  · refine iff_of_true (fun _ => by rw [hstep]) ?_
    rintro ⟨hnew, v, hbody, hcode, _⟩
    obtain ⟨outcome, hok⟩ := submit_declaration h hnew hbody hcode
    rcases commit_ok hok with ⟨hmem, _⟩ | ⟨_, hevents, _⟩
    · exact hnew hmem
    · rw [hstep] at hevents
      have hself : Stored ledger.events s := by
        rw [hevents]
        exact stored_self
      exact hnew (Maps.mem_of_getElem? hself)
  · have hdeclared : ∀ {v : VocabularyEntry}, s.content.body = .vocabularyDeclare v →
        ((ledger.submit s).tables.admissibilityAt v.claimType asOf =
          ledger.tables.admissibilityAt v.claimType asOf ↔ ¬ ledger.tables.Leaks s v asOf) :=
      fun hbody => h.folded.admissibility_declared h' hnamed (not_stored hnew) hbody
    constructor
    · rintro hsame ⟨_, v, hbody, _, hleaks⟩
      exact (hdeclared hbody).mp (hsame v.claimType) hleaks
    · intro hleaks c
      by_cases hno : ∀ r, s.declaration ≠ some (c, r)
      · exact h.folded.vocabulary_unclaimed h' hno
      rw [not_forall] at hno
      obtain ⟨r, hclaim⟩ := hno
      rw [not_not] at hclaim
      unfold Signed.declaration at hclaim
      split at hclaim
      · next v hbody =>
        obtain ⟨rfl, _⟩ := Prod.mk.inj (Option.some.inj hclaim)
        simp only [Signed.Storable, hbody] at hstorable
        exact (hdeclared hbody).mpr fun hv => hleaks ⟨hnew, v, hbody, hstorable, hv⟩
      · cases hclaim

/-- Committing the event leaves every read at `asOf` and every verdict pinned there. -/
def Ledger.Pinned (ledger : Ledger) (s : Signed cr verify) (asOf : Tick) : Prop :=
  ∀ v v' : PgCorpusView, v.tables = (ledger.submit s).tables → v'.tables = ledger.tables →
    v.corpusView.AgreeAt v'.corpusView asOf ∧ ∀ (f : Filter) (q : FeasibilityQuery), q.tQ = asOf →
      (f.feasibility v.corpusView q).map Judgment.consensusProjection =
          (f.feasibility v'.corpusView q).map Judgment.consensusProjection ∧
        (f.certify v.corpusView q).map (fun c => c.judgment.consensusProjection) =
          (f.certify v'.corpusView q).map fun c => c.judgment.consensusProjection

/-- The batched read agrees with the single one, and neighbours see each other. -/
structure Ledger.Neighbourly (ledger : Ledger) : Prop where
  batched : ∀ v : PgCorpusView, v.tables = ledger.tables → ∀ asOf entities entity,
    entity ∈ entities → ∀ e, e ∈ (v.neighborsManyAt entities asOf).getD entity [] ↔
      e ∈ v.tables.neighborsAt entity asOf
  symmetric : ∀ asOf a b via, (⟨b, via⟩ : Edge) ∈ ledger.tables.neighborsAt a asOf ↔
    (⟨a, via⟩ : Edge) ∈ ledger.tables.neighborsAt b asOf

theorem neighbourly (ledger : Ledger) : ledger.Neighbourly where
  batched _ _ _ _ _ hmem _ := neighborsManyAt_iff hmem
  symmetric _ _ _ _ := by
    rw [mem_neighborsAt, mem_neighborsAt]
    exact Tables.Joins.comm

/-- A view of some tables. -/
def Tables.viewed (t : Tables) : PgCorpusView where
  tables := t
  digest := 0
  scan _ _ rows := rows
  scanned _ _ rows := List.Perm.refl rows

theorem Ledger.Sound.pinned_iff (h : ledger.Sound cr verify)
    (hlater : asOf.slt s.content.eventTime = true) : ledger.Pinned s asOf ↔
    ¬ ledger.Leaks s asOf := by
  rw [← h.admissibility_iff]
  constructor
  · intro hpinned c
    obtain ⟨hagree, _⟩ := hpinned (ledger.submit s).tables.viewed ledger.tables.viewed rfl rfl
    exact Except.ok.inj (hagree.admissibility c)
  · rintro hsame v v' hv hv'
    have hagree : v.corpusView.AgreeAt v'.corpusView asOf := by
      apply Tables.AlikeAt.agree
      rw [hv, hv']
      exact ⟨h.seen_later hlater, h.window_later hlater, hsame⟩
    exact ⟨hagree, fun f q hq => ⟨feasibility_congr hagree f q hq, certify_congr hagree f q hq⟩⟩

/-- In every store a run of commits reaches, a further event leaves what is pinned before its
event time exactly when it is no declaration that takes its claim type over and is heard there;
the batched read and the symmetry hold there without exception. -/
theorem pinned_view_iff (xs : List (Signed cr verify)) (s : Signed cr verify) (asOf : Tick)
    (hlater : asOf.slt s.content.eventTime = true) :
    (Ledger.empty.submitAll xs).Pinned s asOf ∧ (Ledger.empty.submitAll xs).Neighbourly ↔
      ¬ (Ledger.empty.submitAll xs).Leaks s asOf := by
  rw [and_iff_left (neighbourly _)]
  exact run_sound.pinned_iff hlater

end Runs

/-! ## A declaration heard before it is made -/

namespace Sample

/-- A claim type declared at coordinate 100, with a band that begins at 0. -/
def declaration : EventContent :=
  ⟨100, 0, alice, none, .vocabularyDeclare ⟨7, "type", ⟨.known 0, .knownOpen⟩⟩⟩

def declarationId : Hash := 0x5b51a521013e76ae4f229cdd9ef86511f6ac7df3a0f2d669c2f736bdb6c3e6c4

/-- SHA-256 on the preimage. -/
def declarationCrypto : Crypto where
  sha256 bytes := if bytes = canonOf declaration then declarationId else 0
  authorKey key := decide (key = alice)

def declarationSignature : Bytes := beBytes 64
  0xab885c5a7febb2633666668b585fbbab93483f7d7e31b62513bd5bfb4e265e99434b6908ec26ff1753e2497e732108de1c151a4d1095a6bd82a71f47aa703604

/-- Ed25519 on the signature. -/
def declarationVerify : Verify := fun key message signature => decide <|
  (key, message, signature) = (alice, asBytes declarationId, declarationSignature)

abbrev Declared := Signed declarationCrypto declarationVerify

def signedDeclaration : Declared where
  content := declaration
  signature := declarationSignature
  canon := canonOf declaration
  written := rfl
  author := by decide
  verified := by decide

theorem leaks : Ledger.empty.Leaks signedDeclaration 50 := by
  refine ⟨by simp [Ledger.empty], _, rfl, by decide, fun prior hprior => ?_, Or.inl ⟨rfl, ?_⟩⟩
  · simp [Ledger.empty, Tables.empty] at hprior
  · decide

end Sample

/-- The declaration of coordinate 100 makes its claim type admissible at 50. -/
theorem declaration_leaks :
    ¬ ∀ (xs : List Sample.Declared) (s : Sample.Declared) (asOf : Tick),
      asOf.slt s.content.eventTime = true →
        (Ledger.empty.submitAll xs).Pinned s asOf ∧ (Ledger.empty.submitAll xs).Neighbourly := by
  intro h
  obtain ⟨hpinned, _⟩ := h [] Sample.signedDeclaration 50 (by decide)
  exact (sound_empty.pinned_iff (by decide)).mp hpinned Sample.leaks

theorem pinned_view_iff_declaration :
    (Ledger.empty.submitAll ([] : List Sample.Declared)).Pinned Sample.signedDeclaration 50 ∧
        (Ledger.empty.submitAll ([] : List Sample.Declared)).Neighbourly ↔
      ¬ (Ledger.empty.submitAll ([] : List Sample.Declared)).Leaks Sample.signedDeclaration 50 :=
  pinned_view_iff [] Sample.signedDeclaration 50 (by decide)

end Clockchain.V0
