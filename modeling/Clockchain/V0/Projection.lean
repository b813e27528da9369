import Clockchain.V0.Ledger
import Clockchain.Survivors

/-!
# What one projection leaves

A projector changes one table and leaves every counter at what the tables count, and every
edge at what its endpoints' survivors say.
-/

namespace Clockchain.V0
open Codec
open V1 (Hash BTreeMap Crypto Verify)
set_option autoImplicit false

/-! ## Edges and counters -/

/-- `in_g` and `cross_writer`, as the endpoints' survivors give them. -/
def flags (entities : EntityMap EntityRow) (src dst : EntityId) : Bool × Bool :=
  match entities[src]?, entities[dst]? with
  | some s, some d => (true, s.asserter ≠ d.asserter)
  | _, _ => (false, false)

theorem flags_known {entities : EntityMap EntityRow} {src dst : EntityId} {s d : EntityRow}
    (hsrc : entities[src]? = some s) (hdst : entities[dst]? = some d) :
    flags entities src dst = (true, decide (s.asserter ≠ d.asserter)) := by
  simp only [flags, hsrc, hdst]

theorem flags_unknown {entities : EntityMap EntityRow} {src dst : EntityId}
    (h : ¬ (src ∈ entities ∧ dst ∈ entities)) : flags entities src dst = (false, false) := by
  unfold flags
  split
  · next s d hsrc hdst =>
    exact absurd ⟨Maps.mem_of_getElem? hsrc, Maps.mem_of_getElem? hdst⟩ h
  · rfl

/-- An edge with the flags its endpoints give it. -/
def EdgeRow.resolve (entities : EntityMap EntityRow) (row : EdgeRow) : EdgeRow :=
  { row with
    inG := (flags entities row.srcEntity row.dstEntity).1
    crossWriter := (flags entities row.srcEntity row.dstEntity).2 }

/-- A row whose flags were set when no more entities were known than now. -/
structure EdgeRow.Ready (entities : EntityMap EntityRow) (row : EdgeRow) : Prop where
  known : row.inG = true → row.srcEntity ∈ entities ∧ row.dstEntity ∈ entities
  cross : row.inG = false → row.crossWriter = false

namespace EdgeRow
variable {entities entities' : EntityMap EntityRow} {row : EdgeRow}

theorem resolve_resolve : (row.resolve entities).resolve entities' = row.resolve entities' := rfl

theorem resolve_congr (hsrc : entities[row.srcEntity]? = entities'[row.srcEntity]?)
    (hdst : entities[row.dstEntity]? = entities'[row.dstEntity]?) :
    row.resolve entities = row.resolve entities' := by
  simp only [resolve, flags, hsrc, hdst]

theorem inG_resolve : (row.resolve entities).inG = true ↔
    row.srcEntity ∈ entities ∧ row.dstEntity ∈ entities := by
  constructor
  · intro h
    by_contra hno
    rw [resolve, flags_unknown hno] at h
    cases h
  · rintro ⟨hsrc, hdst⟩
    obtain ⟨src, hsrc⟩ := Maps.mem_iff.mp hsrc
    obtain ⟨dst, hdst⟩ := Maps.mem_iff.mp hdst
    rw [resolve, flags_known hsrc hdst]

theorem ready_resolve (hgrow : ∀ k, k ∈ entities → k ∈ entities') :
    (row.resolve entities).Ready entities' where
  known h := (inG_resolve.mp h).imp (hgrow _) (hgrow _)
  cross h := by
    have hno : ¬ (row.srcEntity ∈ entities ∧ row.dstEntity ∈ entities) := fun hknown => by
      rw [inG_resolve.mpr hknown] at h
      cases h
    rw [resolve, flags_unknown hno]

end EdgeRow

namespace Tables
variable {t : Tables}

/-- The counters, read off the tables. -/
def counts (t : Tables) : LedgerStats where
  entityCount := t.entities.size
  momentCount := t.moments.size
  edgeCount := t.edges.size
  attestationCount := t.attestations.size
  contestedEdges := Maps.count EdgeRow.inG t.edges
  crossWriterContested := Maps.count EdgeRow.crossWriter t.edges

def recount (t : Tables) : Tables := { t with stats := some t.counts }

def Tallied (t : Tables) : Prop := t.stats = some t.counts

/-- Every edge shows what the entities say. -/
def Settled (t : Tables) : Prop :=
  ∀ (id : Hash) (row : EdgeRow), t.edges[id]? = some row → row = row.resolve t.entities

theorem tallied_recount : t.recount.Tallied := rfl

theorem Tallied.recount_eq (h : t.Tallied) : t.recount = t := by
  rw [recount, ← h]

theorem insert_same {id : Hash} {row : EdgeRow} (h : t.edges[id]? = some row) :
    t.edges.insert id row = t.edges := by
  refine Maps.ext_graph fun k v => ?_
  rw [Maps.getElem?_insert]
  split
  · next hk => rw [← hk, h]
  · exact Iff.rfl

/-- What a row that takes another's place does to the counters. -/
theorem counts_insert {id : Hash} {row row' : EdgeRow} (hrow : t.edges[id]? = some row) :
    ({ t with edges := t.edges.insert id row' } : Tables).counts = { t.counts with
      contestedEdges := t.counts.contestedEdges + row'.inG.toInt - row.inG.toInt
      crossWriterContested :=
        t.counts.crossWriterContested + row'.crossWriter.toInt - row.crossWriter.toInt } := by
  have hin := Maps.count_insert_old (p := EdgeRow.inG) (v := row') hrow
  have hcross := Maps.count_insert_old (p := EdgeRow.crossWriter) (v := row') hrow
  have hsize : (t.edges.insert id row').size = t.edges.size :=
    Maps.size_insert_old (Maps.mem_of_getElem? hrow)
  unfold counts
  rw [hsize]
  congr 1
  · cases hg : row'.inG <;> cases hg' : row.inG <;> simp [hg, hg', Bool.toInt] at hin ⊢ <;> omega
  · cases hg : row'.crossWriter <;> cases hg' : row.crossWriter <;>
      simp [hg, hg', Bool.toInt] at hcross ⊢ <;> omega

theorem Tallied.recount_same (htally : t.Tallied) {id : Hash} {row : EdgeRow}
    (hrow : t.edges[id]? = some row) :
    ({ t with edges := t.edges.insert id row } : Tables).recount = t := by
  rw [insert_same hrow]
  exact htally.recount_eq

theorem refreshEdge_eq (htally : t.Tallied) {id : Hash} {row : EdgeRow}
    (hrow : t.edges[id]? = some row) (hready : row.Ready t.entities) :
    t.refreshEdge id =
      ({ t with edges := t.edges.insert id (row.resolve t.entities) } : Tables).recount := by
  have hstats : t.stats = some t.counts := htally
  unfold refreshEdge
  rw [hrow]
  simp only
  split
  · next src dst hsrc hdst =>
    have hflags := flags_known hsrc hdst
    cases hg : row.inG
    · -- the edge joins the contested ones
      have hx := hready.cross hg
      rw [EdgeRow.resolve, hflags, recount, counts_insert hrow]
      cases hc : decide (src.asserter ≠ dst.asserter) <;>
        simp [updateStats, hstats, hg, hx, Bool.toInt]
    · by_cases hx : row.crossWriter = decide (src.asserter ≠ dst.asserter)
      · have hsame : row.resolve t.entities = row := by rw [EdgeRow.resolve, hflags, ← hg, ← hx]
        rw [hsame, htally.recount_same hrow]
        simp [hx]
      · -- a survivor changed
        rw [EdgeRow.resolve, hflags, recount, counts_insert hrow]
        cases hc : decide (src.asserter ≠ dst.asserter) <;>
          cases hw : row.crossWriter <;> simp_all [updateStats, Bool.toInt, Int.sub_eq_add_neg]
  · next hno =>
    have hunknown : ¬ (row.srcEntity ∈ t.entities ∧ row.dstEntity ∈ t.entities) := by
      rintro ⟨hsrc, hdst⟩
      obtain ⟨src, hsrc⟩ := Maps.mem_iff.mp hsrc
      obtain ⟨dst, hdst⟩ := Maps.mem_iff.mp hdst
      exact hno src dst hsrc hdst
    have hg : row.inG = false := by
      rw [← Bool.not_eq_true]
      exact fun hg => hunknown (hready.known hg)
    have hsame : row.resolve t.entities = row := by
      have hx := hready.cross hg
      rw [EdgeRow.resolve, flags_unknown hunknown]
      cases row
      simp_all
    rw [hsame, htally.recount_same hrow]

/-! ## Refreshing many edges -/

/-- The edges with the listed ones resolved. -/
def refreshed (t : Tables) (ids : List Hash) : BTreeMap EdgeRow :=
  t.edges.map fun id row => if id ∈ ids then row.resolve t.entities else row

theorem getElem?_refreshed {ids : List Hash} {id : Hash} : (t.refreshed ids)[id]? =
    t.edges[id]?.map fun row => if id ∈ ids then row.resolve t.entities else row :=
  Std.ExtTreeMap.getElem?_map

theorem refresh_foldl {ids : List Hash} (htally : t.Tallied) (hids : ∀ id ∈ ids, id ∈ t.edges)
    (hready : ∀ (id : Hash) (row : EdgeRow), t.edges[id]? = some row → row.Ready t.entities) :
    ids.foldl refreshEdge t = ({ t with edges := t.refreshed ids } : Tables).recount := by
  induction ids generalizing t with
  | nil =>
    have hsame : t.refreshed [] = t.edges := by
      refine Maps.ext_graph fun id row => ?_
      simp [getElem?_refreshed]
    rw [List.foldl_nil, hsame]
    exact htally.recount_eq.symm
  | cons first ids ih =>
    obtain ⟨old, hold⟩ := Maps.mem_iff.mp (hids first List.mem_cons_self)
    have hold_ready := hready first old hold
    rw [List.foldl_cons, refreshEdge_eq htally hold hold_ready]
    rw [ih tallied_recount]
    · have hsame : (recount { t with
          edges := t.edges.insert first (old.resolve t.entities) }).refreshed ids =
          t.refreshed (first :: ids) := by
        refine Maps.ext_graph fun id row => ?_
        simp only [getElem?_refreshed, recount, Maps.getElem?_insert]
        by_cases hid : first = id
        · subst hid
          simp only [if_true, hold, Option.map_some, List.mem_cons_self, EdgeRow.resolve_resolve,
            ite_self]
        · simp only [if_neg hid, List.mem_cons, Ne.symm hid, false_or]
      rw [hsame]
      rfl
    · intro id hid
      exact Maps.mem_map_insert.mpr (Or.inr (hids id (List.mem_cons_of_mem _ hid)))
    · intro id row hrow
      simp only [recount, Maps.getElem?_insert] at hrow ⊢
      split at hrow
      · obtain rfl := Option.some.inj hrow
        exact EdgeRow.ready_resolve fun _ h => h
      · exact hready id row hrow

/-- Refreshing the edges at one entity settles every edge, when only what is known of that
entity changed. -/
theorem refreshIncidentEdges_eq {k : EntityId} (htally : t.Tallied)
    (hready : ∀ (id : Hash) (row : EdgeRow), t.edges[id]? = some row → row.Ready t.entities)
    (hsettled : ∀ (id : Hash) (row : EdgeRow), t.edges[id]? = some row → row.srcEntity ≠ k →
      row.dstEntity ≠ k → row = row.resolve t.entities) :
    t.refreshIncidentEdges k =
      ({ t with edges := t.edges.map fun _ row => row.resolve t.entities } : Tables).recount := by
  have hmem : ∀ id, id ∈ (t.edges.toList.filter fun row =>
      row.2.srcEntity = k ∨ row.2.dstEntity = k).map Prod.fst ↔
      ∃ row, t.edges[id]? = some row ∧ (row.srcEntity = k ∨ row.dstEntity = k) := by
    intro id
    simp only [List.mem_map, List.mem_filter, Prod.exists, exists_and_right, exists_eq_right,
      Std.ExtTreeMap.mem_toList_iff_getElem?_eq_some, decide_eq_true_eq]
  rw [refreshIncidentEdges, refresh_foldl htally _ hready]
  · congr 2
    refine Maps.ext_graph fun id row => ?_
    rw [getElem?_refreshed, Std.ExtTreeMap.getElem?_map]
    cases hid : t.edges[id]? with
    | none => simp
    | some old =>
      simp only [Option.map_some, hmem, hid, Option.some.injEq, exists_eq_left']
      by_cases hk : old.srcEntity = k ∨ old.dstEntity = k
      · rw [if_pos hk]
      · rw [if_neg hk, ← hsettled id old hid (fun h => hk (Or.inl h)) fun h => hk (Or.inr h)]
  · intro id hid
    obtain ⟨row, hrow, _⟩ := (hmem id).mp hid
    exact Maps.mem_of_getElem? hrow

/-! ## The projectors -/

/-- The entity table after a birth. -/
def keepEntity (t : Tables) (c : EventContent) (id : Hash) (e : EntityBirth) :
    EntityMap EntityRow :=
  let row := entityRow c id e
  match t.entities[e.entityId]? with
  | none => t.entities.insert e.entityId row
  | some existing =>
    if existing.birthEvent = id then t.entities
    else if foldOrder row.birthEventTime id <
        foldOrder existing.birthEventTime existing.birthEvent then
      t.entities.insert e.entityId row
    else t.entities

def keepVocabulary (t : Tables) (c : EventContent) (id : Hash) (v : VocabularyEntry) :
    ClaimTypeMap VocabularyRow :=
  let row := vocabularyRow c id v
  match t.vocabulary[v.claimType]? with
  | none => t.vocabulary.insert v.claimType row
  | some prior =>
    if prior.declaredBy = id then t.vocabulary
    else if foldOrder row.declaredAt id < foldOrder prior.declaredAt prior.declaredBy then
      t.vocabulary.insert v.claimType row
    else t.vocabulary

theorem Settled.ready (h : t.Settled) {entities : EntityMap EntityRow}
    (hgrow : ∀ k, k ∈ t.entities → k ∈ entities) {id : Hash} {row : EdgeRow}
    (hrow : t.edges[id]? = some row) : row.Ready entities := by
  rw [h id row hrow]
  exact EdgeRow.ready_resolve hgrow

theorem Settled.map_resolve (h : t.Settled) :
    (t.edges.map fun _ row => row.resolve t.entities) = t.edges := by
  refine Maps.ext_graph fun id row => ?_
  rw [Std.ExtTreeMap.getElem?_map]
  cases hid : t.edges[id]? with
  | none => simp
  | some old => rw [Option.map_some, ← h id old hid]

/-- Storing a row for `k` and refreshing the edges at `k`. -/
theorem refresh_insert (hsettled : t.Settled) {k : EntityId} {row : EntityRow}
    {stats : Option LedgerStats}
    (htally : Tallied { t with entities := t.entities.insert k row, stats }) :
    refreshIncidentEdges { t with entities := t.entities.insert k row, stats } k =
      recount { t with
        entities := t.entities.insert k row
        edges := t.edges.map fun _ e => e.resolve (t.entities.insert k row) } := by
  rw [refreshIncidentEdges_eq htally]
  · rfl
  · intro id e he
    exact hsettled.ready (fun _ h => Maps.mem_map_insert.mpr (Or.inr h)) he
  · intro id e he hsrc hdst
    refine (hsettled id e he).trans (EdgeRow.resolve_congr ?_ ?_)
    · rw [Maps.getElem?_insert, if_neg (Ne.symm hsrc)]
    · rw [Maps.getElem?_insert, if_neg (Ne.symm hdst)]

theorem projectEntity_eq (htally : t.Tallied) (hsettled : t.Settled) (c : EventContent) (id : Hash)
    (e : EntityBirth) : t.projectEntity c id e = recount { t with
      entities := t.keepEntity c id e
      edges := t.edges.map fun _ row => row.resolve (t.keepEntity c id e) } := by
  have hstats : t.stats = some t.counts := htally
  have hsame : t = recount { t with edges := t.edges.map fun _ row => row.resolve t.entities } := by
    rw [hsettled.map_resolve]
    exact htally.recount_eq.symm
  cases hexisting : t.entities[e.entityId]? with
  | none =>
    simp only [projectEntity, keepEntity, hexisting, updateStats]
    refine refresh_insert hsettled ?_
    have hnew : e.entityId ∉ t.entities := by
      rw [Maps.mem_iff]
      rintro ⟨row, hrow⟩
      simp [hexisting] at hrow
    simp only [Tallied, hstats, Option.map_some, counts, Maps.size_insert_new hnew,
      Nat.cast_add, Nat.cast_one]
  | some existing =>
    simp only [projectEntity, keepEntity, hexisting]
    split
    · exact hsame
    split
    · refine refresh_insert hsettled ?_
      simp only [Tallied, hstats, counts, Maps.size_insert_old (Maps.mem_of_getElem? hexisting)]
    · exact hsame

theorem projectVocabulary_eq (htally : t.Tallied) {c : EventContent} {id : Hash}
    {v : VocabularyEntry} (hcode : v.claimType ≠ 0) : t.projectVocabulary c id v =
      .ok (recount { t with vocabulary := t.keepVocabulary c id v }) := by
  have hsame : ∀ vocabulary, recount { t with vocabulary } = { t with vocabulary } := fun _ =>
    Tallied.recount_eq htally
  rw [hsame]
  cases hprior : t.vocabulary[v.claimType]? with
  | none => simp only [projectVocabulary, keepVocabulary, hprior, if_neg hcode]
  | some prior =>
    simp only [projectVocabulary, keepVocabulary, hprior, if_neg hcode]
    split
    · rfl
    split <;> rfl

theorem projectEdge_eq (htally : t.Tallied) {c : EventContent} {id : Hash} {ed : EdgeBody}
    (hloop : ed.src ≠ ed.dst) (hnew : id ∉ t.edges) : t.projectEdge c id ed =
      .ok (recount { t with edges := t.edges.insert id ((edgeRow c ed).resolve t.entities) }) := by
  have hstats : t.stats = some t.counts := htally
  have hcontains : t.edges.contains id = false := Maps.contains_eq_false.mpr hnew
  unfold projectEdge
  simp only [if_neg hloop, hcontains, Bool.false_eq_true, if_false, updateStats]
  have htally' : Tallied { t with
      edges := t.edges.insert id (edgeRow c ed)
      stats := t.stats.map fun s => { s with edgeCount := s.edgeCount + 1 } } := by
    simp only [Tallied, hstats, Option.map_some, counts, Maps.size_insert_new hnew,
      Maps.count_insert_new hnew, edgeRow, Bool.false_eq_true, if_false, Nat.add_zero,
      Nat.cast_add, Nat.cast_one]
  have hrow : (t.edges.insert id (edgeRow c ed))[id]? = some (edgeRow c ed) := by
    rw [Maps.getElem?_insert, if_pos rfl]
  have hready : (edgeRow c ed).Ready t.entities := ⟨(fun h => by cases h), fun _ => rfl⟩
  rw [refreshEdge_eq htally' hrow hready]
  have hinsert : (t.edges.insert id (edgeRow c ed)).insert id ((edgeRow c ed).resolve t.entities) =
      t.edges.insert id ((edgeRow c ed).resolve t.entities) := by
    refine Maps.ext_graph fun k v => ?_
    simp only [Maps.getElem?_insert]
    split <;> rfl
  simp only [hinsert]
  rfl

theorem projectAttestation_eq (htally : t.Tallied) {c : EventContent} {id : Hash}
    {a : AttestationBody} (hnew : id ∉ t.attestations) : t.projectAttestation c id a =
      recount { t with attestations := t.attestations.insert id ⟨a.target, c.author⟩ } := by
  have hstats : t.stats = some t.counts := htally
  have hcontains : t.attestations.contains id = false := Maps.contains_eq_false.mpr hnew
  simp only [projectAttestation, hcontains, Bool.false_eq_true, if_false, updateStats, recount,
    hstats, Option.map_some, counts, Maps.size_insert_new hnew, Nat.cast_add, Nat.cast_one]

/-! ## What no other projector touches -/

theorem refreshEdge_moments (id : Hash) : (t.refreshEdge id).moments = t.moments := by
  unfold refreshEdge
  split
  · rfl
  split
  · simp only
    split
    · rfl
    split <;> rfl
  · rfl

theorem refreshIncidentEdges_moments (k : EntityId) :
    (t.refreshIncidentEdges k).moments = t.moments := by
  have hfold : ∀ (ids : List Hash) (t : Tables), (ids.foldl refreshEdge t).moments = t.moments := by
    intro ids
    induction ids with
    | nil => exact fun _ => rfl
    | cons id ids ih => exact fun t => (ih _).trans (refreshEdge_moments id)
  exact hfold _ t

theorem projectEntity_moments {c : EventContent} {id : Hash} {e : EntityBirth} :
    (t.projectEntity c id e).moments = t.moments := by
  cases hexisting : t.entities[e.entityId]? with
  | none =>
    simp only [projectEntity, hexisting, refreshIncidentEdges_moments]
    rfl
  | some existing =>
    simp only [projectEntity, hexisting]
    split
    · rfl
    split
    · rw [refreshIncidentEdges_moments]
    · rfl

theorem projectVocabulary_moments {c : EventContent} {id : Hash} {v : VocabularyEntry} {t' : Tables}
    (hok : t.projectVocabulary c id v = .ok t') : t'.moments = t.moments := by
  unfold projectVocabulary at hok
  split at hok
  · cases hok
  simp only at hok
  split at hok
  · obtain rfl := Except.ok.inj hok
    rfl
  split at hok
  · obtain rfl := Except.ok.inj hok
    rfl
  split at hok <;>
  · obtain rfl := Except.ok.inj hok
    rfl

theorem projectEdge_moments {c : EventContent} {id : Hash} {ed : EdgeBody} {t' : Tables}
    (hok : t.projectEdge c id ed = .ok t') : t'.moments = t.moments := by
  unfold projectEdge at hok
  split at hok
  · cases hok
  split at hok
  · obtain rfl := Except.ok.inj hok
    rfl
  · obtain rfl := Except.ok.inj hok
    rw [refreshEdge_moments]
    rfl

theorem apply_moments {cr : Crypto} {events : Events} {c : EventContent} {id : Hash} {t' : Tables}
    (hkind : c.body.kind ≠ .moment) (hok : t.apply cr events c id = .ok t') :
    t'.moments = t.moments := by
  cases hbody : c.body with
  | moment m => simp [hbody, EventBody.kind] at hkind
  | entityCreate e =>
    simp only [apply, hbody] at hok
    obtain rfl := Except.ok.inj hok
    exact projectEntity_moments
  | edge ed =>
    simp only [apply, hbody] at hok
    have hmoments := projectEdge_moments hok
    exact hmoments
  | attestation a =>
    simp only [apply, hbody] at hok
    obtain rfl := Except.ok.inj hok
    unfold projectAttestation
    split <;> rfl
  | vocabularyDeclare v =>
    simp only [apply, hbody] at hok
    have hmoments := projectVocabulary_moments hok
    exact hmoments

theorem ensureStatsRow_tallied (h : t.stats.getD .zero = t.counts) : t.ensureStatsRow.Tallied := by
  simp only [Tallied, ensureStatsRow, h]
  rfl

end Tables

end Clockchain.V0
