import Clockchain.Transactions
import Clockchain.V0.Ledger

/-!
# Commits statement by statement

`commit_in_tx` of `cc-ledger/src/lib.rs` as the statements it executes, with the trigger of
`0006_event_digest.sql`: a program of reads and of writes of one row each. Run alone, it does what
`commit` does.
-/

namespace Clockchain.V0
open Codec Transactions
open V1 (Hash BTreeMap Crypto Verify)
set_option autoImplicit false

/-! ## Rows -/

/-- The one row of `event_digest`. -/
structure EventDigest where
  n : Nat
  acc : Hash

/-- `event_digest_elem`. -/
def digestElem (cr : Crypto) (id : Hash) : Hash :=
  cr.sha256 ("cc.corpus.elem.v0".toUTF8.data.toList ++ asBytes id)

/-- `event_digest_fold`; both sides of `bytea_xor` have 32 bytes. -/
def EventDigest.fold (cr : Crypto) (d : EventDigest) (id : Hash) : EventDigest :=
  ⟨d.n + 1, d.acc ^^^ digestElem cr id⟩

/-- What a commit reads and writes. -/
structure Rows where
  ledger : Ledger
  digest : EventDigest

/-- The rows a transaction may have written. -/
inductive RowKey where
  | event (id : Hash)
  | digest
  | stats
  | entity (id : EntityId)
  | moment (root : Hash)
  | edge (id : Hash)
  | attestation (id : Hash)
  | claim (claimType : BitVec 32)
  deriving DecidableEq

namespace Rows

def empty : Rows := ⟨.empty, ⟨0, 0⟩⟩

def onTables (f : Tables → Tables) (rows : Rows) : Rows :=
  { rows with ledger := { rows.ledger with tables := f rows.ledger.tables } }

def setEvent (id : Hash) (row : EventRow) (rows : Rows) : Rows :=
  { rows with ledger := { rows.ledger with events := rows.ledger.events.insert id row } }

def setDigest (d : EventDigest) (rows : Rows) : Rows := { rows with digest := d }

def setStats (s : LedgerStats) : Rows → Rows := onTables fun t => { t with stats := some s }

def setEntity (id : EntityId) (row : EntityRow) : Rows → Rows :=
  onTables fun t => { t with entities := t.entities.insert id row }

def setMoment (root : Hash) (row : MomentRow) : Rows → Rows :=
  onTables fun t => { t with moments := t.moments.insert root row }

def setEdge (id : Hash) (row : EdgeRow) : Rows → Rows :=
  onTables fun t => { t with edges := t.edges.insert id row }

def setAttestation (id : Hash) (row : AttestationRow) : Rows → Rows :=
  onTables fun t => { t with attestations := t.attestations.insert id row }

def setClaim (claimType : BitVec 32) (row : VocabularyRow) : Rows → Rows :=
  onTables fun t => { t with vocabulary := t.vocabulary.insert claimType row }

/-- `commit` with the trigger. -/
def commit {cr : Crypto} {verify : Verify} (rows : Rows) (s : Signed cr verify) :
    Except LedgerError (Appended × Rows) :=
  match rows.ledger.commit s with
  | .error e => .error e
  | .ok (.unioned, ledger) => .ok (.unioned, { rows with ledger })
  | .ok (.new, ledger) => .ok (.new, ⟨ledger, rows.digest.fold cr s.id⟩)

end Rows

abbrev Program := Txn RowKey Rows LedgerError Appended

/-! ## The statements -/

namespace Program

/-- `UPDATE ledger_stats SET .. WHERE id = true`. -/
def updateStats (f : LedgerStats → LedgerStats) (k : Program) : Program :=
  .write .stats (fun rows => rows.ledger.tables.stats.map fun s => Rows.setStats (f s)) fun _ => k

def ensureStatsRow (k : Program) : Program :=
  .write .stats
    (fun rows => if rows.ledger.tables.stats.isSome then none else some (Rows.setStats .zero))
    fun _ => k

/-- `UPDATE edges SET .. WHERE edge_id = $1`. -/
def updateEdge (id : Hash) (f : EdgeRow → EdgeRow) (k : Program) : Program :=
  .write (.edge id)
    (fun rows => rows.ledger.tables.edges[id]?.map fun row => Rows.setEdge id (f row))
    fun _ => k

def refreshEdge (edgeId : Hash) (k : Program) : Program :=
  .read fun rows =>
    match rows.ledger.tables.edges[edgeId]? with
    | none => k
    | some row =>
      .read fun rows =>
        let src := rows.ledger.tables.entities[row.srcEntity]?
        .read fun rows =>
          match src, rows.ledger.tables.entities[row.dstEntity]? with
          | some src, some dst =>
            let cross : Bool := src.asserter ≠ dst.asserter
            if !row.inG then
              updateEdge edgeId (fun row => { row with inG := true, crossWriter := cross }) <|
                updateStats (fun s => { s with
                  contestedEdges := s.contestedEdges + 1
                  crossWriterContested := s.crossWriterContested + if cross then 1 else 0 }) k
            else if row.crossWriter ≠ cross then
              updateEdge edgeId (fun row => { row with crossWriter := cross }) <|
                updateStats (fun s => { s with
                  crossWriterContested := s.crossWriterContested + if cross then 1 else -1 }) k
            else k
          | _, _ => k

def refreshIncidentEdges (entityId : EntityId) (k : Program) : Program :=
  .read fun rows =>
    let edgeIds := (rows.ledger.tables.edges.toList.filter fun row =>
      row.2.srcEntity = entityId ∨ row.2.dstEntity = entityId).map Prod.fst
    edgeIds.foldr refreshEdge k

def projectEntity (c : EventContent) (id : Hash) (e : EntityBirth) (k : Program) : Program :=
  let row := Tables.entityRow c id e
  .read fun rows =>
    match rows.ledger.tables.entities[e.entityId]? with
    | none =>
      .write (.entity e.entityId)
        (fun rows => if rows.ledger.tables.entities.contains e.entityId then none
          else some (Rows.setEntity e.entityId row))
        fun rows =>
          -- a plain INSERT: a row that is there by now violates the key
          if rows.ledger.tables.entities.contains e.entityId then .fail .db
          else updateStats (fun s => { s with entityCount := s.entityCount + 1 }) <|
            refreshIncidentEdges e.entityId k
    | some existing =>
      if existing.birthEvent = id then k
      else if foldOrder row.birthEventTime id <
          foldOrder existing.birthEventTime existing.birthEvent then
        .write (.entity e.entityId)
          (fun rows => if rows.ledger.tables.entities.contains e.entityId then
            some (Rows.setEntity e.entityId row) else none)
          fun _ => refreshIncidentEdges e.entityId k
      else k

def projectVocabulary (c : EventContent) (id : Hash) (v : VocabularyEntry) (k : Program) :
    Program :=
  if v.claimType = 0 then
    .fail (.corruption "vocabulary claim_type 0 is reserved and must not be declared")
  else
    let row := Tables.vocabularyRow c id v
    .read fun rows =>
      match rows.ledger.tables.vocabulary[v.claimType]? with
      | none =>
        .write (.claim v.claimType)
          (fun rows => if rows.ledger.tables.vocabulary.contains v.claimType then none
            else some (Rows.setClaim v.claimType row))
          fun rows => if rows.ledger.tables.vocabulary.contains v.claimType then .fail .db else k
      | some prior =>
        if prior.declaredBy = id then k
        else if foldOrder row.declaredAt id < foldOrder prior.declaredAt prior.declaredBy then
          .write (.claim v.claimType)
            (fun rows => if rows.ledger.tables.vocabulary.contains v.claimType then
              some (Rows.setClaim v.claimType row) else none)
            fun _ => k
        else k

/-- `chain_root`: one read a link. -/
def chainRoot : Nat → Hash → Option Hash → (Option Hash → Program) → Program
  | 0, _, _, _ => .fail chainTooLong
  | _ + 1, cur, none, k => k (some cur)
  | fuel + 1, cur, some p, k =>
    .read fun rows =>
      match rows.ledger.events[p]? with
      | none => k none
      | some row =>
        if row.kind ≠ .moment then k (some cur) else chainRoot fuel p row.supersedes k

def chainHead : Nat → Hash → (Hash → Program) → Program
  | 0, _, _ => .fail chainTooLong
  | fuel + 1, cur, k =>
    .read fun rows =>
      match nextLink rows.ledger.events cur with
      | none => k cur
      | some b => chainHead fuel b k

/-- `moment_columns`: no row is read for the event in hand. -/
def momentColumns (cr : Crypto) (want haveId : Hash) (held : EventContent)
    (k : MomentRow → Program) : Program :=
  let go (columns : Except LedgerError MomentRow) : Program :=
    match columns with
    | .error e => .fail e
    | .ok row => k row
  if want = haveId then go (V0.momentColumns cr ∅ want haveId held)
  else .read fun rows => go (V0.momentColumns cr rows.ledger.events want haveId held)

def projectMoment (cr : Crypto) (c : EventContent) (id : Hash) (k : Program) : Program :=
  chainRoot maxChain id c.supersedes fun
    | none => k
    | some root =>
      chainHead maxChain root fun head =>
        momentColumns cr head id c fun row =>
          .read fun rows =>
            let existed := rows.ledger.tables.moments.contains root
            .write (.moment root) (fun _ => some (Rows.setMoment root row)) fun _ =>
              if existed then k
              else updateStats (fun s => { s with momentCount := s.momentCount + 1 }) k

def projectEdge (c : EventContent) (id : Hash) (ed : EdgeBody) (k : Program) : Program :=
  if ed.src = ed.dst then .fail .db
  else .write (.edge id)
    (fun rows => if rows.ledger.tables.edges.contains id then none
      else some (Rows.setEdge id (Tables.edgeRow c ed)))
    fun rows =>
      if rows.ledger.tables.edges.contains id then k
      else updateStats (fun s => { s with edgeCount := s.edgeCount + 1 }) (refreshEdge id k)

def projectAttestation (c : EventContent) (id : Hash) (a : AttestationBody) (k : Program) :
    Program :=
  .write (.attestation id)
    (fun rows => if rows.ledger.tables.attestations.contains id then none
      else some (Rows.setAttestation id ⟨a.target, c.author⟩))
    fun rows =>
      if rows.ledger.tables.attestations.contains id then k
      else updateStats (fun s => { s with attestationCount := s.attestationCount + 1 }) k

def apply (cr : Crypto) (c : EventContent) (id : Hash) (k : Program) : Program :=
  ensureStatsRow <|
    match c.body with
    | .entityCreate e => projectEntity c id e k
    | .moment _ => projectMoment cr c id k
    | .edge ed => projectEdge c id ed k
    | .attestation a => projectAttestation c id a k
    | .vocabularyDeclare v => projectVocabulary c id v k

end Program

/-! ## Alone -/

namespace Program
variable {k : Program} {rows : Rows}

theorem exec_updateStats (f : LedgerStats → LedgerStats) :
    (updateStats f k).exec rows = k.exec (rows.onTables fun t => t.updateStats f) := by
  obtain ⟨⟨events, t⟩, d⟩ := rows
  obtain ⟨_, _, _, _, _, stats⟩ := t
  cases stats <;> rfl

theorem exec_ensureStatsRow :
    (ensureStatsRow k).exec rows = k.exec (rows.onTables Tables.ensureStatsRow) := by
  obtain ⟨⟨events, t⟩, d⟩ := rows
  obtain ⟨_, _, _, _, _, stats⟩ := t
  cases stats <;> rfl

theorem exec_updateEdge {id : Hash} {row : EdgeRow} (f : EdgeRow → EdgeRow)
    (h : rows.ledger.tables.edges[id]? = some row) :
    (updateEdge id f k).exec rows = k.exec (rows.setEdge id (f row)) := by
  simp [updateEdge, Txn.exec, h]

theorem exec_refreshEdge (id : Hash) :
    (refreshEdge id k).exec rows = k.exec (rows.onTables fun t => t.refreshEdge id) := by
  unfold refreshEdge Rows.onTables Tables.refreshEdge
  simp only [Txn.exec]
  cases hrow : rows.ledger.tables.edges[id]? with
  | none => rfl
  | some row =>
    simp only [Txn.exec]
    cases hsrc : rows.ledger.tables.entities[row.srcEntity]? with
    | none => rfl
    | some src =>
      cases hdst : rows.ledger.tables.entities[row.dstEntity]? with
      | none => rfl
      | some dst =>
        by_cases hin : (!row.inG) = true
        · simp only [if_pos hin, exec_updateEdge _ hrow, exec_updateStats]
          rfl
        · by_cases hcross : row.crossWriter ≠ decide (src.asserter ≠ dst.asserter)
          · simp only [if_neg hin, if_pos hcross, exec_updateEdge _ hrow, exec_updateStats]
            rfl
          · simp only [if_neg hin, if_neg hcross]

theorem exec_refreshEdges (ids : List Hash) : (ids.foldr refreshEdge k).exec rows =
    k.exec (rows.onTables fun t => ids.foldl Tables.refreshEdge t) := by
  induction ids generalizing rows with
  | nil => rfl
  | cons id ids ih =>
    rw [List.foldr_cons, exec_refreshEdge, ih]
    rfl

theorem exec_refreshIncidentEdges (id : EntityId) : (refreshIncidentEdges id k).exec rows =
    k.exec (rows.onTables fun t => t.refreshIncidentEdges id) := by
  rw [refreshIncidentEdges, Txn.exec, exec_refreshEdges]
  rfl

theorem exec_projectEntity (c : EventContent) (id : Hash) (e : EntityBirth) :
    (projectEntity c id e k).exec rows =
      k.exec (rows.onTables fun t => t.projectEntity c id e) := by
  unfold projectEntity Rows.onTables Tables.projectEntity
  simp only [Txn.exec]
  cases hold : rows.ledger.tables.entities[e.entityId]? with
  | none =>
    have hnew : rows.ledger.tables.entities.contains e.entityId = false := by
      rw [Std.ExtTreeMap.contains_eq_isSome_getElem?, hold, Option.isSome_none]
    simp only [Txn.exec, hnew, Bool.false_eq_true, if_false, exec_updateStats,
      exec_refreshIncidentEdges]
    rfl
  | some existing =>
    have hthere : rows.ledger.tables.entities.contains e.entityId = true := by
      rw [Std.ExtTreeMap.contains_eq_isSome_getElem?, hold, Option.isSome_some]
    simp only
    split_ifs with hsame horder
    · rfl
    · simp only [Txn.exec, hthere, if_true, exec_refreshIncidentEdges]
      rfl
    · rfl

/-- A step that may be refused. -/
theorem exec_projectVocabulary (c : EventContent) (id : Hash) (v : VocabularyEntry) :
    (projectVocabulary c id v k).exec rows =
      match rows.ledger.tables.projectVocabulary c id v with
      | .error e => .error e
      | .ok t => k.exec (rows.onTables fun _ => t) := by
  unfold projectVocabulary Tables.projectVocabulary
  split_ifs with hzero
  · rfl
  simp only [Txn.exec]
  cases hold : rows.ledger.tables.vocabulary[v.claimType]? with
  | none =>
    have hnew : rows.ledger.tables.vocabulary.contains v.claimType = false := by
      rw [Std.ExtTreeMap.contains_eq_isSome_getElem?, hold, Option.isSome_none]
    simp only [Txn.exec, hnew, Bool.false_eq_true, if_false]
    rfl
  | some prior =>
    have hthere : rows.ledger.tables.vocabulary.contains v.claimType = true := by
      rw [Std.ExtTreeMap.contains_eq_isSome_getElem?, hold, Option.isSome_some]
    simp only
    split_ifs with hsame horder
    · rfl
    · simp only [Txn.exec, hthere, if_true]
      rfl
    · rfl

theorem exec_chainRoot {fuel : Nat} {cur : Hash} {parent : Option Hash}
    {k : Option Hash → Program} : (chainRoot fuel cur parent k).exec rows =
      match V0.chainRoot rows.ledger.events fuel cur parent with
      | .error e => .error e
      | .ok root => (k root).exec rows := by
  induction fuel generalizing cur parent with
  | zero => rfl
  | succ fuel ih =>
    cases parent with
    | none => rfl
    | some p =>
      simp only [chainRoot, Txn.exec, V0.chainRoot]
      cases hrow : rows.ledger.events[p]? with
      | none => rfl
      | some row =>
        simp only
        split_ifs with hkind
        · rfl
        · exact ih

theorem exec_chainHead {fuel : Nat} {cur : Hash} {k : Hash → Program} :
    (chainHead fuel cur k).exec rows =
      match V0.chainHead rows.ledger.events fuel cur with
      | .error e => .error e
      | .ok head => (k head).exec rows := by
  induction fuel generalizing cur with
  | zero => rfl
  | succ fuel ih =>
    simp only [chainHead, Txn.exec, V0.chainHead]
    cases nextLink rows.ledger.events cur with
    | none => rfl
    | some b => exact ih

theorem exec_momentColumns (cr : Crypto) (want haveId : Hash) (held : EventContent)
    {k : MomentRow → Program} : (momentColumns cr want haveId held k).exec rows =
      match V0.momentColumns cr rows.ledger.events want haveId held with
      | .error e => .error e
      | .ok row => (k row).exec rows := by
  unfold momentColumns
  split_ifs with hsame
  · have hheld : V0.momentColumns cr rows.ledger.events want haveId held =
        V0.momentColumns cr ∅ want haveId held := by
      simp only [V0.momentColumns, if_pos hsame]
    rw [hheld]
    cases V0.momentColumns cr ∅ want haveId held <;> rfl
  · simp only [Txn.exec]
    cases V0.momentColumns cr rows.ledger.events want haveId held <;> rfl

theorem exec_projectMoment (cr : Crypto) (c : EventContent) (id : Hash) :
    (projectMoment cr c id k).exec rows =
      match rows.ledger.tables.projectMoment cr rows.ledger.events c id with
      | .error e => .error e
      | .ok t => k.exec (rows.onTables fun _ => t) := by
  unfold projectMoment Tables.projectMoment
  rw [exec_chainRoot]
  cases V0.chainRoot rows.ledger.events maxChain id c.supersedes with
  | error e => rfl
  | ok root =>
    cases root with
    | none => rfl
    | some root =>
      simp only [exec_chainHead]
      cases hhead : V0.chainHead rows.ledger.events maxChain root with
      | error e => simp only [bind, Except.bind, hhead]
      | ok head =>
        simp only [exec_momentColumns]
        cases hrow : V0.momentColumns cr rows.ledger.events head id c with
        | error e => simp only [bind, Except.bind, hhead, hrow]
        | ok row =>
          simp only [bind, Except.bind, hhead, hrow, Txn.exec]
          by_cases hthere : rows.ledger.tables.moments.contains root = true
          · simp only [hthere, if_true]
            rfl
          · simp only [hthere, Bool.false_eq_true, if_false, exec_updateStats]
            rfl

theorem exec_projectEdge (c : EventContent) (id : Hash) (ed : EdgeBody) :
    (projectEdge c id ed k).exec rows =
      match rows.ledger.tables.projectEdge c id ed with
      | .error e => .error e
      | .ok t => k.exec (rows.onTables fun _ => t) := by
  unfold projectEdge Tables.projectEdge
  by_cases hloop : ed.src = ed.dst
  · simp only [if_pos hloop, Txn.exec]
  · by_cases hthere : rows.ledger.tables.edges.contains id = true
    · simp only [if_neg hloop, Txn.exec, hthere, if_true]
      rfl
    · simp only [if_neg hloop, Txn.exec, hthere, Bool.false_eq_true, if_false, exec_updateStats,
        exec_refreshEdge]
      rfl

theorem exec_projectAttestation (c : EventContent) (id : Hash) (a : AttestationBody) :
    (projectAttestation c id a k).exec rows =
      k.exec (rows.onTables fun t => t.projectAttestation c id a) := by
  unfold projectAttestation Rows.onTables Tables.projectAttestation
  by_cases hthere : rows.ledger.tables.attestations.contains id = true
  · simp only [Txn.exec, hthere, if_true]
    rfl
  · simp only [Txn.exec, hthere, Bool.false_eq_true, if_false, exec_updateStats]
    rfl

theorem exec_apply (cr : Crypto) (c : EventContent) (id : Hash) :
    (apply cr c id k).exec rows =
      match rows.ledger.tables.apply cr rows.ledger.events c id with
      | .error e => .error e
      | .ok t => k.exec (rows.onTables fun _ => t) := by
  unfold apply Tables.apply
  rw [exec_ensureStatsRow]
  cases c.body with
  | entityCreate e => exact exec_projectEntity c id e
  | moment m => exact exec_projectMoment cr c id
  | edge ed => exact exec_projectEdge c id ed
  | attestation a => exact exec_projectAttestation c id a
  | vocabularyDeclare v => exact exec_projectVocabulary c id v

end Program

end Clockchain.V0
