import Clockchain.V0.Event
import Clockchain.Maps
import Mathlib.Data.List.MinMax
import Mathlib.Data.Prod.Lex

/-!
# The v0 ledger

`Signed`, `commit`, the projector and `rebuild` of `cc-ledger/src/lib.rs`. A table is a map
from its primary key; a call that returns an error has rolled its transaction back, so it
leaves the ledger as it was.
-/

namespace Clockchain.V0
open Codec
open V1 (Hash BTreeMap Crypto Verify)
set_option autoImplicit false

/-- `db` is a refusal of the database; here of an edge by `no_self_loop`, in `commitIn` of a row with
a text its column does not take. -/
inductive LedgerError where
  | db
  | badSignature
  | corruption (what : String)
  | rebuildDivergence (before after : Hash)
  deriving Repr, DecidableEq

/-! ## The gate -/

/-- `as_bytes`. -/
def asBytes (id : Hash) : Bytes := V1.hashBytes id

/-- A verified event. `canon` is the preimage its identity hashes. -/
structure Signed (cr : Crypto) (verify : Verify) where
  content : EventContent
  signature : Bytes
  canon : Bytes
  written : canonEvent content = .ok canon
  author : cr.authorKey content.author = true
  verified : verify content.author (asBytes (h0 cr canon)) signature = true

namespace Signed
variable {cr : Crypto} {verify : Verify}

def id (s : Signed cr verify) : Hash := h0 cr s.canon

def kind (s : Signed cr verify) : EventKind := s.content.body.kind

end Signed

/-- A signing key. What it signs verifies under its public key. -/
structure SecretKey (cr : Crypto) (verify : Verify) where
  author : Hash
  isAuthor : cr.authorKey author = true
  signMessage : Bytes → Bytes
  verified : ∀ message, verify author message (signMessage message) = true

/-- `Signed::sign`; the error is the panic of `framed`. -/
def Signed.sign {cr : Crypto} {verify : Verify} (key : SecretKey cr verify)
    (content : EventContent) : Except CoreError (Signed cr verify) :=
  let content := { content with author := key.author }
  match h : canonEvent content with
  | .error e => .error e
  | .ok canon => .ok {
      content, canon
      signature := key.signMessage (asBytes (h0 cr canon))
      written := h
      author := key.isAuthor
      verified := key.verified _ }

/-! ## Tables -/

/-- A row of `events`; coordinates are canonical. -/
structure EventRow where
  kind : EventKind
  authorKey : Hash
  signature : Bytes
  eventTime : Hash
  recordTime : Hash
  payload : Bytes
  supersedes : Option Hash
  deriving Repr, DecidableEq

structure EntityRow where
  birthEvent : Hash
  birthEventTime : Hash
  resolutionKey : String
  canonicalName : String
  windowStart : Hash
  startState : StartState
  closureState : ClosureState
  windowEnd : Hash
  asserter : Hash
  deriving Repr, DecidableEq

structure MomentRow where
  headEventId : Hash
  subject : EntityId
  coord : Hash
  recordCoord : Hash
  posture : Int
  bodyHash : Hash
  authorKey : Hash
  deriving Repr, DecidableEq

structure EdgeRow where
  srcEntity : EntityId
  dstEntity : EntityId
  relation : EdgeRelation
  evidenceClass : EvidenceClass
  asserter : Hash
  eventTime : Hash
  status : Nat
  inG : Bool
  crossWriter : Bool
  deriving Repr, DecidableEq

structure AttestationRow where
  target : Hash
  author : Hash
  deriving Repr, DecidableEq

structure VocabularyRow where
  label : String
  declaredBy : Hash
  declaredAt : Hash
  bandStart : Hash
  startState : StartState
  bandEnd : Hash
  closureState : ClosureState
  deriving Repr, DecidableEq

structure LedgerStats where
  entityCount : Int
  momentCount : Int
  edgeCount : Int
  attestationCount : Int
  contestedEdges : Int
  crossWriterContested : Int
  deriving Repr, DecidableEq

def LedgerStats.zero : LedgerStats := ⟨0, 0, 0, 0, 0, 0⟩

/-- `bigint` order. -/
def i64Cmp (a b : EntityId) : Ordering := compare a.toInt b.toInt

instance : Std.TransCmp i64Cmp where
  eq_swap := @fun _ _ => @Std.OrientedCmp.eq_swap _ (compare : Int → Int → Ordering) _ _ _
  isLE_trans := @fun _ _ _ => @Std.TransCmp.isLE_trans _ (compare : Int → Int → Ordering) _ _ _ _

instance : Std.LawfulEqCmp i64Cmp where
  eq_of_compare h := BitVec.toInt_inj.mp (Std.LawfulEqCmp.eq_of_compare h)

abbrev EntityMap (α : Type) := Std.ExtTreeMap EntityId α i64Cmp
instance transCmpClaimType : Std.TransCmp (compare : BitVec 32 → BitVec 32 → Ordering) :=
  inferInstance

abbrev ClaimTypeMap (α : Type) := Std.ExtTreeMap (BitVec 32) α compare

/-- The projection tables. `stats` is the one row of `ledger_stats`. -/
structure Tables where
  entities : EntityMap EntityRow
  moments : BTreeMap MomentRow
  edges : BTreeMap EdgeRow
  attestations : BTreeMap AttestationRow
  vocabulary : ClaimTypeMap VocabularyRow
  stats : Option LedgerStats

def Tables.empty : Tables := ⟨∅, ∅, ∅, ∅, ∅, none⟩

abbrev Events := BTreeMap EventRow

structure Ledger where
  events : Events
  tables : Tables

def Ledger.empty : Ledger := ⟨∅, .empty⟩

/-! ## Chains -/

def maxChain : Nat := 1024

def chainTooLong : LedgerError := .corruption "supersedes chain exceeds MAX_CHAIN"

/-- `chain_root`, after `maxChain - fuel` rounds; `none` holds the moment. -/
def chainRoot (events : Events) : Nat → Hash → Option Hash → Except LedgerError (Option Hash)
  | 0, _, _ => .error chainTooLong
  | _ + 1, cur, none => .ok (some cur)
  | fuel + 1, cur, some p =>
    match events[p]? with
    | none => .ok none
    | some row =>
      if row.kind ≠ .moment then .ok (some cur) else chainRoot events fuel p row.supersedes

/-- `ORDER BY event_time, event_id`. -/
def foldOrder (eventTime id : Hash) : Nat ×ₗ Nat := toLex (eventTime.toNat, id.toNat)

/-- The earliest moment that supersedes `cur`. -/
def nextLink (events : Events) (cur : Hash) : Option Hash :=
  let children := events.toList.filter fun row =>
    row.2.supersedes = some cur ∧ row.2.kind = .moment
  (children.argmin fun row => foldOrder row.2.eventTime row.1).map Prod.fst

def chainHead (events : Events) : Nat → Hash → Except LedgerError Hash
  | 0, _ => .error chainTooLong
  | fuel + 1, cur =>
    match nextLink events cur with
    | none => .ok cur
    | some b => chainHead events fuel b

/-! ## Reading a row back -/

def parseRow (cr : Crypto) (row : EventRow) : Except LedgerError EventContent :=
  if !cr.authorKey row.authorKey then .error (.corruption "author_key not a valid ed25519 key")
  else match parseEvent cr row.payload (.ofCanon row.eventTime) (.ofCanon row.recordTime)
      row.authorKey with
    | .error _ => .error (.corruption "payload failed to parse")
    | .ok content => .ok content

def checkId (cr : Crypto) (content : EventContent) (id : Hash) : Except LedgerError Unit :=
  match canonEvent content with
  | .error _ => .error (.corruption "H0(payload) != stored event_id")
  | .ok canon =>
    if h0 cr canon ≠ id then .error (.corruption "H0(payload) != stored event_id") else .ok ()

def momentRow (head : Hash) (content : EventContent) (m : MomentBody) : MomentRow where
  headEventId := head
  subject := m.subject
  coord := content.eventTime.toCanon
  recordCoord := content.recordTime.toCanon
  posture := content.eventTime.posture content.recordTime
  bodyHash := m.bodyHash
  authorKey := content.author

/-- `moment_columns`: the row a chain with head `want` shows. -/
def momentColumns (cr : Crypto) (events : Events) (want haveId : Hash) (held : EventContent) :
    Except LedgerError MomentRow :=
  if want = haveId then
    match held.body with
    | .moment m => .ok (momentRow want held m)
    | _ => .error (.corruption "moment projector given a non-moment")
  else
    match events[want]? with
    | none => .error (.corruption "chain names an event that is absent")
    | some row => do
      let content ← parseRow cr row
      checkId cr content want
      match content.body with
      | .moment m => return {
          headEventId := want
          subject := m.subject
          coord := row.eventTime
          recordCoord := row.recordTime
          posture := (Tick.ofCanon row.eventTime).posture (.ofCanon row.recordTime)
          bodyHash := m.bodyHash
          authorKey := row.authorKey }
      | _ => throw (.corruption "chain names a non-moment event")

/-! ## The projector -/

namespace Tables

/-- `UPDATE ledger_stats .. WHERE id = true`. -/
def updateStats (t : Tables) (f : LedgerStats → LedgerStats) : Tables :=
  { t with stats := t.stats.map f }

def ensureStatsRow (t : Tables) : Tables :=
  { t with stats := some (t.stats.getD .zero) }

def refreshEdge (t : Tables) (edgeId : Hash) : Tables :=
  match t.edges[edgeId]? with
  | none => t
  | some row =>
    match t.entities[row.srcEntity]?, t.entities[row.dstEntity]? with
    | some src, some dst =>
      let cross : Bool := src.asserter ≠ dst.asserter
      if !row.inG then
        { t with edges := t.edges.insert edgeId { row with inG := true, crossWriter := cross } }
          |>.updateStats fun s => { s with
            contestedEdges := s.contestedEdges + 1
            crossWriterContested := s.crossWriterContested + if cross then 1 else 0 }
      else if row.crossWriter ≠ cross then
        { t with edges := t.edges.insert edgeId { row with crossWriter := cross } }
          |>.updateStats fun s => { s with
            crossWriterContested := s.crossWriterContested + if cross then 1 else -1 }
      else t
    | _, _ => t

def refreshIncidentEdges (t : Tables) (entityId : EntityId) : Tables :=
  let edgeIds := (t.edges.toList.filter fun row =>
    row.2.srcEntity = entityId ∨ row.2.dstEntity = entityId).map Prod.fst
  edgeIds.foldl refreshEdge t

def entityRow (c : EventContent) (id : Hash) (e : EntityBirth) : EntityRow where
  birthEvent := id
  birthEventTime := c.eventTime.toCanon
  resolutionKey := e.resolutionKey
  canonicalName := e.canonicalName
  windowStart := e.window.storedStart.toCanon
  startState := e.window.startState
  closureState := e.window.closureState
  windowEnd := e.window.storedEnd.toCanon
  asserter := c.author

def projectEntity (t : Tables) (c : EventContent) (id : Hash) (e : EntityBirth) : Tables :=
  let row := entityRow c id e
  let stored : Tables := { t with entities := t.entities.insert e.entityId row }
  match t.entities[e.entityId]? with
  | none =>
    (stored.updateStats fun s => { s with entityCount := s.entityCount + 1 })
      |>.refreshIncidentEdges e.entityId
  | some existing =>
    if existing.birthEvent = id then t
    else if foldOrder row.birthEventTime id <
        foldOrder existing.birthEventTime existing.birthEvent then
      stored.refreshIncidentEdges e.entityId
    else t

def vocabularyRow (c : EventContent) (id : Hash) (v : VocabularyEntry) : VocabularyRow where
  label := v.label
  declaredBy := id
  declaredAt := c.eventTime.toCanon
  bandStart := v.band.storedStart.toCanon
  startState := v.band.startState
  bandEnd := v.band.storedEnd.toCanon
  closureState := v.band.closureState

def projectVocabulary (t : Tables) (c : EventContent) (id : Hash) (v : VocabularyEntry) :
    Except LedgerError Tables :=
  if v.claimType = 0 then
    .error (.corruption "vocabulary claim_type 0 is reserved and must not be declared")
  else
    let row := vocabularyRow c id v
    let stored : Tables := { t with vocabulary := t.vocabulary.insert v.claimType row }
    match t.vocabulary[v.claimType]? with
    | none => .ok stored
    | some prior =>
      if prior.declaredBy = id then .ok t
      else if foldOrder row.declaredAt id < foldOrder prior.declaredAt prior.declaredBy then
        .ok stored
      else .ok t

def projectMoment (cr : Crypto) (events : Events) (t : Tables) (c : EventContent) (id : Hash) :
    Except LedgerError Tables := do
  match ← chainRoot events maxChain id c.supersedes with
  | none => return t
  | some root =>
    let head ← chainHead events maxChain root
    let row ← momentColumns cr events head id c
    let existed := t.moments.contains root
    let stored : Tables := { t with moments := t.moments.insert root row }
    if existed then return stored
    else return stored.updateStats fun s => { s with momentCount := s.momentCount + 1 }

def edgeRow (c : EventContent) (ed : EdgeBody) : EdgeRow where
  srcEntity := ed.src
  dstEntity := ed.dst
  relation := ed.relation
  evidenceClass := ed.evidenceClass
  asserter := c.author
  eventTime := c.eventTime.toCanon
  status := 0
  inG := false
  crossWriter := false

def projectEdge (t : Tables) (c : EventContent) (id : Hash) (ed : EdgeBody) :
    Except LedgerError Tables :=
  -- `no_self_loop` is checked on the proposed row, conflict or not.
  if ed.src = ed.dst then .error .db
  else if t.edges.contains id then .ok t
  else
    let stored : Tables := { t with edges := t.edges.insert id (edgeRow c ed) }
    .ok <| (stored.updateStats fun s => { s with edgeCount := s.edgeCount + 1 }).refreshEdge id

def projectAttestation (t : Tables) (c : EventContent) (id : Hash) (a : AttestationBody) : Tables :=
  if t.attestations.contains id then t
  else
    { t with attestations := t.attestations.insert id ⟨a.target, c.author⟩ }
      |>.updateStats fun s => { s with attestationCount := s.attestationCount + 1 }

def apply (cr : Crypto) (events : Events) (t : Tables) (c : EventContent) (id : Hash) :
    Except LedgerError Tables :=
  let t := t.ensureStatsRow
  match c.body with
  | .entityCreate e => .ok (t.projectEntity c id e)
  | .moment _ => t.projectMoment cr events c id
  | .edge ed => t.projectEdge c id ed
  | .attestation a => .ok (t.projectAttestation c id a)
  | .vocabularyDeclare v => t.projectVocabulary c id v

end Tables

/-! ## The write path -/

inductive Appended where
  | new | unioned
  deriving Repr, DecidableEq

def Signed.row {cr : Crypto} {verify : Verify} (s : Signed cr verify) : EventRow where
  kind := s.kind
  authorKey := s.content.author
  signature := s.signature
  eventTime := s.content.eventTime.toCanon
  recordTime := s.content.recordTime.toCanon
  payload := s.canon
  supersedes := s.content.supersedes

namespace Ledger
variable {cr : Crypto} {verify : Verify}

/-- `append_tx`: `ON CONFLICT (event_id) DO NOTHING`. -/
def append (ledger : Ledger) (s : Signed cr verify) : Appended × Ledger :=
  if ledger.events.contains s.id then (.unioned, ledger)
  else (.new, { ledger with events := ledger.events.insert s.id s.row })

/-- `commit_in_tx` in a transaction of its own. -/
def commit (ledger : Ledger) (s : Signed cr verify) : Except LedgerError (Appended × Ledger) :=
  match ledger.append s with
  | (.unioned, appended) => .ok (.unioned, appended)
  | (.new, appended) => do
    let tables ← appended.tables.apply cr appended.events s.content s.id
    return (.new, { appended with tables })

/-- The ledger after a call of `commit`, whatever it returned. -/
def submit (ledger : Ledger) (s : Signed cr verify) : Ledger :=
  match ledger.commit s with
  | .ok (_, committed) => committed
  | .error _ => ledger

/-- The ledger after one commit each, in this order. -/
def submitAll (ledger : Ledger) (events : List (Signed cr verify)) : Ledger :=
  events.foldl submit ledger

/-! ## Rebuild -/

/-- `events ORDER BY event_time, event_id`. -/
def foldedRows (ledger : Ledger) : List (Hash × EventRow) :=
  ledger.events.toList.mergeSort fun a b =>
    foldOrder a.2.eventTime a.1 ≤ foldOrder b.2.eventTime b.1

/-- One round of `rebuild`. -/
def refold (cr : Crypto) (verify : Verify) (events : Events) (t : Tables)
    (stored : Hash × EventRow) : Except LedgerError Tables := do
  let content ← parseRow cr stored.2
  checkId cr content stored.1
  if !verify stored.2.authorKey (asBytes stored.1) stored.2.signature then
    throw (.corruption "stored signature does not verify")
  t.apply cr events content stored.1

/-- The tables `rebuild` commits. -/
def rebuilt (cr : Crypto) (verify : Verify) (ledger : Ledger) : Except LedgerError Tables :=
  ledger.foldedRows.foldlM (refold cr verify ledger.events) .empty

/-! ## The digest of the view -/

end Ledger

/-- What `view_root` reads of `roots` and `anchors`: no projector writes them. -/
structure Settlement where
  roots : BTreeMap (Int × Option Hash)
  anchors : BTreeMap (Nat × Option Bytes)

def hBytes (x : Bytes) : Bytes := frame x
def hStr (s : String) : Bytes := hBytes s.toUTF8.data.toList
def hI64 (v : Int) : Bytes := hBytes (beBytes 8 (BitVec.ofInt 64 v).toNat)
def hI16 (v : Int) : Bytes := hBytes (beBytes 2 (BitVec.ofInt 16 v).toNat)
def hBool (v : Bool) : Bytes := hBytes [if v then 1 else 0]
def hHash (h : Hash) : Bytes := hBytes (asBytes h)

def hOptBytes : Option Bytes → Bytes
  | none => [0]
  | some b => 1 :: hBytes b

/-- A table: its name, how many rows it has and each row. -/
def hTable {κ α : Type} {cmp : κ → κ → Ordering} (name : String) (row : κ × α → Bytes)
    (t : Std.ExtTreeMap κ α cmp) [Std.TransCmp cmp] : Bytes :=
  hStr name ++ hI64 t.size ++ t.toList.flatMap row

def StartState.toI16 (s : StartState) : Int := [StartState.known, .unknown].idxOf s

def ClosureState.toI16 (s : ClosureState) : Int :=
  [ClosureState.knownOpen, .knownClosed, .unknownClosure].idxOf s

def EdgeRelation.toI16 (r : EdgeRelation) : Int :=
  [EdgeRelation.coOccurrence, .influence, .causation, .participation, .attestation,
    .supersession].idxOf r

def EvidenceClass.toI16 (e : EvidenceClass) : Int :=
  [EvidenceClass.primaryDocument, .secondarySource, .inference, .assertion].idxOf e

/-- `view_root`. -/
def viewRoot (cr : Crypto) (settled : Settlement) (t : Tables) : Hash :=
  let entity (r : EntityId × EntityRow) := hI64 r.1.toInt ++ hHash r.2.birthEvent ++
    hHash r.2.birthEventTime ++ hStr r.2.resolutionKey ++ hStr r.2.canonicalName ++
    hHash r.2.windowStart ++ hI16 r.2.startState.toI16 ++ hI16 r.2.closureState.toI16 ++
    hHash r.2.windowEnd ++ hHash r.2.asserter
  let declaration (r : BitVec 32 × VocabularyRow) := hI64 r.1.toNat ++ hStr r.2.label ++
    hHash r.2.declaredBy ++ hHash r.2.declaredAt ++ hHash r.2.bandStart ++
    hI16 r.2.startState.toI16 ++ hHash r.2.bandEnd ++ hI16 r.2.closureState.toI16
  let moment (r : Hash × MomentRow) := hHash r.1 ++ hHash r.2.headEventId ++
    hI64 r.2.subject.toInt ++ hHash r.2.coord ++ hHash r.2.recordCoord ++ hI16 r.2.posture ++
    hHash r.2.bodyHash ++ hHash r.2.authorKey
  let edge (r : Hash × EdgeRow) := hHash r.1 ++ hI64 r.2.srcEntity.toInt ++
    hI64 r.2.dstEntity.toInt ++ hI16 r.2.relation.toI16 ++ hI16 r.2.evidenceClass.toI16 ++
    hHash r.2.asserter ++ hHash r.2.eventTime ++ hI16 r.2.status ++ hBool r.2.inG ++
    hBool r.2.crossWriter
  let attestation (r : Hash × AttestationRow) := hHash r.1 ++ hHash r.2.target ++ hHash r.2.author
  let root (r : Hash × (Int × Option Hash)) :=
    hHash r.1 ++ hI64 r.2.1 ++ hOptBytes (r.2.2.map asBytes)
  let anchor (r : Hash × (Nat × Option Bytes)) := hHash r.1 ++ hI16 r.2.1 ++ hOptBytes r.2.2
  let stats := match t.stats with
    | none => hI64 0
    | some s => hI64 1 ++ hI64 s.entityCount ++ hI64 s.momentCount ++ hI64 s.edgeCount ++
      hI64 s.attestationCount ++ hI64 s.contestedEdges ++ hI64 s.crossWriterContested
  cr.sha256 <|
    hTable "entities" entity t.entities ++ hTable "vocabulary" declaration t.vocabulary ++
    hTable "moments" moment t.moments ++ hTable "edges" edge t.edges ++
    hTable "attestations" attestation t.attestations ++
    -- no writer of `taxonomy_tags` exists
    (hStr "taxonomy_tags" ++ hI64 0) ++ hTable "roots" root settled.roots ++
    hTable "anchors" anchor settled.anchors ++ hStr "ledger_stats" ++ stats

/-- `rebuild`: the fold is committed before the two digests are compared. -/
def Ledger.rebuild (cr : Crypto) (verify : Verify) (settled : Settlement) (ledger : Ledger) :
    Ledger × Except LedgerError Hash :=
  match ledger.rebuilt cr verify with
  | .error e => (ledger, .error e)
  | .ok tables =>
    let before := viewRoot cr settled ledger.tables
    let after := viewRoot cr settled tables
    let committed := { ledger with tables }
    if before ≠ after then (committed, .error (.rebuildDivergence before after))
    else (committed, .ok after)

end Clockchain.V0
