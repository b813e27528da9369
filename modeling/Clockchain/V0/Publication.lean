import Clockchain.V0.Admission
import Clockchain.V0.Candidate

/-!
# Controlled publication

Staging, approval and publication of `cc-publisher/src/lib.rs`, each as the transaction it
runs. A table that is only read by its key is a partial function; a payload column is kept as
the document it was written from.
-/

namespace Clockchain.V0.Publisher
open Codec
open V1 (Hash BTreeMap Crypto Verify)
set_option autoImplicit false

/-! ## Tables -/

abbrev Table (κ α : Type) := κ → Option α

def Table.insert {κ α : Type} [DecidableEq κ] (t : Table κ α) (k : κ) (a : α) : Table κ α :=
  fun x => if x = k then some a else t x

/-- `ON CONFLICT DO NOTHING`. -/
def Table.insertIfNew {κ α : Type} [DecidableEq κ] (t : Table κ α) (k : κ) (a : α) : Table κ α :=
  if (t k).isSome then t else t.insert k a

structure BriefRow where
  digest : Hash
  payload : Value

structure CandidateRow where
  briefId : String
  digest : Hash
  payload : Value

inductive ApprovalKind where
  | brief | candidate
  deriving Repr, DecidableEq

/-- The primary key of `generation_approvals`. -/
structure ApprovalKey where
  kind : ApprovalKind
  targetId : String
  digest : Hash
  deriving Repr, DecidableEq

/-- The body hashes of the moments of each subject. -/
abbrev Heads := EntityMap (List Hash)

structure ApprovalRow where
  expectedHeads : Option Heads
  reviewer : String

structure PublishedMoment where
  entityId : EntityId
  eventId : Hash
  bodyHash : Hash
  deriving Repr, DecidableEq

structure Receipt where
  candidateId : String
  digest : Hash
  briefId : String
  events : List Hash
  moments : List PublishedMoment
  images : Value

structure EvidenceRow where
  candidateId : String
  admittedCoord : Hash
  evidence : Text
  evidenceSha256 : Hash
  authorKey : Hash
  signature : Bytes

structure Db where
  ledger : Ledger
  claimBodies : Table Hash Text
  edgeEvidence : Table Hash EvidenceRow
  briefs : Table String BriefRow
  candidates : Table String CandidateRow
  approvals : Table ApprovalKey ApprovalRow
  receipts : Table String Receipt
  paused : Bool

def Db.empty : Db where
  ledger := .empty
  claimBodies _ := none
  edgeEvidence _ := none
  briefs _ := none
  candidates _ := none
  approvals _ := none
  receipts _ := none
  paused := true

/-- The rows a publication writes before its receipt, and what it has gathered; the receipt
lists the identities of `events`. -/
structure Draft (cr : Crypto) (verify : Verify) where
  ledger : Ledger
  claimBodies : Table Hash Text
  edgeEvidence : Table Hash EvidenceRow
  events : List (Signed cr verify)
  moments : List PublishedMoment
  first : Std.ExtTreeMap String Tick compare
  coordinates : EntityMap Tick

section Calls
variable {cr : Crypto} {verify : Verify}

/-- `canonical`, digested. -/
def payloadDigest (cr : Crypto) (v : Value) : Hash := digest cr v.write.bytes

/-- `CHECK (length(id) BETWEEN 1 AND 200)`. -/
def checkLength (id : String) : Checked Unit :=
  if 1 ≤ id.toList.length ∧ id.toList.length ≤ 200 then .ok () else .error .db

def fetchOne {α : Type} (row : Option α) : Checked α :=
  match row with
  | some a => .ok a
  | none => .error .db

/-! ## Staging -/

def stageBrief (cr : Crypto) (db : Db) (id : String) (v : Value) : Checked Db := do
  let members ← context v.asObject "brief must be nonempty object"
  ensure (!members.isEmpty) "brief must be nonempty object"
  let hash := payloadDigest cr v
  checkLength id
  let db := { db with briefs := db.briefs.insertIfNew id ⟨hash, v⟩ }
  let old ← fetchOne (db.briefs id)
  ensure (old.digest = hash) "brief id already binds different content"
  return db

def approved (db : Db) (key : ApprovalKey) (text : String) : Checked Unit :=
  ensure (db.approvals key).isSome text

def stageCandidate (cr : Crypto) (host : Host) (db : Db) (id brief : String) (v : Value) :
    Checked Db := do
  validateCandidate cr host v
  verifyImages cr host v
  let row ← fetchOne (db.briefs brief)
  let maximum ← context (row.payload.get "max_entries").asU64 "brief max_entries required"
  let entries ← context (v.get "entries").asArray "entries missing"
  ensure (1 ≤ maximum && maximum ≤ 5 && entries.length ≤ maximum) "brief entry limit exceeded"
  approved db ⟨.brief, brief, row.digest⟩ "brief lacks exact digest-bound human approval"
  let hash := payloadDigest cr v
  checkLength id
  let db := { db with candidates := db.candidates.insertIfNew id ⟨brief, hash, v⟩ }
  let old ← fetchOne (db.candidates id)
  ensure (old.digest = hash && old.briefId = brief)
    "candidate id already binds different content or brief"
  return db

/-- The subject of an entry. -/
def entrySubject (cr : Crypto) (e : Value) : Checked EntityId := do
  let title ← string e "title"
  let year ← context (e.get "year").asI64 "year missing"
  return (claimIdentity cr title year).1

/-- `SELECT encode(body_hash,'hex') FROM moments WHERE subject=$1 ORDER BY body_hash`. -/
def subjectHashes (ledger : Ledger) (subject : EntityId) : List Hash :=
  ((ledger.tables.momentsOf subject).map MomentRow.bodyHash).mergeSort fun a b => a ≤ b

def heads (cr : Crypto) (ledger : Ledger) (v : Value) : Checked Heads := do
  let entries ← context (v.get "entries").asArray "entries missing"
  let subjects ← entries.mapM (entrySubject cr)
  return subjects.foldl (fun m subject => m.insert subject (subjectHashes ledger subject)) ∅

/-- The digest an approval names, as it is staged. -/
def stagedDigest (db : Db) (key : ApprovalKey) : Checked Hash :=
  match key.kind with
  | .brief => BriefRow.digest <$> fetchOne (db.briefs key.targetId)
  | .candidate => CandidateRow.digest <$> fetchOne (db.candidates key.targetId)

/-- What an approval records of the ledger. -/
def expectedHeads (cr : Crypto) (host : Host) (db : Db) (key : ApprovalKey) :
    Checked (Option Heads) :=
  match key.kind with
  | .brief => .ok none
  | .candidate => do
    let row ← fetchOne (db.candidates key.targetId)
    validateCandidate cr host row.payload
    verifyImages cr host row.payload
    return some (← heads cr db.ledger row.payload)

def approve (cr : Crypto) (host : Host) (db : Db) (key : ApprovalKey) (reviewer : String) :
    Checked Db := do
  ensure (!reviewer.toList.all V1.Publisher.isWhitespace) "reviewer required"
  let actual ← stagedDigest db key
  ensure (actual = key.digest) "approval digest differs from staged proposal"
  let expected ← expectedHeads cr host db key
  return { db with approvals := db.approvals.insert key ⟨expected, reviewer⟩ }

/-! ## Publication -/

/-- `Signed::sign` and `commit_in_tx`. -/
def commitEvent (key : SecretKey cr verify) (content : EventContent) (d : Draft cr verify) :
    Checked (Hash × Draft cr verify) :=
  match Signed.sign key content with
  | .error e => .error (.core e)
  | .ok s =>
    match d.ledger.commit s with
    | .error e => .error (.ledger e)
    | .ok (_, ledger) => .ok (s.id, { d with ledger, events := d.events ++ [s] })

/-- What is known of a beginning: its coordinate. -/
def openWindow (at_ : Tick) : ExistenceWindow := ⟨.known at_, .unknownClosure⟩

/-- The events of a publication have its record time and no predecessor; `sign` sets the
author. -/
def contentAt (author : Hash) (at_ now : Tick) (body : EventBody) : EventContent :=
  ⟨at_, now, author, none, body⟩

def resolutionKey (key : Hash) : String :=
  .ofList ("claim:".toList ++ hexDigits ((asBytes key).take 16))

def claimKind : Text := "claim_v4".toList

def publishEntry (key : SecretKey cr verify) (now : Tick) (d : Draft cr verify) (e : Value) :
    Checked (Draft cr verify) := do
  let title ← string e "title"
  let year ← context (e.get "year").asI64 "entry year missing"
  let (subject, identity) := claimIdentity cr title year
  let at_ ← entryCoordinate e
  let d := { d with coordinates := d.coordinates.insert subject at_ }
  let (_, d) ← commitEvent key (contentAt key.author at_ now
    (.entityCreate ⟨subject, resolutionKey identity, title, openWindow at_⟩)) d
  let body := e.write
  let bodyHash := claimBodyHash cr claimKind body
  let (id, d) ← commitEvent key (contentAt key.author at_ now (.moment ⟨subject, bodyHash⟩)) d
  let d := { d with claimBodies := d.claimBodies.insertIfNew bodyHash body }
  ensure (d.claimBodies bodyHash = some body) "claim body conflict"
  let label ← string e "claim_type"
  let first := match d.first[label]? with
    | none => at_
    | some t => if at_.slt t then at_ else t
  return { d with
    moments := d.moments ++ [⟨subject, id, bodyHash⟩]
    first := d.first.insert label first }

def declareLabel (key : SecretKey cr verify) (now : Tick) (d : Draft cr verify)
    (label : String × Tick) : Checked (Draft cr verify) := do
  let (_, d) ← commitEvent key (contentAt key.author label.2 now
    (.vocabularyDeclare ⟨claimCode cr label.1, label.1, openWindow label.2⟩)) d
  return d

def edgeEvidenceText (e : Value) : Text :=
  (Value.obj [("evidence_class", e.get "evidence_class"), ("rationale", e.get "rationale"),
    ("schema", .str "cc.edge-evidence.v1"), ("sources", e.get "evidence")]).write

def evidenceCommitment (event evidence : Hash) : Bytes :=
  Text.bytes "cc.edge-evidence.v1".toList ++ 0 :: (asBytes event ++ asBytes evidence)

def publishEdge (key : SecretKey cr verify) (now : Tick) (candidate : String)
    (d : Draft cr verify) (e : Value) : Checked (Draft cr verify) := do
  let (src, _) ← endpoint cr (e.get "from")
  let (dst, _) ← endpoint cr (e.get "to")
  let s ← context d.coordinates[src]? "no coordinate"
  let t ← context d.coordinates[dst]? "no coordinate"
  let (id, d) ← commitEvent key (contentAt key.author (if s.slt t then t else s) now
    (.edge ⟨src, dst, ← relation e, ← evidenceClass e⟩)) d
  let evidence := edgeEvidenceText e
  let evidenceSha256 := digest cr evidence.bytes
  let row : EvidenceRow := {
    candidateId := candidate
    admittedCoord := now.toCanon
    evidence
    evidenceSha256
    authorKey := key.author
    signature := key.signMessage (evidenceCommitment id evidenceSha256) }
  let d := { d with edgeEvidence := d.edgeEvidence.insertIfNew id row }
  let old ← fetchOne (d.edgeEvidence id)
  ensure (old.evidence = evidence)
    "edge already has different evidence; explicit revision required"
  return d

/-- The events, bodies and evidence of a candidate. -/
def publishBody (key : SecretKey cr verify) (now : Tick) (db : Db) (id : String) (v : Value) :
    Checked (Draft cr verify) := do
  let entries ← context (v.get "entries").asArray "entries missing"
  let d : Draft cr verify := ⟨db.ledger, db.claimBodies, db.edgeEvidence, [], [], ∅, ∅⟩
  let d ← entries.foldlM (publishEntry key now) d
  let d ← d.first.toList.foldlM (declareLabel key now) d
  let edges ← context (v.get "edges").asArray "edges missing"
  edges.foldlM (publishEdge key now id) d

/-- How many of the two approvals are recorded. -/
def countApprovals (db : Db) (id : String) (row : CandidateRow) (hash : Hash) : Nat :=
  (if (db.approvals ⟨.candidate, id, hash⟩).isSome then 1 else 0) +
    match db.briefs row.briefId with
    | none => 0
    | some brief => if (db.approvals ⟨.brief, row.briefId, brief.digest⟩).isSome then 1 else 0

/-- `publish`. -/
def publish (host : Host) (key : SecretKey cr verify) (now : Tick) (db : Db) (id : String)
    (hash : Hash) : Checked (Receipt × Db) := do
  let row ← fetchOne (db.candidates id)
  ensure (row.digest = hash) "publication digest mismatch"
  let v := row.payload
  ensure (payloadDigest cr v = hash) "stored candidate corruption"
  match db.receipts id with
  | some receipt => return (receipt, db)
  | none =>
    ensure (countApprovals db id row hash = 2)
      "publication requires brief and exact proposal approvals"
    ensure (!db.paused) "publication paused by operator"
    validateCandidate cr host v
    verifyImages cr host v
    let approval ← fetchOne (db.approvals ⟨.candidate, id, hash⟩)
    let current ← heads cr db.ledger v
    ensure (approval.expectedHeads = some current)
      "current heads changed; fresh human approval required"
    let d ← publishBody key now db id v
    let receipt : Receipt :=
      ⟨id, hash, row.briefId, d.events.map Signed.id, d.moments, v.get "images"⟩
    return (receipt, { db with
      ledger := d.ledger
      claimBodies := d.claimBodies
      edgeEvidence := d.edgeEvidence
      receipts := db.receipts.insert id receipt })

/-! ## Sequences of calls -/

/-- A call that succeeds; `Pause` and `Resume` of the command line set the flag. -/
inductive Op (cr : Crypto) (verify : Verify) where
  | stageBrief (id : String) (v : Value)
  | stageCandidate (id brief : String) (v : Value)
  | approve (key : ApprovalKey) (reviewer : String)
  | setPaused (paused : Bool)
  | publish (key : SecretKey cr verify) (now : Tick) (id : String) (hash : Hash)

def Db.call (host : Host) (db : Db) : Op cr verify → Checked Db
  | .stageBrief id v => Publisher.stageBrief cr db id v
  | .stageCandidate id brief v => Publisher.stageCandidate cr host db id brief v
  | .approve key reviewer => Publisher.approve cr host db key reviewer
  | .setPaused paused => .ok { db with paused }
  | .publish key now id hash => Prod.snd <$> Publisher.publish host key now db id hash

def Db.calls (host : Host) (db : Db) (ops : List (Op cr verify)) : Checked Db :=
  ops.foldlM (Db.call host) db

end Calls

end Clockchain.V0.Publisher
