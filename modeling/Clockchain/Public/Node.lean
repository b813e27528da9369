import Clockchain.Gateway.Read
import Clockchain.V0.Document
import Clockchain.V1.Snapshot
import Clockchain.V1.Support

/-!
# Public reads of a node

The read routes of `cc-node/src/serve_v1.rs` with `entity` and `verdict` of `rule.rs` and `receipts`
of `serving.rs`, and how `cc-gateway/src/lib.rs` forwards one read to its node.
-/

namespace Clockchain.Public
open Gateway (Failure Reply refusal received)
open Json (Value)
open V1 (Hash BTreeMap Crypto Verify FilterIdentity FoldRef Projection Revision RuleId Snapshot
  SignedReceipt Store StoreError Support SupportReason Tables Visibility)
open V0.Publisher (hexDecode hexDigits)
open V1.Publisher (hex)
set_option autoImplicit false

/-- A path by its segments, and the query as it is decoded. -/
structure Request where
  path : List String
  query : List (String × String)
  deriving Repr, DecidableEq

inductive Posture where
  | live | frozen
  deriving Repr, DecidableEq

def Posture.text : Posture → String
  | .live => "live"
  | .frozen => "frozen"

/-- A node: its identity, what it has booted with and what its store retains. -/
structure Node where
  instanceId : Hash
  filter : FilterIdentity
  build : String
  posture : Posture
  semantic : V1.Semantic
  tables : Tables
  bodies : BTreeMap Codec.Bytes

def Node.store (n : Node) : Store := ⟨n.instanceId, some n.filter⟩

def StoreError.text : StoreError → String
  | .database => "store_unavailable"
  | .corrupt => "stored_candidate_corrupt"
  | .unsupportedFoldVersion => "unsupported_fold_version"
  | .ruleIdentity => "incompatible_rule_identity"
  | .unbound => "rule_identity_unbound"
  | .rootMismatch => "root_mismatch"
  | .receipt => "invalid_node_receipt"

/-- `store_refusal`. -/
def storeRefusal (e : StoreError) : Reply :=
  refusal (match e with
    | .unsupportedFoldVersion => 409
    | _ => 503) (StoreError.text e)

/-! ## What the reads compute -/

structure EntityRead where
  asOf : Option Hash
  subject : Hash
  state : String
  frontier : List Hash
  /-- Present only when visible under `asOf`. -/
  revision : Option Revision
  visibility : Visibility

def entity (s : Snapshot) (subject : Hash) (asOf : Option Hash) : Option EntityRead := do
  let (visibility, revision) ← V1.visibility s.projection subject asOf
  let reading := s.projection.subjects.find? fun r => r.subject = subject
  return {
    asOf, subject, visibility
    state := (reading.map fun r => r.state.text).getD ""
    frontier := (reading.map fun r => r.frontier.toList).getD []
    revision := if visibility = .visible then revision else none }

def verdict (s : Snapshot) (source target : Hash) (asOf : Option Hash) : Option Support :=
  V1.verdict s.projection (.ofList s.filter.curators) s.filter.maxHops.toNat source target asOf

inductive Availability where
  | available (prose : String)
  | unavailable | notUtf8

section
variable (cr : Crypto) (verify : Verify)

/-- `prose_of`, the revision with what there is of its body. -/
def proseOf (n : Node) (s : Snapshot) (id : Hash) :
    Except (Nat × String) (Revision × Availability) :=
  match s.projection.revisions.find? fun r => r.id = id with
  | none => .error (404, "revision_unknown")
  | some r =>
    match n.bodies[r.body]? with
    | none => .ok (r, .unavailable)
    | some bytes =>
      if cr.sha256 bytes ≠ r.body then .error (503, "body_verification_failed")
      else match String.fromUTF8? ⟨bytes.toArray⟩ with
        | some prose => .ok (r, .available prose)
        | none => .ok (r, .notUtf8)

/-- The receipts retained for an event in the order of their digests, each verified. -/
def receiptsOf (n : Node) (event : Hash) : Except StoreError (List SignedReceipt) :=
  (n.tables.receipts.toList.filter fun row => row.2.1 = event).mapM fun row =>
    match SignedReceipt.decode cr verify row.2.2 with
    | .error _ => .error .corrupt
    | .ok r =>
      if r.receipt.instanceId ≠ n.instanceId ∨ r.receipt.event ≠ event ∨
          row.1 ≠ cr.sha256 row.2.2 then .error .corrupt
      else .ok r

/-! ## Documents -/

def hexBytes (bytes : Codec.Bytes) : String := .ofList (hexDigits bytes)

def ruleJson (r : RuleId) : Value := .obj [
  ("fold_version", .num r.foldVersion.toNat),
  ("fold_manifest", .str (hex r.foldManifest)),
  ("filter_version", .str (hex r.filterVersion))]

/-- The three names every read carries. -/
def named (s : Snapshot) : List (String × Value) := [
  ("rule", ruleJson s.rule),
  ("corpus_digest", .str (hex s.corpusDigest)),
  ("commitment", .str (hex s.commitment))]

def foldJson (f : FoldRef) : Value := .obj [
  ("version", .num f.version.toNat),
  ("manifest", .str (hex f.manifest))]

def healthBody (n : Node) : Value := .obj [
  ("ledger", .str "v1"),
  ("build", .str n.build),
  ("posture", .str n.posture.text),
  ("instance", .str (hex n.instanceId)),
  ("fold_version", foldJson n.filter.fold),
  ("filter_version", .str (hex (n.filter.version cr))),
  ("curators", .arr (n.filter.curators.map fun c => .str (hex c))),
  ("max_hops", .num n.filter.maxHops.toNat),
  ("semantic", .str n.semantic.text)]

def authorityJson (a : V1.Authority) : Value := .obj [
  ("grants", V1.ViewRows.entries V1.ViewRows.grant a.grants),
  ("active", V1.ViewRows.ids a.active),
  ("tombstones", V1.ViewRows.ids a.tombstones),
  ("effective_revokes", V1.ViewRows.ids a.effectiveRevokes),
  ("canceled", V1.ViewRows.ids a.canceled),
  ("effects", V1.ViewRows.entries V1.ViewRows.effect a.effects)]

def snapshotJson (s : Snapshot) : Value :=
  let p := s.projection
  .obj (named s ++ [
    ("rows", .arr (p.rows.map V1.ViewRows.eventReading)),
    ("subjects", .arr (p.subjects.map V1.ViewRows.subjectReading)),
    ("revisions", .arr (p.revisions.map V1.ViewRows.revision)),
    ("edges", .arr (p.edges.map V1.ViewRows.edgeReading)),
    ("media", .arr (p.media.map V1.ViewRows.mediaReading)),
    ("authority", authorityJson p.authority)])

def asOfJson (asOf : Option Hash) : Value :=
  match asOf with
  | none => .null
  | some h => .str (hex h)

def revisionJson (revision : Option Revision) : Value :=
  match revision with
  | none => .null
  | some r => V1.ViewRows.revision r

def subjectJson (s : Snapshot) (r : EntityRead) : Value := .obj (named s ++ [
  ("as_of", asOfJson r.asOf),
  ("subject", .str (hex r.subject)),
  ("state", .str r.state),
  ("frontier", .arr (r.frontier.map fun h => .str (hex h))),
  ("revision", revisionJson r.revision),
  ("visibility", .str r.visibility.text)])

def Availability.text : Availability → String
  | .available _ => "available"
  | .unavailable => "unavailable"
  | .notUtf8 => "not_utf8"

def Availability.prose : Availability → Option String
  | .available prose => some prose
  | .unavailable | .notUtf8 => none

def proseJson (s : Snapshot) (r : Revision) (a : Availability) : Value := .obj ([
  ("revision", V1.ViewRows.revision r),
  ("availability", .str a.text),
  ("prose", match a.prose with
    | none => .null
    | some prose => .str prose)] ++ named s)

def reasonJson (r : SupportReason) : Value := .obj [
  ("code", .str r.code.text),
  ("subject", V1.ViewRows.hash.option.put r.subject),
  ("edge", V1.ViewRows.hash.option.put r.edge)]

/-- `Support`, tagged by its verdict. -/
def supportValue : Support → Value
  | .supported path excluded => .obj [("Supported", .obj [
      ("path", V1.ViewRows.hashes.put path),
      ("excluded", .arr (excluded.map reasonJson))])]
  | .unsupported reasons => .obj [("Unsupported", .obj [
      ("reasons", .arr (reasons.map reasonJson))])]

def supportJson (s : Snapshot) (source target : Hash) (asOf : Option Hash) (v : Support) : Value :=
  .obj (named s ++ [
    ("as_of", asOfJson asOf),
    ("from", .str (hex source)),
    ("to", .str (hex target)),
    ("support", supportValue v)])

def admissionText : V1.Admission → String
  | .valid => "valid"
  | .pending => "pending"
  | .invalid => "invalid"

/-- The signed bytes as hex, and their decoded fields. -/
def receiptJson (r : SignedReceipt) : Value :=
  let result := r.receipt.initialAdmissionResult
  .obj [
    ("receipt", .str (hexBytes r.bytes)),
    ("receipt_digest", .str (hex (cr.sha256 r.bytes))),
    ("node_key", .str (hex r.receipt.nodeKey)),
    ("event", .str (hex r.receipt.event)),
    ("received_at", .num r.receipt.receivedAt.toNat),
    ("encoding_version", .num r.receipt.encodingVersion.toNat),
    ("fold_version", foldJson r.receipt.foldVersion),
    ("initial_admission_result", .obj [
      ("state", .str (admissionText result.state)),
      ("reason", .str result.reason),
      ("missing", .arr (result.missing.map fun h => .str (hex h)))])]

def receiptsJson (event : String) (found : List SignedReceipt) : Value := .obj [
  ("event", .str event),
  ("receipts", .arr (found.map (receiptJson cr)))]

/-! ## Routes -/

/-- A strict query: an unknown or repeated parameter is refused. -/
def strict (names : List String) (query : List (String × String)) :
    Option (String → Option String) :=
  if (query.all fun q => names.contains q.1) ∧ (query.map Prod.fst).Nodup then
    some fun name => query.lookup name
  else none

def isHexDigit (c : Char) : Bool := c.isDigit || 'a' ≤ c && c ≤ 'f'

/-- Exactly 64 lowercase hex characters. -/
def hex32 (s : String) : Option Hash :=
  if s.utf8ByteSize ≠ 64 ∨ !(s.toList.all isHexDigit) then none
  else (hexDecode s.toList).map fun bytes => BitVec.ofNat 256 (Codec.beNat bytes)

/-- `parse::<u16>`. -/
def parseU16 (s : String) : Option (BitVec 16) :=
  let digits := match s.toList with
    | '+' :: digits => digits
    | digits => digits
  if digits ≠ [] ∧ (digits.all Char.isDigit) ∧ Nat.ofDigitChars 10 digits 0 < 2 ^ 16 then
    some (BitVec.ofNat 16 (Nat.ofDigitChars 10 digits 0))
  else none

/-- The fold a query names, in canonical decimal only; `none` if it is malformed. -/
def foldRequest (get : String → Option String) : Option (Option FoldRef) :=
  match get "fold_version", get "fold_manifest" with
  | none, none => some none
  | some v, some m =>
    match parseU16 v, hex32 m with
    | some version, some manifest =>
      if toString version.toNat = v then some (some ⟨version, manifest⟩) else none
    | _, _ => none
  | _, _ => none

/-- `some none` when absent, `none` when malformed. -/
def asOf : Option String → Option (Option Hash)
  | none => some none
  | some h => (hex32 h).map some

/-- What a route makes of the snapshot it reads; `none` is a panic of the fold. -/
def reading (n : Node) (requested : Option FoldRef) (answer : Snapshot → Option Reply) :
    Option Reply := do
  match ← n.store.snapshot cr verify n.tables requested with
  | .error e => return storeRefusal e
  | .ok s => answer s

def snapshotRoute (n : Node) (query : List (String × String)) : Option Reply :=
  match strict ["fold_version", "fold_manifest"] query with
  | none => some (refusal 400 "invalid_query")
  | some get =>
    match foldRequest get with
    | none => some (refusal 400 "invalid_fold_request")
    | some requested => reading cr verify n requested fun s => some (200, snapshotJson s)

def subjectRoute (n : Node) (subject : String) (query : List (String × String)) : Option Reply :=
  match strict ["as_of"] query with
  | none => some (refusal 400 "invalid_query")
  | some get =>
    match hex32 subject, asOf (get "as_of") with
    | none, _ => some (refusal 400 "invalid_subject_id")
    | some _, none => some (refusal 400 "invalid_as_of")
    | some id, some at' => reading cr verify n none fun s => do
      let r ← entity s id at'
      return (if r.visibility = .subjectUnknown then 404 else 200, subjectJson s r)

def proseRoute (n : Node) (revision : String) (query : List (String × String)) : Option Reply :=
  match strict [] query, hex32 revision with
  | none, _ => some (refusal 400 "invalid_query")
  | some _, none => some (refusal 400 "invalid_revision_id")
  | some _, some id => reading cr verify n none fun s =>
    match proseOf cr n s id with
    | .ok (r, a) => some (200, proseJson s r a)
    | .error (status, error) => some (refusal status error)

def supportRoute (n : Node) (query : List (String × String)) : Option Reply :=
  match strict ["from", "to", "as_of"] query with
  | none => some (refusal 400 "invalid_query")
  | some get =>
    match (get "from").bind hex32, (get "to").bind hex32 with
    | some source, some target =>
      match asOf (get "as_of") with
      | none => some (refusal 400 "invalid_as_of")
      | some at' => reading cr verify n none fun s => do
        return (200, supportJson s source target at' (← verdict s source target at'))
    | _, _ => some (refusal 400 "invalid_support_query")

def receiptsRoute (n : Node) (event : String) (query : List (String × String)) : Reply :=
  match strict [] query, hex32 event with
  | none, _ => refusal 400 "invalid_query"
  | some _, none => refusal 400 "invalid_event_id"
  | some _, some id =>
    match receiptsOf cr verify n id with
    | .ok [] => refusal 404 "no_receipt"
    | .ok found => (200, receiptsJson cr event found)
    | .error .corrupt => refusal 503 "receipt_verification_failed"
    | .error e => storeRefusal e

/-- The router of the node. -/
def Node.reply (n : Node) (r : Request) : Option Reply :=
  match r.path with
  | ["health"] => some (200, healthBody cr n)
  | ["v1", "snapshot"] => snapshotRoute cr verify n r.query
  | ["v1", "subjects", subject] => subjectRoute cr verify n subject r.query
  | ["v1", "revisions", revision, "prose"] => proseRoute cr verify n revision r.query
  | ["v1", "support"] => supportRoute cr verify n r.query
  | ["v1", "receipts", event] => some (receiptsRoute cr verify n event r.query)
  | _ => some (refusal 404 "no_such_route")

/-! ## The gateway -/

/-- A path parameter is forwarded only if it is plain. -/
def segment (s : String) : String :=
  if 1 ≤ s.utf8ByteSize ∧ s.utf8ByteSize ≤ 128 ∧ s.toList.all Char.isAlphanum then s else "invalid"

/-- The node read of a public route. -/
def forwarded (r : Request) : Option Request :=
  match r.path with
  | ["health"] => some ⟨["health"], []⟩
  | ["snapshot"] => some ⟨["v1", "snapshot"], r.query⟩
  | ["subjects", subject] => some ⟨["v1", "subjects", segment subject], r.query⟩
  | ["revisions", revision, "prose"] =>
    some ⟨["v1", "revisions", segment revision, "prose"], r.query⟩
  | ["support"] => some ⟨["v1", "support"], r.query⟩
  | ["receipts", event] => some ⟨["v1", "receipts", segment event], r.query⟩
  | _ => none

def failureReply : Failure → Reply
  | .unavailable => refusal 503 "node_unavailable"
  | .badGateway => refusal 502 "bad_gateway"

/-- What the gateway answers to a node reply, or to a read that has failed. -/
def respond (maxBody : Nat) (reply : Except Failure Reply) : Reply :=
  match reply.bind (received maxBody) with
  | .ok a => (a.status, a.body)
  | .error f => failureReply f

/-- Why a request gets no answer of the node: there have been too many, or the read has failed on
its way. -/
inductive Barred where
  | limited
  | failed (failure : Failure)
  deriving Repr, DecidableEq

/-- The answer of the node through the gateway; where the node panics the read has failed. -/
def answer (maxBody : Nat) (n : Node) (barred : Option Barred) (r : Request) : Reply :=
  match barred, forwarded r with
  | some .limited, _ => refusal 429 "rate_limited"
  | _, none => refusal 404 "no_such_route"
  | some (.failed f), some _ => failureReply f
  | none, some read =>
    respond maxBody (match n.reply cr verify read with
      | none => .error .unavailable
      | some reply => .ok reply)

end

end Clockchain.Public
