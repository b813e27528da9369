import Clockchain.JsonNumbers
import Clockchain.Public.Node

/-!
# The public clients

`clients/python/clockchain_public/client.py` and its port `clients/typescript/src/client.ts`: what a
call asks for and how its answer is decoded. The port makes the same checks in the same order, and
the two differ in how they read a number: a `Dialect`.
-/

namespace Clockchain.Public
open Json (Value)
set_option autoImplicit false

/-! ## Reading JSON -/

/-- How a client reads a document, and which numbers it takes for integers. -/
structure Dialect where
  load : Value → Value
  integer : Nat → Bool

/-- `json.loads` keeps every integer. -/
def python : Dialect := ⟨id, fun _ => true⟩

/-- `JSON.parse` reads doubles, and `Number.isSafeInteger` bounds what is taken for an integer. -/
def typescript : Dialect := ⟨Json.reread Json.double, fun n => n ≤ 2 ^ 53 - 1⟩

/-- What is wrong with a response; the texts of the clients differ in their quotes only. -/
inductive Problem where
  | notObject
  | untyped
  | lacks (key : String)
  | wrongType (key : String)
  | notHex (key : String)
  | notBytes (what : String)
  | entryNotHex (what : String)
  | noObject (what : String)
  | instanceServed
  | ledger (served : String)
  | anotherAnswer (field : String)
  | statusVisibility
  | hiddenRevision
  | proseAvailability
  | verdicts
  | unknownVerdict (verdict : String)
  | receiptHex
  | receiptDigest
  | unknownState (state : String)
  | noReceipt
  | noGenesis
  | manyHeads
  | headRevision
  deriving Repr, DecidableEq

/-- `ProtocolError` and `PublicApiError`. -/
inductive ClientError where
  | protocol (problem : Problem)
  | api (status : Nat) (error : String)
  deriving Repr, DecidableEq

abbrev Decoded (α : Type) := Except ClientError α

def protocol {α : Type} (problem : Problem) : Decoded α := .error (.protocol problem)

/-- 64 lowercase hex characters. -/
def isHex64 (s : String) : Bool := s.toList.length = 64 && s.toList.all isHexDigit

def field (doc : Value) (key : String) : Decoded Value :=
  match doc with
  | .obj members =>
    match members.lookup key with
    | some v => .ok v
    | none => protocol (.lacks key)
  | _ => protocol (.lacks key)

def str (doc : Value) (key : String) : Decoded String := do
  match ← field doc key with
  | .str s => return s
  | _ => protocol (.wrongType key)

def optStr (doc : Value) (key : String) : Decoded (Option String) := do
  match ← field doc key with
  | .null => return none
  | .str s => return some s
  | _ => protocol (.wrongType key)

def int (d : Dialect) (doc : Value) (key : String) : Decoded Nat := do
  match ← field doc key with
  | .num n => if d.integer n then return n else protocol (.wrongType key)
  | _ => protocol (.wrongType key)

/-- The members of an object. -/
def obj (doc : Value) (key : String) : Decoded Value := do
  match ← field doc key with
  | .obj members => return .obj members
  | _ => protocol (.wrongType key)

def optObj (doc : Value) (key : String) : Decoded (Option Value) := do
  match ← field doc key with
  | .null => return none
  | .obj members => return some (.obj members)
  | _ => protocol (.wrongType key)

def arr (doc : Value) (key : String) : Decoded (List Value) := do
  match ← field doc key with
  | .arr items => return items
  | _ => protocol (.wrongType key)

def optArr (doc : Value) (key : String) : Decoded (Option (List Value)) := do
  match ← field doc key with
  | .null => return none
  | .arr items => return some items
  | _ => protocol (.wrongType key)

def hexField (doc : Value) (key : String) : Decoded String := do
  let s ← str doc key
  if isHex64 s then return s else protocol (.notHex key)

def optHex (doc : Value) (key : String) : Decoded (Option String) := do
  match ← optStr doc key with
  | none => return none
  | some _ => some <$> hexField doc key

/-- A list of 32 byte values as lowercase hex. -/
def bytesHash (items : List Value) (what : String) : Decoded String :=
  let byte : Value → Option Nat
    | .num n => if n ≤ 255 then some n else none
    | _ => none
  match items.mapM byte with
  | some bytes =>
    if items.length = 32 then
      .ok (.ofList (bytes.flatMap fun b => [Nat.digitChar (b / 16), Nat.digitChar (b % 16)]))
    else protocol (.notBytes what)
  | none => protocol (.notBytes what)

/-- `bytes_hash` of any value. -/
def bytesHashOf (v : Value) (what : String) : Decoded String :=
  match v with
  | .arr items => bytesHash items what
  | _ => protocol (.notBytes what)

def hexList (values : List Value) (what : String) : Decoded (List String) :=
  values.mapM fun
    | .str s => if isHex64 s then .ok s else protocol (.entryNotHex what)
    | _ => protocol (.entryNotHex what)

def isObject : Value → Bool
  | .obj _ => true
  | _ => false

/-! ## Answers -/

structure FoldVersion where
  version : Nat
  manifest : String
  deriving Repr, DecidableEq

structure Health where
  ledger : String
  build : Option String
  posture : String
  foldVersion : FoldVersion
  filterVersion : String
  curators : List String
  maxHops : Nat
  semantic : String
  deriving Repr, DecidableEq

structure Rule where
  foldVersion : Nat
  foldManifest : String
  filterVersion : String
  deriving Repr, DecidableEq

structure AssertedTime where
  coordinate : String
  precision : String
  deriving Repr, DecidableEq

structure Revision where
  id : String
  subject : String
  creatingEvent : String
  body : String
  assertedTime : Option AssertedTime
  deriving Repr, DecidableEq

structure Snapshot where
  rule : Rule
  corpusDigest : String
  commitment : String
  rows : List Value
  subjects : List Value
  revisions : List Revision
  edges : List Value
  media : List Value
  authority : Value

structure SubjectRead where
  rule : Rule
  corpusDigest : String
  commitment : String
  asOf : Option String
  subject : String
  state : String
  frontier : List String
  revision : Option Revision
  visibility : String

structure Prose where
  rule : Rule
  corpusDigest : String
  commitment : String
  revision : Revision
  availability : String
  prose : Option String

structure Reason where
  code : String
  subject : Option String
  edge : Option String
  deriving Repr, DecidableEq

structure SupportRead where
  rule : Rule
  corpusDigest : String
  commitment : String
  asOf : Option String
  source : String
  target : String
  supported : Bool
  path : List String
  reasons : List Reason

structure InitialAdmission where
  state : String
  reason : String
  missing : List String
  deriving Repr, DecidableEq

structure NodeReceipt where
  receipt : String
  receiptDigest : String
  nodeKey : String
  event : String
  receivedAt : Nat
  encodingVersion : Nat
  foldVersion : FoldVersion
  initialAdmissionResult : InitialAdmission
  deriving Repr, DecidableEq

structure Receipts where
  event : String
  receipts : List NodeReceipt
  deriving Repr, DecidableEq

/-- A decoded answer of one of the calls. -/
inductive Read where
  | health (read : Health)
  | snapshot (read : Snapshot)
  | subject (read : SubjectRead)
  | prose (read : Prose)
  | support (read : SupportRead)
  | receipts (read : Receipts)

/-! ## Decoding -/

section
variable (d : Dialect)

def foldVersion (doc : Value) : Decoded FoldVersion := do
  return ⟨← int d doc "version", ← hexField doc "manifest"⟩

def rule (doc : Value) : Decoded Rule := do
  let r ← obj doc "rule"
  return ⟨← int d r "fold_version", ← hexField r "fold_manifest", ← hexField r "filter_version"⟩

def assertedTime (doc : Value) : Decoded AssertedTime := do
  let coordinate ← bytesHash (← arr doc "coordinate") "asserted_time.coordinate"
  return ⟨coordinate, ← str doc "precision"⟩

def revision (v : Value) : Decoded Revision := do
  if !isObject v then protocol (.noObject "revision")
  let asserted ← match ← optObj v "asserted_time" with
    | none => pure none
    | some t => some <$> assertedTime t
  return {
    id := ← bytesHash (← arr v "id") "revision.id"
    subject := ← bytesHash (← arr v "subject") "revision.subject"
    creatingEvent := ← bytesHash (← arr v "creating_event") "revision.creating_event"
    body := ← bytesHash (← arr v "body") "revision.body"
    assertedTime := asserted }

def optRevision : Option Value → Decoded (Option Revision)
  | none => .ok none
  | some v => some <$> revision v

def optBytesHash (doc : Value) (key : String) : Decoded (Option String) := do
  match ← optArr doc key with
  | none => return none
  | some items => some <$> bytesHash items key

def reason (v : Value) : Decoded Reason := do
  if !isObject v then protocol (.noObject "support reason")
  return ⟨← str v "code", ← optBytesHash v "subject", ← optBytesHash v "edge"⟩

/-- `{"Supported": {path, excluded}}` or `{"Unsupported": {reasons}}`. -/
def support (v : Value) : Decoded (Bool × List String × List Reason) :=
  match v with
  | .obj [(verdict, body)] =>
    if verdict = "Supported" then do
      let path ← (← arr body "path").mapM fun h => bytesHashOf h "support.path"
      return (true, path, ← (← arr body "excluded").mapM reason)
    else if verdict = "Unsupported" then do
      return (false, [], ← (← arr body "reasons").mapM reason)
    else protocol (.unknownVerdict verdict)
  | _ => protocol .verdicts

/-! ## Calls -/

/-- One request below `/public/v1`, the statuses that carry a body to decode and its decoder. -/
structure Call where
  request : Request
  ok : List Nat
  decode : Nat → Value → Decoded Read

/-- A parameter that may be absent. -/
def present (name : String) : Option String → List (String × String)
  | none => []
  | some v => [(name, v)]

def expect {α : Type} [DecidableEq α] (field : String) (served asked : α) : Decoded Unit :=
  if served = asked then .ok () else protocol (.anotherAnswer field)

/-- `build` of a health answer, which may be left out. -/
def optBuild (doc : Value) : Decoded (Option String) :=
  match doc with
  | .obj members =>
    match members.lookup "build" with
    | none | some .null => .ok none
    | some (.str s) => .ok (some s)
    | some _ => protocol (.wrongType "build")
  | _ => .ok none

def hasKey (doc : Value) (key : String) : Bool :=
  match doc with
  | .obj members => (members.lookup key).isSome
  | _ => false

def decodeHealth (doc : Value) : Decoded Read := do
  if hasKey doc "instance" then protocol .instanceServed
  let ledger ← str doc "ledger"
  if ledger ≠ "v1" then protocol (.ledger ledger)
  let fold ← obj doc "fold_version"
  let curators ← hexList (← arr doc "curators") "curator"
  let build ← optBuild doc
  return .health {
    ledger, build, curators
    posture := ← str doc "posture"
    foldVersion := ← foldVersion d fold
    filterVersion := ← hexField doc "filter_version"
    maxHops := ← int d doc "max_hops"
    semantic := ← str doc "semantic" }

def healthCall : Call where
  request := ⟨["health"], []⟩
  ok := [200]
  decode _ := decodeHealth d

/-- The fold the answer must be of. -/
def expectFold (r : Rule) : Option (Nat × String) → Decoded Unit
  | none => .ok ()
  | some pin => expect "fold" (r.foldVersion, r.foldManifest) pin

def decodeSnapshot (pin : Option (Nat × String)) (doc : Value) : Decoded Read := do
  let r ← rule d doc
  expectFold r pin
  return .snapshot {
    rule := r
    corpusDigest := ← hexField doc "corpus_digest"
    commitment := ← hexField doc "commitment"
    rows := ← arr doc "rows"
    subjects := ← arr doc "subjects"
    revisions := ← (← arr doc "revisions").mapM revision
    edges := ← arr doc "edges"
    media := ← arr doc "media"
    authority := ← obj doc "authority" }

/-- Both fold arguments are pinned or neither. -/
def snapshotCall (pin : Option (Nat × String)) : Call where
  request := ⟨["snapshot"], match pin with
    | none => []
    | some (version, manifest) =>
      [("fold_version", toString version), ("fold_manifest", manifest)]⟩
  ok := [200]
  decode _ := decodeSnapshot d pin

/-- The error that an answer names. -/
def namedError (doc : Value) : Option String :=
  match doc with
  | .obj members =>
    match members.lookup "error" with
    | some (.str error) => some error
    | _ => none
  | _ => none

/-- Whether the answer is the read of an unknown subject. -/
def readsUnknown (doc : Value) : Bool :=
  match doc with
  | .obj members =>
    match members.lookup "visibility" with
    | some (.str v) => v = "subject_unknown"
    | _ => false
  | _ => false

def decodeSubject (subject : String) (asOf : Option String) (status : Nat) (doc : Value) :
    Decoded Read := do
  if status = 404 ∧ !readsUnknown doc then
    match namedError doc with
    | none => protocol .untyped
    | some error => throw (.api 404 error)
  let rev ← optObj doc "revision"
  let read : SubjectRead := {
    rule := ← rule d doc
    corpusDigest := ← hexField doc "corpus_digest"
    commitment := ← hexField doc "commitment"
    asOf := ← optHex doc "as_of"
    subject := ← hexField doc "subject"
    state := ← str doc "state"
    frontier := ← hexList (← arr doc "frontier") "frontier"
    revision := ← optRevision rev
    visibility := ← str doc "visibility" }
  expect "subject" read.subject subject
  expect "as_of" read.asOf asOf
  if (status = 404 : Bool) ≠ (read.visibility = "subject_unknown" : Bool) then
    protocol .statusVisibility
  if let some r := read.revision then
    if read.visibility ≠ "visible" then protocol .hiddenRevision
    expect "subject" r.subject subject
  return .subject read

def subjectCall (subject : String) (asOf : Option String) : Call where
  request := ⟨["subjects", subject], present "as_of" asOf⟩
  ok := [200, 404]
  decode := decodeSubject d subject asOf

def decodeProse (asked : String) (doc : Value) : Decoded Read := do
  let rev ← revision (← obj doc "revision")
  expect "revision" rev.id asked
  let availability ← str doc "availability"
  let prose ← optStr doc "prose"
  if (availability = "available" : Bool) ≠ prose.isSome then protocol .proseAvailability
  return .prose {
    rule := ← rule d doc
    corpusDigest := ← hexField doc "corpus_digest"
    commitment := ← hexField doc "commitment"
    revision := rev
    availability, prose }

def proseCall (revision : String) : Call where
  request := ⟨["revisions", revision, "prose"], []⟩
  ok := [200]
  decode _ := decodeProse d revision

def decodeSupport (source target : String) (asOf : Option String) (doc : Value) :
    Decoded Read := do
  let (supported, path, reasons) ← support (← obj doc "support")
  let read : SupportRead := {
    rule := ← rule d doc
    corpusDigest := ← hexField doc "corpus_digest"
    commitment := ← hexField doc "commitment"
    asOf := ← optHex doc "as_of"
    source := ← hexField doc "from"
    target := ← hexField doc "to"
    supported, path, reasons }
  expect "from" read.source source
  expect "to" read.target target
  expect "as_of" read.asOf asOf
  return .support read

def supportCall (source target : String) (asOf : Option String) : Call where
  request := ⟨["support"], [("from", source), ("to", target)] ++ present "as_of" asOf⟩
  ok := [200]
  decode _ := decodeSupport d source target asOf

/-- The bytes of checked hex digits. -/
def fromHex (s : String) : Codec.Bytes := (V0.Publisher.hexDecode s.toList).getD []

def nodeReceipt (sha256 : Codec.Bytes → V1.Hash) (event : String) (v : Value) :
    Decoded NodeReceipt := do
  if !isObject v then protocol (.noObject "receipt")
  let raw ← str v "receipt"
  if raw.toList = [] ∨ raw.toList.length % 2 ≠ 0 ∨ !(raw.toList.all isHexDigit) then
    protocol .receiptHex
  let digest ← hexField v "receipt_digest"
  if V1.Publisher.hex (sha256 (fromHex raw)) ≠ digest then protocol .receiptDigest
  let receivedAt ← int d v "received_at"
  let fold ← obj v "fold_version"
  let initial ← obj v "initial_admission_result"
  let state ← str initial "state"
  if !(["valid", "pending", "invalid"].contains state) then protocol (.unknownState state)
  let r : NodeReceipt := {
    receipt := raw
    receiptDigest := digest
    nodeKey := ← hexField v "node_key"
    event := ← hexField v "event"
    receivedAt
    encodingVersion := ← int d v "encoding_version"
    foldVersion := ← foldVersion d fold
    initialAdmissionResult := ⟨state, ← str initial "reason",
      ← hexList (← arr initial "missing") "missing"⟩ }
  expect "event" r.event event
  return r

def decodeReceipts (sha256 : Codec.Bytes → V1.Hash) (event : String) (doc : Value) :
    Decoded Read := do
  let served ← hexField doc "event"
  expect "event" served event
  let items ← arr doc "receipts"
  if items.isEmpty then protocol .noReceipt
  return .receipts ⟨served, ← items.mapM (nodeReceipt d sha256 event)⟩

def receiptCall (sha256 : Codec.Bytes → V1.Hash) (event : String) : Call where
  request := ⟨["receipts", event], []⟩
  ok := [200]
  decode _ := decodeReceipts d sha256 event

/-- Decode one response, failing closed. -/
def parse (c : Call) (response : Gateway.Reply) : Decoded Read :=
  let doc := d.load response.2
  if !isObject doc then protocol .notObject
  else if response.1 ∈ c.ok then c.decode response.1 doc
  else match namedError doc with
    | none => protocol .untyped
    | some error => .error (.api response.1 error)

end

/-! ## Arguments -/

/-- A call by its arguments, which are the same in both clients. -/
inductive Asked where
  | health
  | snapshot (foldVersion : Option Int) (foldManifest : Option String)
  | subject (id : String) (asOf : Option String)
  | prose (revision : String)
  | support (source target : String) (asOf : Option String)
  | receipt (event : String)
  deriving Repr, DecidableEq

def hexOrAbsent : Option String → Bool
  | none => true
  | some s => isHex64 s

/-- The call, unless an argument is refused. -/
def Asked.call (d : Dialect) (sha256 : Codec.Bytes → V1.Hash) : Asked → Option Call
  | .health => some (healthCall d)
  | .snapshot none none => some (snapshotCall d none)
  | .snapshot (some version) (some manifest) =>
    if 0 ≤ version ∧ version ≤ 0xffff ∧ isHex64 manifest then
      some (snapshotCall d (some (version.toNat, manifest)))
    else none
  | .snapshot _ _ => none
  | .subject id asOf =>
    if isHex64 id ∧ hexOrAbsent asOf then some (subjectCall d id asOf) else none
  | .prose revision => if isHex64 revision then some (proseCall d revision) else none
  | .support source target asOf =>
    if isHex64 source ∧ isHex64 target ∧ hexOrAbsent asOf then
      some (supportCall d source target asOf)
    else none
  | .receipt event => if isHex64 event then some (receiptCall d sha256 event) else none

/-! ## Summaries -/

structure SubjectKey where
  kind : String
  nameSpace : String
  value : String
  deriving Repr, DecidableEq

/-- `revision` is the current revision of a resolved subject only. -/
structure SubjectSummary where
  subject : String
  state : String
  key : SubjectKey
  revision : Option Revision
  deriving Repr, DecidableEq

/-- The value of a dict, or a map, that has been filled in this order. -/
def lastOf {α : Type} (entries : List (String × α)) (key : String) : Option α :=
  entries.reverse.lookup key

def rowEntry (row : Value) : Decoded (String × Value) := do
  if !isObject row then protocol (.noObject "snapshot row")
  return (← bytesHash (← arr row "event") "row.event", row)

/-- The key that the Genesis of a subject has signed. -/
def genesisKey (rows : List (String × Value)) (subject : String) : Decoded SubjectKey := do
  match lastOf rows subject with
  | none => protocol .noGenesis
  | some genesis =>
    let envelope ← obj genesis "envelope"
    if !hasKey (← obj envelope "payload") "Genesis" then protocol .noGenesis
    let k ← obj envelope "subject_key"
    return ⟨← str k "kind", ← str k "namespace", ← str k "value"⟩

/-- The revision that a row names. -/
def rowRevision (revisions : List (String × Revision)) (row : Option Value) :
    Decoded (Option Revision) := do
  match row with
  | none => return none
  | some row =>
    match ← optArr row "revision" with
    | none => return none
    | some items => return lastOf revisions (← bytesHash items "row.revision")

/-- The revision at the only head of a resolved subject. -/
def headRevision (rows : List (String × Value)) (revisions : List (String × Revision))
    (subject : String) (frontier : List Value) : Decoded Revision := do
  match frontier with
  | [head] =>
    match ← rowRevision revisions (lastOf rows (← bytesHashOf head "frontier")) with
    | some r => if r.subject = subject then return r else protocol .headRevision
    | none => protocol .headRevision
  | _ => protocol .manyHeads

def summarizeSubject (rows : List (String × Value)) (revisions : List (String × Revision))
    (s : Value) : Decoded SubjectSummary := do
  if !isObject s then protocol (.noObject "snapshot subject")
  let subject ← bytesHash (← arr s "subject") "subject"
  let state ← str s "state"
  let key ← genesisKey rows subject
  if state = "resolved" then
    let head ← headRevision rows revisions subject (← arr s "frontier")
    return ⟨subject, state, key, some head⟩
  return ⟨subject, state, key, none⟩

/-- `summarize_subjects`. -/
def summarizeSubjects (s : Snapshot) : Decoded (List SubjectSummary) := do
  let rows ← s.rows.mapM rowEntry
  s.subjects.mapM (summarizeSubject rows (s.revisions.map fun r => (r.id, r)))

end Clockchain.Public
