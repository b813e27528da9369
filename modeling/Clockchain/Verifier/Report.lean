import Clockchain.JsonMaps
import Clockchain.Public.Hex
import Clockchain.Verifier.Rows

/-!
# The verifier

`cc-wasm-verify/src/lib.rs`: what a node or the gateway serves, checked against its own commitment.
Nothing is folded again: the rows are those the node has committed to.
-/

namespace Clockchain.Verifier
open Json Json.Members
open Public (hex32)
open V0.Publisher (hexDecode)
open V1 (BTreeMap BTreeSet Crypto Decoded FilterIdentity FoldRef Hash Verify)
open V1.Publisher (hex)
set_option autoImplicit false

/-! ## Reports -/

/-- What this verifier does not recompute. -/
def notRecomputed : List String := [
  "The fold itself. Admission states and reasons, frontiers, revision selection, authority," ++
    " subject readings, edge and media readings are checked only for consistency with the " ++
    "view commitment; they are not re-derived from the envelopes. Re-running fold_version 1 " ++
    "in the browser needs a wasm-clean projection crate, which is a future owner decision.",
  "Support verdicts. A support read is checked only for naming the verified rule, corpus " ++
    "digest and commitment; its path search and as_of exclusions are not recomputed. (A " ++
    "subject read's as_of visibility is recomputed, from the verified rows.)",
  "Authenticity. The verifier does not authenticate the gateway or the origin of the " ++
    "corpus: health, rule, curator keys, corpus digest and commitment all come from the same " ++
    "server. Without a signed export the row envelopes' signatures are unchecked, so a " ++
    "hostile server can serve a fully self-consistent forged corpus under curator keys it " ++
    "names and still reach partial. Even verified, with an export, means internal consistency" ++
    " under the keys the server names, and nothing more. Authorship needs an export obtained " ++
    "out of band and the served curator keys (and max_hops) compared with the owner's " ++
    "independently published keys.",
  "Completeness. The corpus digest proves which candidates the commitment covers, not that " ++
    "the node served every candidate it holds."]

inductive Status where
  | pass | fail | notChecked
  deriving Repr, DecidableEq

structure Check where
  name : String
  status : Status
  detail : String
  deriving Repr, DecidableEq

/-- `partly`: none failed, some were not checked. -/
inductive Outcome where
  | verified | partly | failed
  deriving Repr, DecidableEq

/-- Values this verifier has computed itself, in hex. -/
structure Recomputed where
  foldManifest : String
  ontology : String
  filterVersion : Option String
  corpusDigest : Option String
  commitment : Option String
  events : Nat
  signatures : Nat
  deriving Repr, DecidableEq

structure Report where
  outcome : Outcome
  checks : List Check
  recomputed : Recomputed
  notRecomputed : List String
  deriving Repr, DecidableEq

def Check.passed (name detail : String) : Check := ⟨name, .pass, detail⟩

def Check.failed (name detail : String) : Check := ⟨name, .fail, detail⟩

/-- `ok` as pass or fail. -/
def Check.expect (name : String) (ok : Bool) (pass fail : String) : Check :=
  if ok then .passed name pass else .failed name fail

def outcomeOf (checks : List Check) : Outcome :=
  if checks.any fun c => c.status = .fail then .failed
  else if checks.any fun c => c.status = .notChecked then .partly
  else .verified

/-! ## Inputs

A text is what is read of it: nothing where it is no JSON. Of an object the members stand as they
are written, repeated ones too.
-/

/-- A read to compare with the verified snapshot. -/
structure Read where
  kind : String
  body : Option Value

/-- Everything the caller has fetched. -/
structure Input where
  health : Option Value
  snapshot : Option Value
  exported : Option (Option Value)
  reads : List Read

structure FoldJson where
  version : BitVec 16
  manifest : String

def foldForm : Form FoldJson :=
  ((field "version" (.number 16)).pair (field "manifest" .text)).record
    (fun (version, manifest) => FoldJson.mk version manifest)
    (fun f => (f.version, f.manifest)) |>.strict

/-- The identity of `/health`; its other fields are none. -/
structure Health where
  ledger : String
  foldVersion : FoldJson
  filterVersion : String
  curators : List String
  maxHops : BitVec 16

def healthForm : Form Health :=
  ((field "ledger" .text).pair ((field "fold_version" foldForm).pair
      ((field "filter_version" .text).pair ((field "curators" (.list .text)).pair
        (field "max_hops" (.number 16)))))).record
    (fun (ledger, foldVersion, filterVersion, curators, maxHops) =>
      Health.mk ledger foldVersion filterVersion curators maxHops)
    (fun h => (h.ledger, h.foldVersion, h.filterVersion, h.curators, h.maxHops)) |>.lenient

structure ExportRule where
  foldVersion : BitVec 16
  foldManifest : Hash
  filterVersion : Hash

/-- An export manifest: its envelopes in hex, its hashes as arrays of bytes. -/
structure Export where
  encoding : BitVec 16
  rule : ExportRule
  corpusDigest : Hash
  commitment : Hash
  envelopes : List String

def exportRuleForm : Form ExportRule :=
  ((field "fold_version" (.number 16)).pair ((field "fold_manifest" V1.ViewRows.hash).pair
      (field "filter_version" V1.ViewRows.hash))).record
    (fun (foldVersion, foldManifest, filterVersion) =>
      ExportRule.mk foldVersion foldManifest filterVersion)
    (fun r => (r.foldVersion, r.foldManifest, r.filterVersion)) |>.strict

def exportForm : Form Export :=
  ((field "encoding" (.number 16)).pair ((field "rule" exportRuleForm).pair
      ((field "corpus_digest" V1.ViewRows.hash).pair ((field "commitment" V1.ViewRows.hash).pair
        (field "envelopes" (.list .text)))))).record
    (fun (encoding, rule, corpusDigest, commitment, envelopes) =>
      Export.mk encoding rule corpusDigest commitment envelopes)
    (fun m => (m.encoding, m.rule, m.corpusDigest, m.commitment, m.envelopes)) |>.strict

/-- The rule, corpus digest and commitment every read names. -/
structure Named where
  rule : RuleJson
  corpusDigest : String
  commitment : String

def namedForm : Form Named :=
  ((field "rule" ruleForm).pair ((field "corpus_digest" .text).pair
      (field "commitment" .text))).record
    (fun (rule, corpusDigest, commitment) => Named.mk rule corpusDigest commitment)
    (fun n => (n.rule, n.corpusDigest, n.commitment)) |>.lenient

structure SubjectRead where
  asOf : Option String
  subject : String
  state : String
  frontier : List String
  revision : Option Revision
  visibility : String

def subjectReadForm : Form SubjectRead :=
  ((optional "as_of" .text).pair ((field "subject" .text).pair ((field "state" .text).pair
      ((field "frontier" (.list .text)).pair ((optional "revision" revisionForm).pair
        (field "visibility" .text)))))).record
    (fun (asOf, subject, state, frontier, revision, visibility) =>
      SubjectRead.mk asOf subject state frontier revision visibility)
    (fun r => (r.asOf, r.subject, r.state, r.frontier, r.revision, r.visibility)) |>.lenient

structure ProseRead where
  revision : Revision
  availability : String
  prose : Option String

def proseReadForm : Form ProseRead :=
  ((field "revision" revisionForm).pair ((field "availability" .text).pair
      (optional "prose" .text))).record
    (fun (revision, availability, prose) => ProseRead.mk revision availability prose)
    (fun r => (r.revision, r.availability, r.prose)) |>.lenient

/-- What other code says: `serde_json` of a text that is not the document asked for, and `{:?}` of
a text. -/
structure Wording where
  serde : String → Option Value → String
  debug : String → String

/-! ## Identity -/

section
variable (cr : Crypto) (signed : Verify) (w : Wording)

def identityErrorText : V1.IdentityError → String
  | .curatorSet => "curator_set"
  | .maxHops => "max_hops"

/-- The filter version of a `/health` document, recomputed under this build. -/
def filterOf (h : Health) (fold : FoldRef) : Check × Option (FoldRef × Hash) :=
  match h.curators.mapM hex32 with
  | none => (.failed "filter_version" "a curator key is not 64 lowercase hex", none)
  | some curators =>
    match FilterIdentity.governed cr curators h.maxHops with
    | .error e =>
      (.failed "filter_version"
        ("served identity is not one fold_version 1 governs: " ++ identityErrorText e), none)
    | .ok filter =>
      let version := filter.version cr
      let ok := hex32 h.filterVersion = some version
      (.expect "filter_version" ok
        ("recomputed " ++ hex version ++ " from " ++ toString filter.curators.length ++
          " curator keys, max_hops " ++ toString filter.maxHops.toNat ++ " and TT taxonomy " ++
          hex filter.ontology)
        ("health serves " ++ h.filterVersion ++
          " but its curators, max_hops and the pinned TT taxonomy give " ++ hex version),
        if ok then some (fold, version) else none)

/-- The identity a `/health` document names, recomputed under this build. -/
def identity (text : Option Value) : List Check × Option (FoldRef × Hash) :=
  match text.bind healthForm.get with
  | none =>
    ([.failed "health" ("health is not a v1 health document: " ++ w.serde "Health" text)], none)
  | some h =>
    let ledger := Check.expect "health" (h.ledger = "v1") "health names ledger v1"
      ("health names ledger " ++ w.debug h.ledger ++ ", not v1")
    if h.ledger ≠ "v1" then ([ledger], none)
    else
      let fold := V1.foldV1 cr
      let served := (hex32 h.foldVersion.manifest).map fun manifest =>
        FoldRef.mk h.foldVersion.version manifest
      let version := Check.expect "fold_version" (served = some fold)
        ("fold_version (1, " ++ hex fold.manifest ++ ") is the fold this verifier was built with")
        ("health fold_version (" ++ toString h.foldVersion.version.toNat ++ ", " ++
          h.foldVersion.manifest ++ ") is not this verifier's (1, " ++ hex fold.manifest ++ ")")
      if served ≠ some fold then ([ledger, version], none)
      else
        let (filter, found) := filterOf cr h fold
        ([ledger, version, filter], found)

/-! ## Event ids -/

/-- The envelope of the row does not hash to its event. -/
def idFault (row : Row) : List String :=
  match row.envelope.preimage with
  | .ok pre => if cr.sha256 pre = row.event then [] else [hex row.event ++ " id mismatch"]
  | .error e => [hex row.event ++ " not encodable: " ++ e.text]

/-- The row does not come after the event before. -/
def orderFault (previous : Option Hash) (row : Row) : List String :=
  if previous.any fun p => row.event ≤ p then [hex row.event ++ " out of order"] else []

def faults : Option Hash → List Row → List String
  | _, [] => []
  | previous, row :: rows =>
    idFault cr row ++ orderFault previous row ++ faults (some row.event) rows

def eventIds (s : Snapshot) : Check × Bool :=
  if s.rows.isEmpty then (⟨"event_ids", .notChecked, "0 events: nothing to verify"⟩, true)
  else
    let bad := faults cr none s.rows
    (.expect "event_ids" bad.isEmpty
      (toString s.rows.length ++
        " envelopes re-encode to their canonical event ids, strictly ascending")
      (toString bad.length ++ " of " ++ toString s.rows.length ++ " rows: " ++
        String.intercalate "; " bad), bad.isEmpty)

/-! ## Signatures -/

/-- The signed envelopes by their ids, or which one is none. -/
def signedEnvelopes : Nat → BTreeMap Decoded → List String → Except String (BTreeMap Decoded)
  | _, decoded, [] => .ok decoded
  | i, decoded, h :: rest =>
    match hexDecode h.toList with
    | none => .error ("envelope " ++ toString i ++ " is not hex")
    | some bytes =>
      match V1.decode cr signed bytes with
      | .error e => .error ("envelope " ++ toString i ++ ": " ++ e.text)
      | .ok e => signedEnvelopes (i + 1) (decoded.insert e.id e) rest

/-- The export names the encoding, rule, corpus digest and commitment of the snapshot. -/
def Export.named (m : Export) (s : Snapshot) (fold : FoldRef) (filterVersion : Hash) : Bool :=
  m.encoding = V1.canonVersion ∧ m.rule.foldVersion = fold.version ∧
    m.rule.foldManifest = fold.manifest ∧ m.rule.filterVersion = filterVersion ∧
    hex32 s.corpusDigest = some m.corpusDigest ∧ hex32 s.commitment = some m.commitment

/-- The signed envelopes are the served rows, each once. -/
def sameRows (decoded : BTreeMap Decoded) (m : Export) (s : Snapshot) : Bool :=
  decoded.size = m.envelopes.length ∧ decoded.size = s.rows.length ∧
    ∀ row ∈ s.rows, decoded[row.event]?.map (fun e => e.envelope) = some row.envelope

/-- The check of the signatures, and how many have been verified. -/
def signatures (exported : Option (Option Value)) (s : Snapshot) (fold : FoldRef)
    (filterVersion : Hash) : Check × Nat :=
  match exported with
  | none => (⟨"signatures", .notChecked,
      "the public reads serve envelopes without signatures; supply an export manifest to check them"⟩,
      0)
  | some text =>
    match text.bind exportForm.get with
    | none =>
      (.failed "signatures" ("export is not an export manifest: " ++ w.serde "Export" text), 0)
    | some m =>
      if !m.named s fold filterVersion then
        (.failed "signatures"
          "export names a different encoding, rule, corpus digest or commitment than the snapshot",
          0)
      else
        match signedEnvelopes cr signed 0 ∅ m.envelopes with
        | .error detail => (.failed "signatures" detail, 0)
        | .ok decoded =>
          let same := sameRows decoded m s
          if same && decoded.isEmpty then
            (⟨"signatures", .notChecked, "0 signed envelopes: nothing to verify"⟩, decoded.size)
          else
            (.expect "signatures" same
              (toString decoded.size ++
                " signed envelopes decode canonically, verify under their author keys and are " ++
                "exactly the served rows")
              "the signed envelopes are not exactly the served rows",
              if same then decoded.size else 0)

/-! ## Reads -/

/-- Whether an asserted time, if there is one, is visible at `asOf`. -/
def visibilityAt (asOf : Option Hash) (current : Revision) : String :=
  match asOf, current.assertedTime with
  | none, _ => "visible"
  | some _, none => "asserted_time_unknown"
  | some q, some t => if t.coordinate > q then "after_as_of" else "visible"

/-- The current revision of a resolved subject. -/
def currentOf (s : Snapshot) (reading : Subject) : Option Revision := do
  let row ← s.rows.find? fun r => some r.event = reading.frontier.head?
  let id ← row.revision
  s.revisions.find? fun r => r.id = id

/-- The visibility a reading implies, with the revision that is visible. -/
def shown (s : Snapshot) (reading : Subject) (asOf : Option Hash) :
    Except String (String × Option Revision) :=
  if reading.state ≠ "resolved" then .ok (reading.state, none)
  else match currentOf s reading with
    | none => .error "the verified snapshot has no revision for its head"
    | some current =>
      let visibility := visibilityAt asOf current
      .ok (visibility, if visibility = "visible" then some current else none)

/-- The read compared with what the verified snapshot implies of its subject. -/
def implied (s : Snapshot) (read : SubjectRead) (id : Hash) (asOf : Option Hash) :
    Except String String :=
  match s.subjects.find? fun x => x.subject = id with
  | none =>
    if read.visibility = "subject_unknown" ∧ read.state = "" ∧ read.frontier = [] ∧
        read.revision = none then
      .ok (read.subject ++ " is unknown to the verified snapshot")
    else .error (read.subject ++ " is not in the verified snapshot")
  | some reading =>
    if read.state ≠ reading.state ∨ read.frontier ≠ reading.frontier.map hex then
      .error "state or frontier differs from the verified snapshot"
    else match shown s reading asOf with
      | .error e => .error e
      | .ok (visibility, revision) =>
        if read.visibility ≠ visibility ∨ read.revision ≠ revision then
          .error ("visibility " ++ read.visibility ++
            " and its revision differ from the verified snapshot's (" ++ visibility ++ ")")
        else .ok ("state " ++ read.state ++ ", frontier, visibility " ++ visibility ++
          " and revision recomputed from the verified snapshot")

/-- The subject read the verified snapshot implies, recomputed. -/
def subjectRead (text : Option Value) (s : Snapshot) : Except String String :=
  match text.bind subjectReadForm.get with
  | none => .error (w.serde "SubjectRead" text)
  | some read =>
    match hex32 read.subject, read.asOf.map hex32 with
    | none, _ => .error "subject is not hex"
    | some _, some none => .error "as_of is not hex"
    | some id, some (some q) => implied s read id (some q)
    | some id, none => implied s read id none

def proseRead (text : Option Value) (s : Snapshot) : Except String String :=
  match text.bind proseReadForm.get with
  | none => .error (w.serde "ProseRead" text)
  | some read =>
    if read.revision ∉ s.revisions then .error "revision is not in the verified snapshot"
    else match read.availability, read.prose with
      | "available", some p =>
        if cr.sha256 p.toUTF8.data.toList = read.revision.body then
          .ok "prose hashes to its revision's committed body"
        else .error "prose does not hash to its revision's body"
      | "available", none => .error "prose does not hash to its revision's body"
      | a, none => .ok ("no prose served (" ++ a ++ "); nothing to hash")
      | a, some _ => .error ("prose served with availability " ++ a)

/-- The read compared with the verified snapshot, by its kind. -/
def detailOf (read : Read) (s : Snapshot) : Except String String :=
  match read.kind with
  | "subject" => subjectRead w read.body s
  | "prose" => proseRead cr w read.body s
  | "support" => .ok ("names the verified commitment; the verdict itself is derived from the " ++
      "fold and not recomputed")
  | other => .error ("unknown read kind " ++ w.debug other)

/-- One read, compared with the snapshot it names. -/
def checkRead (read : Read) (s : Snapshot) (snapshotOk : Bool) : Check :=
  let name := "read:" ++ read.kind
  if !snapshotOk then .failed name "the snapshot did not verify"
  else match read.body.bind namedForm.get with
    | none => .failed name ("not a v1 read: " ++ w.serde "Named" read.body)
    | some named =>
      if named.rule ≠ s.rule ∨ named.corpusDigest ≠ s.corpusDigest ∨
          named.commitment ≠ s.commitment then
        .failed name "names a different rule, corpus or commitment"
      else
        match detailOf cr w read s with
        | .ok d => .passed name d
        | .error d => .failed name d

/-! ## Verification -/

/-- The checks of a snapshot that is read, and what they recompute. -/
def checkSnapshot (i : Input) (r : Recomputed) (fold : FoldRef) (filterVersion : Hash)
    (served : Value) (s : Snapshot) : List Check × Recomputed :=
  let counts := Check.passed "snapshot" (toString s.rows.length ++ " rows, " ++
    toString s.subjects.length ++ " subjects, " ++ toString s.revisions.length ++ " revisions, " ++
    toString s.edges.length ++ " edges, " ++ toString s.media.length ++ " media")
  let rule := Check.expect "snapshot_rule"
    (s.rule.foldVersion = fold.version ∧ hex32 s.rule.foldManifest = some fold.manifest ∧
      hex32 s.rule.filterVersion = some filterVersion)
    "snapshot names the recomputed fold_version and filter_version"
    ("snapshot names (" ++ toString s.rule.foldVersion.toNat ++ ", " ++ s.rule.foldManifest ++
      ", " ++ s.rule.filterVersion ++ "), not the recomputed identity")
  let canonical := Check.expect "canonical_form" (agrees (snapshotForm.put s) served)
    "the served snapshot equals its canonical re-encoding as JSON values"
    "the served snapshot carries values outside its canonical encoding"
  let ids : BTreeSet := .ofList (s.rows.map Row.event)
  let (eventCheck, idsOk) := eventIds cr s
  let corpus := V1.corpusDigest cr ids.toList
  let corpusOk : Bool := idsOk ∧ hex32 s.corpusDigest = some corpus
  let corpusCheck := Check.expect "corpus_digest" corpusOk
    ("recomputed " ++ hex corpus ++ " over " ++ toString ids.size ++ " events")
    (if idsOk then "served " ++ s.corpusDigest ++ " but the served rows give " ++ hex corpus
      else "event ids did not verify")
  let bytes := (CanonicalRows.of s).bytes
  let commitment := V1.viewCommitment cr fold filterVersion corpus bytes
  let commitmentOk : Bool := corpusOk ∧ hex32 s.commitment = some commitment
  let commitmentCheck := Check.expect "view_commitment" commitmentOk
    ("recomputed " ++ hex commitment ++ " over " ++ toString bytes.length ++
      " bytes of canonical rows")
    (if corpusOk then "served " ++ s.commitment ++ " but the served rows give " ++ hex commitment
      else "corpus digest did not verify")
  let (signatureCheck, count) := signatures cr signed w i.exported s fold filterVersion
  ([counts, rule, canonical, eventCheck, corpusCheck, commitmentCheck, signatureCheck] ++
    i.reads.map fun read => checkRead cr w read s commitmentOk,
    { r with
      events := s.rows.length
      corpusDigest := if idsOk then some (hex corpus) else none
      commitment := if corpusOk then some (hex commitment) else none
      signatures := count })

def run (i : Input) (r : Recomputed) : List Check × Recomputed :=
  match identity cr w i.health with
  | (checks, none) => (checks, r)
  | (checks, some (fold, filterVersion)) =>
    let r := { r with filterVersion := some (hex filterVersion) }
    match i.snapshot with
    | none => (checks ++ [.failed "snapshot" ("snapshot is not JSON: " ++ w.serde "Value" none)], r)
    | some served =>
      match snapshotForm.get served with
      | none => (checks ++ [.failed "snapshot"
          ("snapshot is not a v1 snapshot: " ++ w.serde "Snapshot" (some served))], r)
      | some s =>
        let (more, r) := checkSnapshot cr signed w i r fold filterVersion served s
        (checks ++ more, r)

/-- What is recomputed before anything is read. -/
def initial : Recomputed where
  foldManifest := hex (V1.foldV1 cr).manifest
  ontology := hex V1.ttTaxonomy
  filterVersion := none
  corpusDigest := none
  commitment := none
  events := 0
  signatures := 0

/-- Verify a snapshot and everything served alongside it. -/
def verify (i : Input) : Report :=
  let (checks, recomputed) := run cr signed w i (initial cr)
  ⟨outcomeOf checks, checks, recomputed, notRecomputed⟩

end

end Clockchain.Verifier
