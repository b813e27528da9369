import Clockchain.JsonText
import Clockchain.V1.RowForms

/-!
# Served rows

`cc-wasm-verify/src/rows.rs`: a served snapshot document and the canonical projection rows it
commits to. States, reasons and kinds stay texts, and every collection keeps its served order.
-/

namespace Clockchain.Verifier
open Json Json.Members
open V1 (AssertedTime BTreeMap Envelope Hash Pins)
open V1.ViewRows (assertedTime assertedTime_faithful envelope envelope_faithful hash hash_faithful
  hashes hashes_faithful optionHash_faithful pins pins_faithful)
set_option autoImplicit false

def rowsSchema : String := "cc.view-rows.json.v1"

/-! ## Readings -/

/-- One candidate's reading. -/
structure Row where
  event : Hash
  envelope : Envelope
  state : String
  reason : String
  missing : List Hash
  frontier : Bool
  revision : Option Hash
  controllingRevokes : List Hash

structure Revision where
  id : Hash
  subject : Hash
  creatingEvent : Hash
  body : Hash
  assertedTime : Option AssertedTime
  deriving DecidableEq

structure Subject where
  subject : Hash
  frontier : List Hash
  state : String
  frozen : Bool

structure Grant where
  issuedByEvent : Hash
  issuer : Option Hash
  holder : Hash
  subject : Hash

structure Effect where
  reason : String
  controllingRevokes : List Hash

structure Edge where
  edge : Hash
  author : Hash
  relation : String
  evidence : List Hash
  heads : List Hash
  pins : List Pins
  history : List Hash
  status : String
  reasons : List String

structure Media where
  attestation : Hash
  author : Hash
  targetKind : String
  target : Hash
  revision : Option Hash
  body : Option Hash
  artifactKind : String
  artifact : Hash

/-- The `authority` object of a served snapshot. -/
structure Authority where
  grants : List (Hash × Grant)
  active : List Hash
  tombstones : List Hash
  effectiveRevokes : List Hash
  canceled : List Hash
  effects : List (Hash × Effect)

/-- The rule identity a read names, its hashes in hex. -/
structure RuleJson where
  foldVersion : BitVec 16
  foldManifest : String
  filterVersion : String
  deriving DecidableEq

/-- A served snapshot document, exactly the fields the node emits. -/
structure Snapshot where
  rule : RuleJson
  corpusDigest : String
  commitment : String
  rows : List Row
  subjects : List Subject
  revisions : List Revision
  edges : List Edge
  media : List Media
  authority : Authority

/-- The canonical rows document, in the field order of the commitment. -/
structure CanonicalRows where
  schema : String
  rows : List Row
  revisions : List Revision
  subjects : List Subject
  grants : List (Hash × Grant)
  active : List Hash
  tombstones : List Hash
  effectiveRevokes : List Hash
  canceled : List Hash
  effects : List (Hash × Effect)
  edges : List Edge
  media : List Media

/-! ## Forms -/

def rowForm : Form Row :=
  ((field "event" hash).pair ((field "envelope" envelope).pair ((field "state" .text).pair
      ((field "reason" .text).pair ((field "missing" hashes).pair ((field "frontier" .flag).pair
        ((optional "revision" hash).pair (field "controlling_revokes" hashes)))))))).record
    (fun (event, envelope, state, reason, missing, frontier, revision, controllingRevokes) =>
      Row.mk event envelope state reason missing frontier revision controllingRevokes)
    (fun r => (r.event, r.envelope, r.state, r.reason, r.missing, r.frontier, r.revision,
      r.controllingRevokes)) |>.strict

def revisionForm : Form Revision :=
  ((field "id" hash).pair ((field "subject" hash).pair ((field "creating_event" hash).pair
      ((field "body" hash).pair (optional "asserted_time" assertedTime))))).record
    (fun (id, subject, creatingEvent, body, assertedTime) =>
      Revision.mk id subject creatingEvent body assertedTime)
    (fun r => (r.id, r.subject, r.creatingEvent, r.body, r.assertedTime)) |>.strict

def subjectForm : Form Subject :=
  ((field "subject" hash).pair ((field "frontier" hashes).pair ((field "state" .text).pair
      (field "frozen" .flag)))).record
    (fun (subject, frontier, state, frozen) => Subject.mk subject frontier state frozen)
    (fun s => (s.subject, s.frontier, s.state, s.frozen)) |>.strict

def grantForm : Form Grant :=
  ((field "issued_by_event" hash).pair ((optional "issuer" hash).pair ((field "holder" hash).pair
      (field "subject" hash)))).record
    (fun (issuedByEvent, issuer, holder, subject) => Grant.mk issuedByEvent issuer holder subject)
    (fun g => (g.issuedByEvent, g.issuer, g.holder, g.subject)) |>.strict

def effectForm : Form Effect :=
  ((field "reason" .text).pair (field "controlling_revokes" hashes)).record
    (fun (reason, controllingRevokes) => Effect.mk reason controllingRevokes)
    (fun e => (e.reason, e.controllingRevokes)) |>.strict

def edgeForm : Form Edge :=
  ((field "edge" hash).pair ((field "author" hash).pair ((field "relation" .text).pair
      ((field "evidence" hashes).pair ((field "heads" hashes).pair ((field "pins" (.list pins)).pair
        ((field "history" hashes).pair ((field "status" .text).pair
          (field "reasons" (.list .text)))))))))).record
    (fun (edge, author, relation, evidence, heads, pins, history, status, reasons) =>
      Edge.mk edge author relation evidence heads pins history status reasons)
    (fun e => (e.edge, e.author, e.relation, e.evidence, e.heads, e.pins, e.history, e.status,
      e.reasons)) |>.strict

def mediaForm : Form Media :=
  ((field "attestation" hash).pair ((field "author" hash).pair ((field "target_kind" .text).pair
      ((field "target" hash).pair ((optional "revision" hash).pair ((optional "body" hash).pair
        ((field "artifact_kind" .text).pair (field "artifact" hash)))))))).record
    (fun (attestation, author, targetKind, target, revision, body, artifactKind, artifact) =>
      Media.mk attestation author targetKind target revision body artifactKind artifact)
    (fun m => (m.attestation, m.author, m.targetKind, m.target, m.revision, m.body, m.artifactKind,
      m.artifact)) |>.strict

def authorityForm : Form Authority :=
  ((field "grants" (.list (.pair hash grantForm))).pair ((field "active" hashes).pair
      ((field "tombstones" hashes).pair ((field "effective_revokes" hashes).pair
        ((field "canceled" hashes).pair
          (field "effects" (.list (.pair hash effectForm)))))))).record
    (fun (grants, active, tombstones, effectiveRevokes, canceled, effects) =>
      Authority.mk grants active tombstones effectiveRevokes canceled effects)
    (fun a => (a.grants, a.active, a.tombstones, a.effectiveRevokes, a.canceled, a.effects))
    |>.strict

def ruleForm : Form RuleJson :=
  ((field "fold_version" (.number 16)).pair ((field "fold_manifest" .text).pair
      (field "filter_version" .text))).record
    (fun (foldVersion, foldManifest, filterVersion) =>
      RuleJson.mk foldVersion foldManifest filterVersion)
    (fun r => (r.foldVersion, r.foldManifest, r.filterVersion)) |>.strict

def snapshotForm : Form Snapshot :=
  ((field "rule" ruleForm).pair ((field "corpus_digest" .text).pair ((field "commitment" .text).pair
      ((field "rows" (.list rowForm)).pair ((field "subjects" (.list subjectForm)).pair
        ((field "revisions" (.list revisionForm)).pair ((field "edges" (.list edgeForm)).pair
          ((field "media" (.list mediaForm)).pair (field "authority" authorityForm))))))))).record
    (fun (rule, corpusDigest, commitment, rows, subjects, revisions, edges, media, authority) =>
      Snapshot.mk rule corpusDigest commitment rows subjects revisions edges media authority)
    (fun s => (s.rule, s.corpusDigest, s.commitment, s.rows, s.subjects, s.revisions, s.edges,
      s.media, s.authority)) |>.strict

def canonicalForm : Form CanonicalRows :=
  ((field "schema" .text).pair ((field "rows" (.list rowForm)).pair
      ((field "revisions" (.list revisionForm)).pair ((field "subjects" (.list subjectForm)).pair
        ((field "grants" (.list (.pair hash grantForm))).pair ((field "active" hashes).pair
          ((field "tombstones" hashes).pair ((field "effective_revokes" hashes).pair
            ((field "canceled" hashes).pair ((field "effects" (.list (.pair hash effectForm))).pair
              ((field "edges" (.list edgeForm)).pair
                (field "media" (.list mediaForm))))))))))))).record
    (fun (schema, rows, revisions, subjects, grants, active, tombstones, effectiveRevokes, canceled,
        effects, edges, media) =>
      CanonicalRows.mk schema rows revisions subjects grants active tombstones effectiveRevokes
        canceled effects edges media)
    (fun c => (c.schema, c.rows, c.revisions, c.subjects, c.grants, c.active, c.tombstones,
      c.effectiveRevokes, c.canceled, c.effects, c.edges, c.media)) |>.strict

/-- A served snapshot rearranged into the committed document. -/
def CanonicalRows.of (s : Snapshot) : CanonicalRows where
  schema := rowsSchema
  rows := s.rows
  revisions := s.revisions
  subjects := s.subjects
  grants := s.authority.grants
  active := s.authority.active
  tombstones := s.authority.tombstones
  effectiveRevokes := s.authority.effectiveRevokes
  canceled := s.authority.canceled
  effects := s.authority.effects
  edges := s.edges
  media := s.media

/-- The exact bytes the view commitment hashes. -/
def CanonicalRows.bytes (c : CanonicalRows) : Codec.Bytes := Json.bytes (canonicalForm.put c)

/-! ## What the forms read -/

theorem rowForm_faithful : rowForm.Faithful :=
  (((field_faithful _ hash_faithful).pair ((field_faithful _ envelope_faithful).pair
    ((field_faithful _ Form.text_faithful).pair ((field_faithful _ Form.text_faithful).pair
      ((field_faithful _ hashes_faithful).pair ((field_faithful _ Form.flag_faithful).pair
        ((optional_faithful _ optionHash_faithful).pair
          (field_faithful _ hashes_faithful)))))))).record fun _ => rfl).strict (by decide)

theorem revisionForm_faithful : revisionForm.Faithful :=
  (((field_faithful _ hash_faithful).pair ((field_faithful _ hash_faithful).pair
    ((field_faithful _ hash_faithful).pair ((field_faithful _ hash_faithful).pair
      (optional_faithful _ (assertedTime_faithful.option (lenient_solid _))))))).record
        fun _ => rfl).strict (by decide)

theorem subjectForm_faithful : subjectForm.Faithful :=
  (((field_faithful _ hash_faithful).pair ((field_faithful _ hashes_faithful).pair
    ((field_faithful _ Form.text_faithful).pair (field_faithful _ Form.flag_faithful)))).record
      fun _ => rfl).strict (by decide)

theorem grantForm_faithful : grantForm.Faithful :=
  (((field_faithful _ hash_faithful).pair ((optional_faithful _ optionHash_faithful).pair
    ((field_faithful _ hash_faithful).pair (field_faithful _ hash_faithful)))).record
      fun _ => rfl).strict (by decide)

theorem effectForm_faithful : effectForm.Faithful :=
  (((field_faithful _ Form.text_faithful).pair (field_faithful _ hashes_faithful)).record
    fun _ => rfl).strict (by decide)

theorem edgeForm_faithful : edgeForm.Faithful :=
  (((field_faithful _ hash_faithful).pair ((field_faithful _ hash_faithful).pair
    ((field_faithful _ Form.text_faithful).pair ((field_faithful _ hashes_faithful).pair
      ((field_faithful _ hashes_faithful).pair ((field_faithful _ pins_faithful.list).pair
        ((field_faithful _ hashes_faithful).pair ((field_faithful _ Form.text_faithful).pair
          (field_faithful _ Form.text_faithful.list))))))))).record fun _ => rfl).strict (by decide)

theorem mediaForm_faithful : mediaForm.Faithful :=
  (((field_faithful _ hash_faithful).pair ((field_faithful _ hash_faithful).pair
    ((field_faithful _ Form.text_faithful).pair ((field_faithful _ hash_faithful).pair
      ((optional_faithful _ optionHash_faithful).pair
        ((optional_faithful _ optionHash_faithful).pair ((field_faithful _ Form.text_faithful).pair
          (field_faithful _ hash_faithful)))))))).record fun _ => rfl).strict (by decide)

theorem grants_faithful : (Form.list (.pair hash grantForm)).Faithful :=
  (hash_faithful.pair grantForm_faithful).list

theorem effects_faithful : (Form.list (.pair hash effectForm)).Faithful :=
  (hash_faithful.pair effectForm_faithful).list

theorem authorityForm_faithful : authorityForm.Faithful :=
  (((field_faithful _ grants_faithful).pair ((field_faithful _ hashes_faithful).pair
    ((field_faithful _ hashes_faithful).pair ((field_faithful _ hashes_faithful).pair
      ((field_faithful _ hashes_faithful).pair (field_faithful _ effects_faithful)))))).record
        fun _ => rfl).strict (by decide)

theorem ruleForm_faithful : ruleForm.Faithful :=
  (((field_faithful _ (Form.number_faithful 16)).pair ((field_faithful _ Form.text_faithful).pair
    (field_faithful _ Form.text_faithful))).record fun _ => rfl).strict (by decide)

/-- A served snapshot is read as it was written. -/
theorem snapshotForm_faithful : snapshotForm.Faithful :=
  (((field_faithful _ ruleForm_faithful).pair ((field_faithful _ Form.text_faithful).pair
    ((field_faithful _ Form.text_faithful).pair ((field_faithful _ rowForm_faithful.list).pair
      ((field_faithful _ subjectForm_faithful.list).pair
        ((field_faithful _ revisionForm_faithful.list).pair
          ((field_faithful _ edgeForm_faithful.list).pair
            ((field_faithful _ mediaForm_faithful.list).pair
              (field_faithful _ authorityForm_faithful))))))))).record
                fun _ => rfl).strict (by decide)

theorem canonicalForm_faithful : canonicalForm.Faithful :=
  (((field_faithful _ Form.text_faithful).pair ((field_faithful _ rowForm_faithful.list).pair
    ((field_faithful _ revisionForm_faithful.list).pair
      ((field_faithful _ subjectForm_faithful.list).pair ((field_faithful _ grants_faithful).pair
        ((field_faithful _ hashes_faithful).pair ((field_faithful _ hashes_faithful).pair
          ((field_faithful _ hashes_faithful).pair ((field_faithful _ hashes_faithful).pair
            ((field_faithful _ effects_faithful).pair
              ((field_faithful _ edgeForm_faithful.list).pair
                (field_faithful _ mediaForm_faithful.list)))))))))))).record
                  fun _ => rfl).strict (by decide)

/-- Canonical rows are known by their bytes. -/
theorem CanonicalRows.bytes_injective : Function.Injective CanonicalRows.bytes := by
  intro c c' h
  exact canonicalForm_faithful.injective (Json.bytes_injective h)

end Clockchain.Verifier
