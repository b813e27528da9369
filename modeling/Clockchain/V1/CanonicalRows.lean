import Clockchain.Json
import Clockchain.V1.Projection

/-!
# Canonical rows

The derived JSON forms of `cc-core/src/v1.rs`, the serializers of the readings, and
`canonical_rows` of `rule.rs`.
-/

namespace Clockchain.V1.ViewRows
open Json Json.Members
set_option autoImplicit false

/-! ## The envelope -/

/-- `[u8; 32]`: an array of its bytes. -/
def hash : Form Hash where
  put h := .arr ((Codec.beBytes 32 h.toNat).map fun b => .num b.toNat)
  get
    | .arr items => do
      let bytes ← items.mapM (Form.number 8).get
      if bytes.length = 32 then
        some (BitVec.ofNat 256 (Codec.beNat (bytes.map fun b => .ofBitVec b)))
      else none
    | _ => none

/-- `Set<Hash>`, `BTreeSet<Hash>` and `Vec<Hash>` alike. -/
def hashes : Form (List Hash) := .list hash

def subjectKey : Form SubjectKey :=
  ((field "kind" .text).pair ((field "namespace" .text).pair (field "value" .text))).record
    (fun (kind, nameSpace, value) => ⟨kind, nameSpace, value⟩)
    (fun k => (k.kind, k.nameSpace, k.value)) |>.lenient

def assertedTime : Form AssertedTime :=
  ((field "coordinate" hash).pair (field "precision" .text)).record
    (fun (coordinate, precision) => ⟨coordinate, precision⟩)
    (fun t => (t.coordinate, t.precision)) |>.lenient

def pin : Form Pin :=
  ((field "subject" hash).pair ((field "basis" hash).pair
      ((field "revision" hash).pair (field "body" hash)))).record
    (fun (subject, basis, revision, body) => ⟨subject, basis, revision, body⟩)
    (fun p => (p.subject, p.basis, p.revision, p.body)) |>.lenient

def pins : Form Pins :=
  ((field "source" pin).pair (field "target" pin)).record
    (fun (source, target) => ⟨source, target⟩) (fun p => (p.source, p.target)) |>.lenient

def parentPins : Form ParentPins :=
  ((field "parent" hash).pair (field "pins" pins)).record
    (fun (parent, pins) => ⟨parent, pins⟩) (fun p => (p.parent, p.pins)) |>.lenient

def kind : Form Kind := .tags
  [("Genesis", .genesis), ("Correction", .correction), ("Delegate", .delegate),
    ("Revoke", .revoke), ("Resolve", .resolve), ("EdgeAssert", .edgeAssert),
    ("EdgeReaffirm", .edgeReaffirm), ("Attestation", .attestation)]

def dispositionKind : Form DispositionKind := .tags
  [("Selected", .selected), ("Merged", .merged), ("NotSelected", .notSelected)]

def targetKind : Form TargetKind := .tags [("Event", .event), ("Revision", .revision)]

def disposition : Form Disposition :=
  ((field "parent" hash).pair ((field "action" dispositionKind).pair
      (field "rationale" .text))).record
    (fun (parent, action, rationale) => ⟨parent, action, rationale⟩)
    (fun d => (d.parent, d.action, d.rationale)) |>.lenient

def grantFields : Form (Hash × Hash) := ((field "issuer" hash).pair (field "grantee" hash)).lenient

def revokedGrantFields : Form (Hash × Bool) :=
  ((field "grant" hash).pair (field "cascade" .flag)).lenient

def value : Form V1.Value where
  put
    | .none => .str "None"
    | .body body => .obj [("Body", hash.put body)]
    | .grant issuer grantee => .obj [("Grant", grantFields.put (issuer, grantee))]
    | .activeGrant grant => .obj [("ActiveGrant", hash.put grant)]
    | .revokedGrant grant cascade =>
      .obj [("RevokedGrant", revokedGrantFields.put (grant, cascade))]
    | .heads heads => .obj [("Heads", hashes.put heads)]
    | .revision revision => .obj [("Revision", hash.put revision)]
    | .pins p => .obj [("Pins", pins.put p)]
    | .parentPins ps => .obj [("ParentPins", (Form.list parentPins).put ps)]
  get := Form.variant [("None", .none)] [
    ("Body", fun v => .body <$> hash.get v),
    ("Grant", fun v => (fun (issuer, grantee) => .grant issuer grantee) <$> grantFields.get v),
    ("ActiveGrant", fun v => .activeGrant <$> hash.get v),
    ("RevokedGrant", fun v =>
      (fun (grant, cascade) => .revokedGrant grant cascade) <$> revokedGrantFields.get v),
    ("Heads", fun v => .heads <$> hashes.get v),
    ("Revision", fun v => .revision <$> hash.get v),
    ("Pins", fun v => .pins <$> pins.get v),
    ("ParentPins", fun v => .parentPins <$> (Form.list parentPins).get v)]

def decision : Form Decision :=
  ((field "kind" kind).pair ((field "rationale" .text).pair ((field "evidence" hashes).pair
      ((field "parents" hashes).pair ((field "old" value).pair (field "new" value)))))).record
    (fun (kind, rationale, evidence, parents, old, new) =>
      ⟨kind, rationale, evidence, parents, old, new⟩)
    (fun d => (d.kind, d.rationale, d.evidence, d.parents, d.old, d.new)) |>.lenient

def selection : Form Selection where
  put
    | .revision revision => .obj [("Revision", hash.put revision)]
    | .mergedBody body => .obj [("MergedBody", hash.put body)]
  get := Form.variant [] [
    ("Revision", fun v => .revision <$> hash.get v),
    ("MergedBody", fun v => .mergedBody <$> hash.get v)]

/-! The fields of each payload. -/

def genesisFields : Form (Hash × Hash × List Hash) :=
  ((field "nonce" hash).pair ((field "body" hash).pair (field "evidence" hashes))).lenient

def correctionFields : Form (Hash × Decision) :=
  ((field "body" hash).pair (field "decision" decision)).lenient

def delegateFields : Form (Hash × Hash × Decision) :=
  ((field "grantee" hash).pair ((field "issuer" hash).pair (field "decision" decision))).lenient

def revokeFields : Form (Hash × Bool × Decision) :=
  ((field "target" hash).pair ((field "cascade" .flag).pair (field "decision" decision))).lenient

def resolveFields : Form (Selection × List Disposition × Decision) :=
  ((field "selection" selection).pair ((field "dispositions" (.list disposition)).pair
    (field "decision" decision))).lenient

def edgeAssertFields : Form (String × Pins × Decision) :=
  ((field "relation" .text).pair ((field "pins" pins).pair (field "decision" decision))).lenient

def edgeReaffirmFields : Form (Hash × List ParentPins × Pins × Decision) :=
  ((field "edge" hash).pair ((field "old" (.list parentPins)).pair ((field "new" pins).pair
    (field "decision" decision)))).lenient

def attestationFields : Form (TargetKind × Hash × String × Hash) :=
  ((field "target_kind" targetKind).pair ((field "target" hash).pair
    ((field "artifact_kind" .text).pair (field "artifact" hash)))).lenient

def payload : Form Payload where
  put
    | .genesis nonce body evidence => .obj [("Genesis", genesisFields.put (nonce, body, evidence))]
    | .correction body decision => .obj [("Correction", correctionFields.put (body, decision))]
    | .delegate grantee issuer decision =>
      .obj [("Delegate", delegateFields.put (grantee, issuer, decision))]
    | .revoke target cascade decision =>
      .obj [("Revoke", revokeFields.put (target, cascade, decision))]
    | .resolve selection dispositions decision =>
      .obj [("Resolve", resolveFields.put (selection, dispositions, decision))]
    | .edgeAssert relation pins decision =>
      .obj [("EdgeAssert", edgeAssertFields.put (relation, pins, decision))]
    | .edgeReaffirm edge old new decision =>
      .obj [("EdgeReaffirm", edgeReaffirmFields.put (edge, old, new, decision))]
    | .attestation targetKind target artifactKind artifact =>
      .obj [("Attestation", attestationFields.put (targetKind, target, artifactKind, artifact))]
  get := Form.variant [] [
    ("Genesis", fun v => (fun (nonce, body, evidence) => .genesis nonce body evidence)
      <$> genesisFields.get v),
    ("Correction", fun v => (fun (body, decision) => .correction body decision)
      <$> correctionFields.get v),
    ("Delegate", fun v => (fun (grantee, issuer, decision) => .delegate grantee issuer decision)
      <$> delegateFields.get v),
    ("Revoke", fun v => (fun (target, cascade, decision) => .revoke target cascade decision)
      <$> revokeFields.get v),
    ("Resolve", fun v =>
      (fun (selection, dispositions, decision) => .resolve selection dispositions decision)
      <$> resolveFields.get v),
    ("EdgeAssert", fun v => (fun (relation, pins, decision) => .edgeAssert relation pins decision)
      <$> edgeAssertFields.get v),
    ("EdgeReaffirm", fun v =>
      (fun (edge, old, new, decision) => .edgeReaffirm edge old new decision)
      <$> edgeReaffirmFields.get v),
    ("Attestation", fun v => (fun (targetKind, target, artifactKind, artifact) =>
      .attestation targetKind target artifactKind artifact) <$> attestationFields.get v)]

def envelope : Form Envelope :=
  ((field "instance" hash).pair ((field "author" hash).pair ((optional "subject" hash).pair
      ((optional "subject_key" subjectKey).pair ((optional "grant" hash).pair
        ((field "parents" hashes).pair ((optional "asserted_time" assertedTime).pair
          (field "payload" payload)))))))).record
    (fun (instanceId, author, subject, subjectKey, grant, parents, assertedTime, payload) =>
      ⟨instanceId, author, subject, subjectKey, grant, parents, assertedTime, payload⟩)
    (fun e => (e.instanceId, e.author, e.subject, e.subjectKey, e.grant, e.parents,
      e.assertedTime, e.payload)) |>.lenient

/-! ## The readings -/

def ids (refs : BTreeSet) : Json.Value := hashes.put refs.toList

def rowState : ProjectionState → String
  | .head => "head"
  | .superseded => "superseded"
  | .branch => "branch"
  | .pending => "pending"
  | .invalid => "invalid"

def eventReading (r : EventReading) : Json.Value := .obj [
  ("event", hash.put r.event),
  ("envelope", envelope.put r.envelope),
  ("state", .str (rowState r.state)),
  ("reason", .str r.reason.text),
  ("missing", hashes.put r.missing),
  ("frontier", .bool r.frontier),
  ("revision", hash.option.put r.revision),
  ("controlling_revokes", ids r.controllingRevokes)]

def revision (r : Revision) : Json.Value := .obj [
  ("id", hash.put r.id),
  ("subject", hash.put r.subject),
  ("creating_event", hash.put r.creatingEvent),
  ("body", hash.put r.body),
  ("asserted_time", assertedTime.option.put r.assertedTime)]

def subjectReading (r : SubjectReading) : Json.Value := .obj [
  ("subject", hash.put r.subject),
  ("frontier", ids r.frontier),
  ("state", .str r.state.text),
  ("frozen", .bool r.frozen)]

def grant (g : Grant) : Json.Value := .obj [
  ("issued_by_event", hash.put g.issuedByEvent),
  ("issuer", hash.option.put g.issuer),
  ("holder", hash.put g.holder),
  ("subject", hash.put g.subject)]

def effect (e : Effect) : Json.Value := .obj [
  ("reason", .str e.reason.text),
  ("controlling_revokes", ids e.controllingRevokes)]

def edgeReading (r : EdgeReading) : Json.Value := .obj [
  ("edge", hash.put r.edge),
  ("author", hash.put r.author),
  ("relation", .str r.relation),
  ("evidence", hashes.put r.evidence),
  ("heads", ids r.heads),
  ("pins", (Form.list pins).put r.pins),
  ("history", ids r.history),
  ("status", .str r.status.text),
  ("reasons", .arr (r.reasons.map fun reason => .str reason.text))]

def mediaReading (r : MediaReading) : Json.Value := .obj [
  ("attestation", hash.put r.attestation),
  ("author", hash.put r.author),
  ("target_kind", targetKind.put r.targetKind),
  ("target", hash.put r.target),
  ("revision", hash.option.put r.revision),
  ("body", hash.option.put r.body),
  ("artifact_kind", .str r.artifactKind),
  ("artifact", hash.put r.artifact)]

/-- `(&Hash, &T)` pairs in id order. -/
def entries {α : Type} (f : α → Json.Value) (m : BTreeMap α) : Json.Value :=
  .arr (m.toList.map fun entry => .arr [hash.put entry.1, f entry.2])

def schema : String := "cc.view-rows.json.v1"

/-- The document of `canonical_rows`, its members in declaration order. -/
def document (p : Projection) : Json.Value := .obj [
  ("schema", .str schema),
  ("rows", .arr (p.rows.map eventReading)),
  ("revisions", .arr (p.revisions.map revision)),
  ("subjects", .arr (p.subjects.map subjectReading)),
  ("grants", entries grant p.authority.grants),
  ("active", ids p.authority.active),
  ("tombstones", ids p.authority.tombstones),
  ("effective_revokes", ids p.authority.effectiveRevokes),
  ("canceled", ids p.authority.canceled),
  ("effects", entries effect p.authority.effects),
  ("edges", .arr (p.edges.map edgeReading)),
  ("media", .arr (p.media.map mediaReading))]

end Clockchain.V1.ViewRows

namespace Clockchain.V1
set_option autoImplicit false

/-- Every status, reason, frontier, revision, authority, decision, edge and media reading.
Receipts and body availability are not part of the projection. -/
def canonicalRows (p : Projection) : Codec.Bytes := Json.bytes (ViewRows.document p)

end Clockchain.V1
