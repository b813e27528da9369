import Clockchain.Public.Hex

/-!
# Decoding what the node serves

What a client makes of each document the node serves: the fields the node has computed, with its
hashes as hex.
-/

namespace Clockchain.Public
open Json (Value)
open V1 (Hash Crypto FoldRef RuleId SignedReceipt Support SupportReason)
open V1.Publisher (hex)
set_option autoImplicit false

/-! ## The answers in the terms of the node -/

def Rule.of (r : RuleId) : Rule := ⟨r.foldVersion.toNat, hex r.foldManifest, hex r.filterVersion⟩

def FoldVersion.of (f : FoldRef) : FoldVersion := ⟨f.version.toNat, hex f.manifest⟩

def AssertedTime.of (t : V1.AssertedTime) : AssertedTime := ⟨hex t.coordinate, t.precision⟩

def Revision.of (r : V1.Revision) : Revision :=
  ⟨hex r.id, hex r.subject, hex r.creatingEvent, hex r.body, r.assertedTime.map AssertedTime.of⟩

def Reason.of (r : SupportReason) : Reason := ⟨r.code.text, r.subject.map hex, r.edge.map hex⟩

def Health.of (cr : Crypto) (n : Node) : Health where
  ledger := "v1"
  build := some n.build
  posture := n.posture.text
  foldVersion := .of n.filter.fold
  filterVersion := hex (n.filter.version cr)
  curators := n.filter.curators.map hex
  maxHops := n.filter.maxHops.toNat
  semantic := n.semantic.text

/-- The rows, subjects, edges, media and authority are kept in the node's own form. -/
def Snapshot.of (s : V1.Snapshot) : Snapshot where
  rule := .of s.rule
  corpusDigest := hex s.corpusDigest
  commitment := hex s.commitment
  rows := s.projection.rows.map V1.ViewRows.eventReading
  subjects := s.projection.subjects.map V1.ViewRows.subjectReading
  revisions := s.projection.revisions.map .of
  edges := s.projection.edges.map V1.ViewRows.edgeReading
  media := s.projection.media.map V1.ViewRows.mediaReading
  authority := authorityJson s.projection.authority

def SubjectRead.of (s : V1.Snapshot) (r : EntityRead) : SubjectRead where
  rule := .of s.rule
  corpusDigest := hex s.corpusDigest
  commitment := hex s.commitment
  asOf := r.asOf.map hex
  subject := hex r.subject
  state := r.state
  frontier := r.frontier.map hex
  revision := r.revision.map .of
  visibility := r.visibility.text

def Prose.of (s : V1.Snapshot) (r : V1.Revision) (a : Availability) : Prose where
  rule := .of s.rule
  corpusDigest := hex s.corpusDigest
  commitment := hex s.commitment
  revision := .of r
  availability := a.text
  prose := a.prose

def supportPath : Support → List Hash
  | .supported path _ => path
  | .unsupported _ => []

def supportReasons : Support → List SupportReason
  | .supported _ excluded => excluded
  | .unsupported reasons => reasons

def isSupported : Support → Bool
  | .supported .. => true
  | .unsupported _ => false

def SupportRead.of (s : V1.Snapshot) (source target : Hash) (asOf : Option Hash) (v : Support) :
    SupportRead where
  rule := .of s.rule
  corpusDigest := hex s.corpusDigest
  commitment := hex s.commitment
  asOf := asOf.map hex
  source := hex source
  target := hex target
  supported := isSupported v
  path := (supportPath v).map hex
  reasons := (supportReasons v).map .of

def NodeReceipt.of (cr : Crypto) (r : SignedReceipt) : NodeReceipt where
  receipt := hexBytes r.bytes
  receiptDigest := hex (cr.sha256 r.bytes)
  nodeKey := hex r.receipt.nodeKey
  event := hex r.receipt.event
  receivedAt := r.receipt.receivedAt.toNat
  encodingVersion := r.receipt.encodingVersion.toNat
  foldVersion := .of r.receipt.foldVersion
  initialAdmissionResult := {
    state := admissionText r.receipt.initialAdmissionResult.state
    reason := r.receipt.initialAdmissionResult.reason
    missing := r.receipt.initialAdmissionResult.missing.map hex }

def Receipts.of (cr : Crypto) (event : Hash) (found : List SignedReceipt) : Receipts :=
  ⟨hex event, found.map (.of cr)⟩

/-! ## Fields -/

/-- The client takes every number below `2 ^ 53` for an integer. -/
def Dialect.Exact (d : Dialect) : Prop := ∀ n < 2 ^ 53, d.integer n = true

theorem python_exact : python.Exact := fun _ _ => rfl

theorem typescript_exact : typescript.Exact := fun _ hn => decide_eq_true (Nat.le_pred_of_lt hn)

theorem decodes_list {α β : Type} {xs : List α} {write : α → Value} {read : Value → Decoded β}
    {view : α → β} (h : ∀ x ∈ xs, read (write x) = .ok (view x)) :
    (xs.map write).mapM read = .ok (xs.map view) := by
  induction xs with
  | nil => rfl
  | cons x xs ih =>
    rw [List.map_cons, List.mapM_cons, h x List.mem_cons_self,
      ih fun y hy => h y (List.mem_cons_of_mem x hy)]
    rfl

section
variable {members : List (String × Value)} {key : String}

@[simp] theorem field_obj : field (.obj members) key =
    match members.lookup key with
    | some v => .ok v
    | none => protocol (.lacks key) := rfl

theorem hexField_obj {h : Hash} (hkey : members.lookup key = some (.str (hex h))) :
    hexField (.obj members) key = .ok (hex h) := by
  rw [hexField, str, field_obj, hkey]
  exact if_pos (isHex64_hex h)

theorem optHex_obj {h : Option Hash} (hkey : members.lookup key = some (asOfJson h)) :
    optHex (.obj members) key = .ok (h.map hex) := by
  cases h with
  | none =>
    rw [optHex, optStr, field_obj, hkey]
    rfl
  | some h =>
    rw [optHex, optStr, hexField_obj hkey, field_obj, hkey]
    rfl

end

theorem bytesHash_hash (h : Hash) (what : String) :
    bytesHash ((Codec.beBytes 32 h.toNat).map fun b => .num b.toNat) what = .ok (hex h) := by
  have hbytes : ∀ b : UInt8, b.toNat ≤ 255 := fun b => Nat.le_of_lt_succ b.toNat_lt
  rw [bytesHash, List.mapM_map]
  simp only [Function.comp_def, hbytes, if_true]
  rw [Programs.mapM_spec (g := UInt8.toNat) fun _ _ => rfl, List.length_map, Codec.beBytes_length]
  simp only [if_true, List.flatMap_map]
  rfl

theorem bytesHashOf_hash (h : Hash) (what : String) :
    bytesHashOf (V1.ViewRows.hash.put h) what = .ok (hex h) := bytesHash_hash h what

theorem hexList_hex (hs : List Hash) (what : String) :
    hexList (hs.map fun h => .str (hex h)) what = .ok (hs.map hex) :=
  decodes_list fun h _ => if_pos (isHex64_hex h)

/-! ## Documents -/

section
variable {d : Dialect} {members : List (String × Value)}

theorem rule_json (exact : d.Exact) {r : RuleId} (h : members.lookup "rule" = some (ruleJson r)) :
    rule d (.obj members) = .ok (.of r) := by
  have hversion := exact _ (r.foldVersion.isLt.trans (by decide))
  simp [rule, obj, h, ruleJson, int, hexField, str, List.lookup_cons, hversion, Rule.of, bind,
    Except.bind, pure, Except.pure]

theorem foldVersion_json (exact : d.Exact) (f : FoldRef) :
    foldVersion d (foldJson f) = .ok (.of f) := by
  have hversion := exact _ (f.version.isLt.trans (by decide))
  simp [foldVersion, foldJson, int, hexField, str, List.lookup_cons, hversion, FoldVersion.of, bind,
    Except.bind, pure, Except.pure]

theorem assertedTime_json (t : V1.AssertedTime) :
    assertedTime (V1.ViewRows.assertedTime.put t) = .ok (.of t) := by
  have hput : V1.ViewRows.assertedTime.put t = .obj [
      ("coordinate", V1.ViewRows.hash.put t.coordinate), ("precision", .str t.precision)] := rfl
  rw [hput]
  simp [assertedTime, arr, str, List.lookup_cons, V1.ViewRows.hash, bytesHash_hash, AssertedTime.of,
    bind, Except.bind, pure, Except.pure]

theorem optObj_time {t : Option V1.AssertedTime}
    (h : members.lookup "asserted_time" = some (V1.ViewRows.assertedTime.option.put t)) :
    optObj (.obj members) "asserted_time" = .ok (t.map V1.ViewRows.assertedTime.put) := by
  rw [optObj, field_obj, h]
  cases t with
  | none => rfl
  | some t => rfl

theorem revision_json (r : V1.Revision) : revision (V1.ViewRows.revision r) = .ok (.of r) := by
  have htime : optObj (V1.ViewRows.revision r) "asserted_time" =
      .ok (r.assertedTime.map V1.ViewRows.assertedTime.put) :=
    optObj_time (by simp [List.lookup_cons])
  have hobject : isObject (V1.ViewRows.revision r) = true := rfl
  rw [revision, htime, hobject]
  cases ht : r.assertedTime with
  | none =>
    simp [V1.ViewRows.revision, arr, List.lookup_cons, V1.ViewRows.hash, bytesHash_hash,
      Revision.of, ht, bind, Except.bind, pure, Except.pure]
  | some t =>
    simp [V1.ViewRows.revision, arr, List.lookup_cons, V1.ViewRows.hash, bytesHash_hash,
      Revision.of, ht, assertedTime_json, bind, Except.bind, pure, Except.pure, Functor.map, Except.map]

theorem optBytesHash_json {key : String} {h : Option Hash}
    (hkey : members.lookup key = some (V1.ViewRows.hash.option.put h)) :
    optBytesHash (.obj members) key = .ok (h.map hex) := by
  rw [optBytesHash, optArr, field_obj, hkey]
  cases h with
  | none => rfl
  | some h =>
    change some <$> bytesHash _ _ = _
    rw [bytesHash_hash]
    rfl

theorem reason_json (r : SupportReason) : reason (reasonJson r) = .ok (.of r) := by
  have hsubject : optBytesHash (reasonJson r) "subject" = .ok (r.subject.map hex) :=
    optBytesHash_json (by simp [List.lookup_cons])
  have hedge : optBytesHash (reasonJson r) "edge" = .ok (r.edge.map hex) :=
    optBytesHash_json (by simp [List.lookup_cons])
  have hobject : isObject (reasonJson r) = true := rfl
  rw [reason, hsubject, hedge, hobject]
  simp [reasonJson, str, Reason.of, bind, Except.bind, pure, Except.pure]

theorem support_json (v : Support) : support (supportValue v) =
    .ok (isSupported v, (supportPath v).map hex, (supportReasons v).map .of) := by
  have hreasons : ∀ rs : List SupportReason, (rs.map reasonJson).mapM reason = .ok (rs.map .of) :=
    fun rs => decodes_list fun r _ => reason_json r
  have hpath : ∀ path : List Hash, (path.map V1.ViewRows.hash.put).mapM
      (fun h => bytesHashOf h "support.path") = .ok (path.map hex) :=
    fun path => decodes_list fun h _ => bytesHashOf_hash h _
  cases v with
  | supported path excluded =>
    have hput : V1.ViewRows.hashes.put path = .arr (path.map V1.ViewRows.hash.put) := rfl
    simp [support, supportValue, hput, arr, List.lookup_cons, hreasons, hpath, isSupported,
      supportPath, supportReasons, bind, Except.bind, pure, Except.pure]
  | unsupported reasons =>
    simp [support, supportValue, arr, hreasons, isSupported, supportPath,
      supportReasons, bind, Except.bind, pure, Except.pure]

/-- The health document without its instance. -/
def healthMembers (cr : Crypto) (n : Node) : List (String × Value) := [
  ("ledger", .str "v1"),
  ("build", .str n.build),
  ("posture", .str n.posture.text),
  ("fold_version", foldJson n.filter.fold),
  ("filter_version", .str (hex (n.filter.version cr))),
  ("curators", .arr (n.filter.curators.map fun c => .str (hex c))),
  ("max_hops", .num n.filter.maxHops.toNat),
  ("semantic", .str n.semantic.text)]

theorem health_json (exact : d.Exact) (cr : Crypto) (n : Node) :
    decodeHealth d (.obj (healthMembers cr n)) = .ok (.health (.of cr n)) := by
  have hhops := exact _ (n.filter.maxHops.isLt.trans (by decide))
  have hfold := foldVersion_json exact n.filter.fold
  have hobject : foldJson n.filter.fold = .obj [
      ("version", .num n.filter.fold.version.toNat),
      ("manifest", .str (hex n.filter.fold.manifest))] := rfl
  rw [hobject] at hfold
  simp [decodeHealth, healthMembers, hasKey, str, obj, arr, int, hexField, optBuild,
    List.lookup_cons, hexList_hex, hobject, hfold, hhops, Health.of, bind, Except.bind, pure, Except.pure]

theorem snapshot_json (exact : d.Exact) (s : V1.Snapshot) {pin : Option (Nat × String)}
    (hpin : ∀ p ∈ pin, p = (s.rule.foldVersion.toNat, hex s.rule.foldManifest)) :
    decodeSnapshot d pin (snapshotJson s) = .ok (.snapshot (.of s)) := by
  have hrule : rule d (snapshotJson s) = .ok (.of s.rule) :=
    rule_json exact (by simp [named])
  have hfold : expectFold (Rule.of s.rule) pin = .ok () := by
    cases pin with
    | none => rfl
    | some p => exact if_pos (hpin p rfl).symm
  have hrevisions : (s.projection.revisions.map V1.ViewRows.revision).mapM revision =
      .ok (s.projection.revisions.map .of) := decodes_list fun r _ => revision_json r
  rw [decodeSnapshot, hrule]
  simp [hfold, snapshotJson, named, arr, obj, hexField, str, List.lookup_cons, hrevisions,
    authorityJson, Snapshot.of, bind, Except.bind, pure, Except.pure]

theorem prose_json (exact : d.Exact) (s : V1.Snapshot) (r : V1.Revision) (a : Availability) :
    decodeProse d (hex r.id) (proseJson s r a) = .ok (.prose (.of s r a)) := by
  have hrule : rule d (proseJson s r a) = .ok (.of s.rule) :=
    rule_json exact (by simp [named, List.lookup_cons])
  have hrevision : obj (proseJson s r a) "revision" = .ok (V1.ViewRows.revision r) := rfl
  have hasked : expect "revision" (Revision.of r).id (hex r.id) = .ok () := if_pos rfl
  rw [decodeProse, hrevision]
  simp only [Except.bind, bind, revision_json, hasked, hrule]
  cases a <;>
    simp [proseJson, named, Availability.text, Availability.prose, str, optStr, hexField,
      List.lookup_cons, Prose.of, bind, Except.bind, pure, Except.pure]

theorem support_read_json (exact : d.Exact) (s : V1.Snapshot) (source target : Hash)
    (asOf : Option Hash) (v : Support) :
    decodeSupport d (hex source) (hex target) (asOf.map hex) (supportJson s source target asOf v) =
      .ok (.support (.of s source target asOf v)) := by
  have hrule : rule d (supportJson s source target asOf v) = .ok (.of s.rule) :=
    rule_json exact (by simp [named])
  have hsupport : obj (supportJson s source target asOf v) "support" = .ok (supportValue v) := by
    cases v <;> simp [supportJson, supportValue, named, obj, List.lookup_cons, bind,
      Except.bind, pure, Except.pure]
  have hasOf : optHex (supportJson s source target asOf v) "as_of" = .ok (asOf.map hex) :=
    optHex_obj (by simp [named, List.lookup_cons])
  rw [decodeSupport, hsupport]
  simp only [bind, Except.bind, support_json, hrule, hasOf]
  simp [supportJson, named, hexField, str, List.lookup_cons, expect, SupportRead.of, bind,
    Except.bind, pure, Except.pure]

theorem visibility_text {v : V1.Visibility} :
    (v.text = "subject_unknown" ↔ v = .subjectUnknown) ∧ (v.text = "visible" ↔ v = .visible) := by
  cases v with
  | subject state => cases state <;> simp [V1.Visibility.text, V1.SubjectState.text]
  | _ => simp [V1.Visibility.text]

/-- A subject is read if the status tells whether it is known and only a visible one has a revision,
which is its own. -/
theorem subject_json (exact : d.Exact) (s : V1.Snapshot) (r : EntityRead) {status : Nat}
    (hstatus : status = 404 ↔ r.visibility = .subjectUnknown)
    (hrevision : ∀ rev ∈ r.revision, r.visibility = .visible ∧ rev.subject = r.subject) :
    decodeSubject d (hex r.subject) (r.asOf.map hex) status (subjectJson s r) =
      .ok (.subject (.of s r)) := by
  have hrule : rule d (subjectJson s r) = .ok (.of s.rule) :=
    rule_json exact (by simp [named])
  have hasOf : optHex (subjectJson s r) "as_of" = .ok (r.asOf.map hex) :=
    optHex_obj (by simp [named, List.lookup_cons])
  have hunknown : readsUnknown (subjectJson s r) = decide (r.visibility = .subjectUnknown) := by
    have htext : readsUnknown (subjectJson s r) =
        decide (r.visibility.text = "subject_unknown") := by
      simp [subjectJson, named, readsUnknown, List.lookup_cons]
    rw [htext]
    exact decide_eq_decide.2 visibility_text.1
  have hknown : ¬ (status = 404 ∧ (!readsUnknown (subjectJson s r)) = true) := by
    rw [hunknown, hstatus]
    simp
  have hagree : (decide (status = 404) : Bool) = decide (r.visibility.text = "subject_unknown") :=
    decide_eq_decide.2 (hstatus.trans visibility_text.1.symm)
  have hobj : optObj (subjectJson s r) "revision" = .ok (r.revision.map V1.ViewRows.revision) := by
    cases hr : r.revision <;> simp [subjectJson, named, optObj, revisionJson, V1.ViewRows.revision,
      List.lookup_cons, hr, bind, Except.bind, pure, Except.pure]
  have hdecoded : optRevision (r.revision.map V1.ViewRows.revision) = .ok (r.revision.map .of) := by
    cases r.revision with
    | none => rfl
    | some rev =>
      change some <$> revision (V1.ViewRows.revision rev) = _
      rw [revision_json]
      rfl
  rw [decodeSubject, if_neg hknown]
  simp only [bind, Except.bind, hobj, hrule, hasOf]
  simp only [subjectJson, named, hexField, str, arr, List.lookup_cons, hexList_hex,
    hdecoded, expect, hagree, List.cons_append, List.nil_append, field_obj, isHex64_hex,
    beq_self_eq_true, if_true, bind, Except.bind, pure, Except.pure, String.reduceBEq, ne_eq, not_true_eq_false, if_false]
  cases hr : r.revision with
  | none => simp [SubjectRead.of, hr]
  | some rev =>
    obtain ⟨hvisible, hsubject⟩ := hrevision rev hr
    have htext : r.visibility.text = "visible" := visibility_text.2.2 hvisible
    have hown : (Revision.of rev).subject = hex r.subject := congrArg hex hsubject
    simp [SubjectRead.of, hr, htext, hown]

/-- The receipt as it is read with this number as its time. -/
def receiptAt (cr : Crypto) (r : SignedReceipt) (receivedAt : Nat) : Value := .obj [
  ("receipt", .str (hexBytes r.bytes)),
  ("receipt_digest", .str (hex (cr.sha256 r.bytes))),
  ("node_key", .str (hex r.receipt.nodeKey)),
  ("event", .str (hex r.receipt.event)),
  ("received_at", .num receivedAt),
  ("encoding_version", .num r.receipt.encodingVersion.toNat),
  ("fold_version", foldJson r.receipt.foldVersion),
  ("initial_admission_result", .obj [
    ("state", .str (admissionText r.receipt.initialAdmissionResult.state)),
    ("reason", .str r.receipt.initialAdmissionResult.reason),
    ("missing", .arr (r.receipt.initialAdmissionResult.missing.map fun h => .str (hex h)))])]

/-- A receipt is read if its time is taken for an integer, and refused for its type if it is not. -/
theorem receipt_json (exact : d.Exact) (cr : Crypto) {r : SignedReceipt} (hbytes : r.bytes ≠ [])
    (receivedAt : Nat) :
    nodeReceipt d cr.sha256 (hex r.receipt.event) (receiptAt cr r receivedAt) =
      if d.integer receivedAt then .ok { NodeReceipt.of cr r with receivedAt }
      else protocol (.wrongType "received_at") := by
  have hobject : isObject (receiptAt cr r receivedAt) = true := rfl
  have hraw : str (receiptAt cr r receivedAt) "receipt" = .ok (hexBytes r.bytes) := by
    simp [receiptAt, str, bind, Except.bind, pure, Except.pure]
  have hchars : (hexBytes r.bytes).toList = V0.Publisher.hexDigits r.bytes := String.toList_ofList
  have hhex : ¬ ((hexBytes r.bytes).toList = [] ∨ (hexBytes r.bytes).toList.length % 2 ≠ 0 ∨
      (!(hexBytes r.bytes).toList.all isHexDigit) = true) := by
    rw [hchars, hexDigits_all, V0.Publisher.hexDigits_length, ← List.length_eq_zero_iff,
      V0.Publisher.hexDigits_length]
    have hlength := List.length_pos_iff.2 hbytes
    simp
    omega
  have hdigest : hexField (receiptAt cr r receivedAt) "receipt_digest" =
      .ok (hex (cr.sha256 r.bytes)) := hexField_obj (by simp [List.lookup_cons])
  have hfrom : fromHex (hexBytes r.bytes) = r.bytes := by
    rw [fromHex, hchars, V0.Publisher.hexDecode_hexDigits]
    rfl
  rw [nodeReceipt, hobject, hraw]
  simp only [bind, Except.bind, if_neg hhex, hdigest, hfrom]
  have hencoding := exact _ (r.receipt.encodingVersion.isLt.trans (by decide))
  have hfold : obj (receiptAt cr r receivedAt) "fold_version" =
      .ok (foldJson r.receipt.foldVersion) := by
    simp [receiptAt, obj, foldJson, List.lookup_cons, bind, Except.bind, pure, Except.pure]
  have hstate : ∀ a, ["valid", "pending", "invalid"].contains (admissionText a) = true := by
    intro a
    cases a <;> decide
  simp only [hfold, foldVersion_json exact]
  by_cases hat : d.integer receivedAt = true
  · simp [-List.contains_eq_mem, -List.contains_cons, receiptAt, int, obj, str,
      arr, hexField, List.lookup_cons, hat, hencoding, hexList_hex, expect, hstate,
      NodeReceipt.of, bind, Except.bind, pure, Except.pure]
  · simp [receiptAt, int, List.lookup_cons, hat, protocol, bind, Except.bind]

/-- The document of the receipts as it is read with these numbers as their times. -/
def receiptsAt (cr : Crypto) (event : String) (found : List (SignedReceipt × Nat)) : Value := .obj [
  ("event", .str event),
  ("receipts", .arr (found.map fun r => receiptAt cr r.1 r.2))]

theorem receipts_mapM (exact : d.Exact) (cr : Crypto) {event : Hash}
    {found : List (SignedReceipt × Nat)}
    (h : ∀ r ∈ found, r.1.bytes ≠ [] ∧ r.1.receipt.event = event) :
    (found.map fun r => receiptAt cr r.1 r.2).mapM (nodeReceipt d cr.sha256 (hex event)) =
      if ∀ r ∈ found, d.integer r.2 = true then
        .ok (found.map fun r => { NodeReceipt.of cr r.1 with receivedAt := r.2 })
      else protocol (.wrongType "received_at") := by
  induction found with
  | nil => rfl
  | cons r found ih =>
    obtain ⟨hbytes, hevent⟩ := h r List.mem_cons_self
    have hreceipt := receipt_json exact cr hbytes r.2
    rw [hevent] at hreceipt
    have hall : (∀ x ∈ r :: found, d.integer x.2 = true) ↔ d.integer r.2 = true ∧
        ∀ x ∈ found, d.integer x.2 = true := List.forall_mem_cons
    rw [List.map_cons, List.mapM_cons, hreceipt, ih fun x hx => h x (List.mem_cons_of_mem r hx)]
    by_cases hr : d.integer r.2 = true
    · by_cases hrest : ∀ x ∈ found, d.integer x.2 = true
      · rw [if_pos hr, if_pos hrest, if_pos (hall.2 ⟨hr, hrest⟩)]
        rfl
      · rw [if_pos hr, if_neg hrest, if_neg fun h => hrest (hall.1 h).2]
        rfl
    · rw [if_neg hr, if_neg fun h => hr (hall.1 h).1]
      rfl

theorem receipts_json (exact : d.Exact) (cr : Crypto) {event : Hash}
    {found : List (SignedReceipt × Nat)} (hsome : found ≠ [])
    (h : ∀ r ∈ found, r.1.bytes ≠ [] ∧ r.1.receipt.event = event) :
    decodeReceipts d cr.sha256 (hex event) (receiptsAt cr (hex event) found) =
      if ∀ r ∈ found, d.integer r.2 = true then
        .ok (.receipts ⟨hex event,
          found.map fun r => { NodeReceipt.of cr r.1 with receivedAt := r.2 }⟩)
      else protocol (.wrongType "received_at") := by
  have hevent : hexField (receiptsAt cr (hex event) found) "event" = .ok (hex event) :=
    hexField_obj (by simp)
  have hitems : arr (receiptsAt cr (hex event) found) "receipts" =
      .ok (found.map fun r => receiptAt cr r.1 r.2) := by
    simp [receiptsAt, arr, List.lookup_cons, bind, Except.bind, pure, Except.pure]
  have hempty : (found.map fun r => receiptAt cr r.1 r.2).isEmpty = false := by
    cases found with
    | nil => exact absurd rfl hsome
    | cons => rfl
  rw [decodeReceipts, hevent]
  simp only [bind, Except.bind, hitems, hempty, expect, if_true, receipts_mapM exact cr h,
    Bool.false_eq_true, if_false]
  by_cases hall : ∀ r ∈ found, d.integer r.2 = true
  · rw [if_pos hall, if_pos hall]
    rfl
  · rw [if_neg hall, if_neg hall]
    rfl

end

end Clockchain.Public
