import Clockchain.Operator.Node
import Clockchain.Public.Routes
import Clockchain.Verifier.Checks

/-!
# Honest documents

What a node serves passes every check of the verifier: the rows it rebuilds are the canonical rows
of the node, and the digests it recomputes are those of the node.
-/

namespace Clockchain.Verifier
open Json Json.Members
open Public (EntityRead Node entity hex32 hex32_hex hexBytes proseOf snapshotJson)
open V0.Publisher (hexDecode)
open V1 (BTreeMap BTreeSet Crypto Decoded ExportManifest FilterIdentity FoldRef Hash RuleId Verify)
open V1.Publisher (hex)
set_option autoImplicit false

/-! ## Served readings -/

def Row.of (r : V1.EventReading) : Row where
  event := r.event
  envelope := r.envelope
  state := V1.ViewRows.rowState r.state
  reason := r.reason.text
  missing := r.missing
  frontier := r.frontier
  revision := r.revision
  controllingRevokes := r.controllingRevokes.toList

def Revision.of (r : V1.Revision) : Revision :=
  ⟨r.id, r.subject, r.creatingEvent, r.body, r.assertedTime⟩

def Subject.of (r : V1.SubjectReading) : Subject :=
  ⟨r.subject, r.frontier.toList, r.state.text, r.frozen⟩

def Grant.of (g : V1.Grant) : Grant := ⟨g.issuedByEvent, g.issuer, g.holder, g.subject⟩

def Effect.of (e : V1.Effect) : Effect := ⟨e.reason.text, e.controllingRevokes.toList⟩

def Edge.of (r : V1.EdgeReading) : Edge where
  edge := r.edge
  author := r.author
  relation := r.relation
  evidence := r.evidence
  heads := r.heads.toList
  pins := r.pins
  history := r.history.toList
  status := r.status.text
  reasons := r.reasons.map V1.EdgeReason.text

def targetText : V1.TargetKind → String
  | .event => "Event"
  | .revision => "Revision"

def Media.of (r : V1.MediaReading) : Media where
  attestation := r.attestation
  author := r.author
  targetKind := targetText r.targetKind
  target := r.target
  revision := r.revision
  body := r.body
  artifactKind := r.artifactKind
  artifact := r.artifact

def Authority.of (a : V1.Authority) : Authority where
  grants := a.grants.toList.map fun entry => (entry.1, .of entry.2)
  active := a.active.toList
  tombstones := a.tombstones.toList
  effectiveRevokes := a.effectiveRevokes.toList
  canceled := a.canceled.toList
  effects := a.effects.toList.map fun entry => (entry.1, .of entry.2)

def RuleJson.of (r : RuleId) : RuleJson := ⟨r.foldVersion, hex r.foldManifest, hex r.filterVersion⟩

/-- The document a node serves of a snapshot, as the verifier reads it. -/
def Snapshot.of (s : V1.Snapshot) : Snapshot where
  rule := .of s.rule
  corpusDigest := hex s.corpusDigest
  commitment := hex s.commitment
  rows := s.projection.rows.map .of
  subjects := s.projection.subjects.map .of
  revisions := s.projection.revisions.map .of
  edges := s.projection.edges.map .of
  media := s.projection.media.map .of
  authority := .of s.projection.authority

theorem mediaForm_of (r : V1.MediaReading) :
    mediaForm.put (.of r) = V1.ViewRows.mediaReading r := by
  have hkind :
      Form.text.put (targetText r.targetKind) = V1.ViewRows.targetKind.put r.targetKind := by
    cases r.targetKind <;> rfl
  change Value.obj [("attestation", _), ("author", _), ("target_kind", _), ("target", _),
    ("revision", _), ("body", _), ("artifact_kind", _), ("artifact", _)] = _
  rw [V1.ViewRows.mediaReading, ← hkind]
  rfl

theorem edgeForm_of (r : V1.EdgeReading) : edgeForm.put (.of r) = V1.ViewRows.edgeReading r := by
  have hreasons : (Form.list .text).put (r.reasons.map V1.EdgeReason.text) =
      .arr (r.reasons.map fun reason => .str reason.text) := by
    change Value.arr ((r.reasons.map V1.EdgeReason.text).map Value.str) = _
    rw [List.map_map]
    rfl
  change Value.obj [("edge", _), ("author", _), ("relation", _), ("evidence", _), ("heads", _),
    ("pins", _), ("history", _), ("status", _), ("reasons", _)] = _
  rw [V1.ViewRows.edgeReading, ← hreasons]
  rfl

theorem entries_of {α β : Type} {f : Form β} {view : α → β} {put : α → Value}
    (h : ∀ a, f.put (view a) = put a) (m : BTreeMap α) :
    (Form.list (.pair V1.ViewRows.hash f)).put (m.toList.map fun entry => (entry.1, view entry.2)) =
      V1.ViewRows.entries put m := by
  change Value.arr ((m.toList.map fun entry => (entry.1, view entry.2)).map _) = _
  rw [V1.ViewRows.entries, List.map_map]
  refine congrArg Value.arr (List.map_congr_left fun entry _ => ?_)
  rw [← h]
  rfl

theorem list_of {α β : Type} {f : Form β} {view : α → β} {put : α → Value}
    (h : ∀ a, f.put (view a) = put a) (xs : List α) :
    f.list.put (xs.map view) = .arr (xs.map put) := by
  change Value.arr ((xs.map view).map f.put) = _
  rw [List.map_map]
  exact congrArg Value.arr (List.map_congr_left fun x _ => h x)

theorem grants_of (m : BTreeMap V1.Grant) : (Form.list (.pair V1.ViewRows.hash grantForm)).put
    (m.toList.map fun entry => (entry.1, .of entry.2)) =
      V1.ViewRows.entries V1.ViewRows.grant m := entries_of (fun _ => rfl) m

theorem effects_of (m : BTreeMap V1.Effect) : (Form.list (.pair V1.ViewRows.hash effectForm)).put
    (m.toList.map fun entry => (entry.1, .of entry.2)) =
      V1.ViewRows.entries V1.ViewRows.effect m := entries_of (fun _ => rfl) m

theorem rows_of (rows : List V1.EventReading) : rowForm.list.put (rows.map .of) =
    .arr (rows.map V1.ViewRows.eventReading) := list_of (fun _ => rfl) rows

theorem subjects_of (rows : List V1.SubjectReading) : subjectForm.list.put (rows.map .of) =
    .arr (rows.map V1.ViewRows.subjectReading) := list_of (fun _ => rfl) rows

theorem revisions_of (rows : List V1.Revision) : revisionForm.list.put (rows.map .of) =
    .arr (rows.map V1.ViewRows.revision) := list_of (fun _ => rfl) rows

theorem edges_of (rows : List V1.EdgeReading) : edgeForm.list.put (rows.map .of) =
    .arr (rows.map V1.ViewRows.edgeReading) := list_of edgeForm_of rows

theorem media_of (rows : List V1.MediaReading) : mediaForm.list.put (rows.map .of) =
    .arr (rows.map V1.ViewRows.mediaReading) := list_of mediaForm_of rows

theorem authorityForm_of (a : V1.Authority) :
    authorityForm.put (.of a) = Public.authorityJson a := by
  rw [Public.authorityJson, ← grants_of, ← effects_of]
  rfl

/-- The served snapshot is the document of what the verifier reads. -/
theorem snapshotForm_of (s : V1.Snapshot) : snapshotForm.put (.of s) = snapshotJson s := by
  rw [snapshotJson, ← rows_of, ← subjects_of, ← revisions_of, ← edges_of, ← media_of,
    ← authorityForm_of]
  rfl

/-- The rows rebuilt from a served snapshot are the canonical rows of the node. -/
theorem canonicalRows_of (s : V1.Snapshot) :
    (CanonicalRows.of (.of s)).bytes = V1.canonicalRows s.projection := by
  rw [CanonicalRows.bytes, V1.canonicalRows, V1.ViewRows.document, ← rows_of, ← subjects_of,
    ← revisions_of, ← edges_of, ← media_of, ← grants_of, ← effects_of]
  rfl

/-! ## Identity -/

def Health.of (cr : Crypto) (n : Node) : Health where
  ledger := "v1"
  foldVersion := ⟨n.filter.fold.version, hex n.filter.fold.manifest⟩
  filterVersion := hex (n.filter.version cr)
  curators := n.filter.curators.map hex
  maxHops := n.filter.maxHops

theorem foldForm_faithful : foldForm.Faithful :=
  (((field_faithful _ (Form.number_faithful 16)).pair (field_faithful _ Form.text_faithful)).record
    fun _ => rfl).strict (by decide)

theorem healthForm_members : Members.Faithful (((field "ledger" .text).pair
    ((field "fold_version" foldForm).pair ((field "filter_version" .text).pair
      ((field "curators" (.list .text)).pair (field "max_hops" (.number 16)))))).record
    (fun (ledger, foldVersion, filterVersion, curators, maxHops) =>
      Health.mk ledger foldVersion filterVersion curators maxHops)
    (fun h => (h.ledger, h.foldVersion, h.filterVersion, h.curators, h.maxHops))) :=
  ((field_faithful _ Form.text_faithful).pair ((field_faithful _ foldForm_faithful).pair
    ((field_faithful _ Form.text_faithful).pair ((field_faithful _ Form.text_faithful.list).pair
      (field_faithful _ (Form.number_faithful 16)))))).record fun _ => rfl

section
variable {cr : Crypto} {signed : Verify} {w : Wording} {n : Node}

theorem healthForm_of : healthForm.get (Public.healthBody cr n) = some (.of cr n) := by
  have hnames : ["ledger", "build", "posture", "instance", "fold_version", "filter_version",
    "curators", "max_hops", "semantic"].Nodup := by decide
  have hcurators : (Form.list .text).put (n.filter.curators.map hex) =
      .arr (n.filter.curators.map fun c => .str (hex c)) := list_of (fun _ => rfl) _
  apply healthForm_members.among
  · exact hnames
  intro entry he
  have hput : entry ∈ [("ledger", Value.str "v1"), ("fold_version", Public.foldJson n.filter.fold),
      ("filter_version", .str (hex (n.filter.version cr))),
      ("curators", (Form.list .text).put (n.filter.curators.map hex)),
      ("max_hops", .num n.filter.maxHops.toNat)] := he
  rw [hcurators] at hput
  simp only [List.mem_cons, List.not_mem_nil, or_false] at hput ⊢
  tauto

theorem mapM_hex32 (hs : List Hash) : (hs.map hex).mapM hex32 = some hs := by
  induction hs with
  | nil => rfl
  | cons h hs ih => rw [List.map_cons, List.mapM_cons, hex32_hex, ih]; rfl

theorem governed_self (governed : n.filter.isGoverned cr = true) :
    FilterIdentity.governed cr n.filter.curators n.filter.maxHops = .ok n.filter := by
  unfold FilterIdentity.isGoverned at governed
  split at governed
  · next f hf => rw [hf, of_decide_eq_true governed]
  · exact Bool.noConfusion governed

/-- A governed node names the identity that is recomputed. -/
theorem identity_of (governed : n.filter.isGoverned cr = true) :
    (identity cr w (some (Public.healthBody cr n))).2 =
      some (n.filter.fold, n.filter.version cr) := by
  have hfold : n.filter.fold = V1.foldV1 cr :=
    congrArg FilterIdentity.fold (V1.governed_form governed)
  have hserved : ((some (V1.foldV1 cr).manifest).map fun manifest =>
      FoldRef.mk (V1.foldV1 cr).version manifest) = some (V1.foldV1 cr) := rfl
  unfold identity
  rw [Option.bind_some, healthForm_of]
  simp only [Health.of, hfold, hex32_hex, hserved, ne_eq, not_true_eq_false, if_false, filterOf,
    mapM_hex32, governed_self governed, if_true]

/-! ## The snapshot -/

/-- What the node has folded. -/
structure Folds (cr : Crypto) (signed : Verify) (n : Node) (all : BTreeMap Decoded)
    (s : V1.Snapshot) : Prop where
  verified : n.store.verifiedCandidates cr signed n.tables = .ok all
  folded : V1.Snapshot.of cr n.filter (V1.candidatesOf all) = some s
  filter : s.filter = n.filter
  rule : s.rule = .of cr n.filter
  events : s.projection.rows.map V1.EventReading.event = all.keys
  envelope : ∀ r ∈ s.projection.rows, ∃ d, all[r.event]? = some d ∧ r.envelope = d.envelope
  corpus : s.corpusDigest = V1.corpusDigest cr all.keys
  commitment : s.commitment = V1.viewCommitment cr n.filter.fold (n.filter.version cr)
    s.corpusDigest (V1.canonicalRows s.projection)

theorem snapshot_folded (free : n.Free cr signed) {requested : Option FoldRef} {s : V1.Snapshot}
    (hs : n.store.snapshot cr signed n.tables requested = some (.ok s)) :
    ∃ all, Folds cr signed n all s := by
  obtain ⟨filter, all, hrule, hall, hof⟩ := Operator.snapshot_folds hs
  obtain rfl : filter = n.filter := (Option.some.inj hrule).symm
  obtain ⟨out, subjects, A, p, -, -, -, -, hp, projected⟩ := V1.project_spec (free all hall)
  obtain ⟨p', hp', hs'⟩ := Option.bind_eq_some_iff.mp hof
  obtain rfl := Option.some.inj hs'
  obtain rfl : p' = p := Option.some.inj (hp'.symm.trans hp)
  have hkeys : (V1.candidatesOf all).keys = all.keys := Std.ExtTreeMap.keys_map
  refine ⟨all, hall, hof, rfl, rfl, projected.events.trans hkeys, fun r hr => ?_, ?_, rfl⟩
  · obtain ⟨t, st, ht, -, henvelope, -⟩ := (projected.rows r hr).known
    obtain ⟨d, hd, rfl⟩ := V1.getElem?_candidatesOf.mp ht
    exact ⟨d, hd, henvelope⟩
  · rw [← hkeys]

theorem Folds.events_of {all : BTreeMap Decoded} {s : V1.Snapshot} (h : Folds cr signed n all s) :
    (Snapshot.of s).rows.map Row.event = all.keys := by
  rw [← h.events]
  exact List.map_map

theorem Folds.encoded {all : BTreeMap Decoded} {s : V1.Snapshot} (h : Folds cr signed n all s) :
    Encoded cr (Snapshot.of s).rows := by
  refine ⟨?_, ?_⟩
  · intro row hrow
    obtain ⟨r, hr, rfl⟩ := List.mem_map.mp hrow
    obtain ⟨d, hd, henvelope⟩ := h.envelope r hr
    obtain ⟨-, hid, hdecode, -⟩ := V1.verified_get (V1.sound_of_verified h.verified) h.verified hd
    obtain ⟨pre, -, hpre, -, -, -, -, hhash, -⟩ := V1.decode_ok.mp hdecode
    refine ⟨pre, ?_, hhash.symm.trans hid⟩
    rw [← hpre, ← henvelope]
    rfl
  · rw [h.events_of]
    have hordered : all.keys.Pairwise fun a b => compare a b = .lt := Std.ExtTreeMap.ordered_keys
    exact hordered.imp fun hlt => compareOfLessAndEq_eq_lt.mp hlt

theorem Folds.matches {all : BTreeMap Decoded} {s : V1.Snapshot} (h : Folds cr signed n all s) :
    Matches cr n.filter.fold (n.filter.version cr) (snapshotJson s) (.of s) where
  foldVersion := by
    change s.rule.foldVersion = _
    rw [h.rule]
    rfl
  foldManifest := by
    change hex32 (hex s.rule.foldManifest) = _
    rw [hex32_hex, h.rule]
    rfl
  filterVersion := by
    change hex32 (hex s.rule.filterVersion) = _
    rw [hex32_hex, h.rule]
    rfl
  encoded := h.encoded
  corpus := by
    change hex32 (hex s.corpusDigest) = _
    rw [hex32_hex, h.corpus, ← h.events_of]
  commitment := by
    change hex32 (hex s.commitment) = _
    rw [hex32_hex, canonicalRows_of, h.events_of, ← h.corpus, h.commitment]
  canonical := by rw [snapshotForm_of]

/-! ## The export -/

/-- The export manifest of the node, each of its envelopes in hex. -/
def exportJson (m : ExportManifest) : Value := .obj [
  ("encoding", .num m.encoding.toNat),
  ("rule", .obj [
    ("fold_version", .num m.rule.foldVersion.toNat),
    ("fold_manifest", V1.ViewRows.hash.put m.rule.foldManifest),
    ("filter_version", V1.ViewRows.hash.put m.rule.filterVersion)]),
  ("corpus_digest", V1.ViewRows.hash.put m.corpusDigest),
  ("commitment", V1.ViewRows.hash.put m.commitment),
  ("envelopes", .arr (m.envelopes.map fun bytes => .str (hexBytes bytes)))]

def Export.of (m : ExportManifest) : Export where
  encoding := m.encoding
  rule := ⟨m.rule.foldVersion, m.rule.foldManifest, m.rule.filterVersion⟩
  corpusDigest := m.corpusDigest
  commitment := m.commitment
  envelopes := m.envelopes.map hexBytes

theorem exportRuleForm_faithful : exportRuleForm.Faithful :=
  (((field_faithful _ (Form.number_faithful 16)).pair
    ((field_faithful _ V1.ViewRows.hash_faithful).pair
      (field_faithful _ V1.ViewRows.hash_faithful))).record fun _ => rfl).strict (by decide)

theorem exportForm_faithful : exportForm.Faithful :=
  (((field_faithful _ (Form.number_faithful 16)).pair
    ((field_faithful _ exportRuleForm_faithful).pair
    ((field_faithful _ V1.ViewRows.hash_faithful).pair
      ((field_faithful _ V1.ViewRows.hash_faithful).pair
        (field_faithful _ Form.text_faithful.list))))).record fun _ => rfl).strict (by decide)

theorem exportForm_of (m : ExportManifest) : exportForm.get (exportJson m) = some (.of m) := by
  have hput : exportForm.put (.of m) = exportJson m := by
    have henvelopes : (Form.list .text).put (m.envelopes.map hexBytes) =
        .arr (m.envelopes.map fun bytes => .str (hexBytes bytes)) := list_of (fun _ => rfl) _
    rw [exportJson, ← henvelopes]
    rfl
  rw [← hput, exportForm_faithful]

/-- Envelopes that decode are collected under their ids. -/
theorem signedEnvelopes_of {ds : List Decoded}
    (h : ∀ d ∈ ds, V1.decode cr signed d.bytes = .ok d) (i : Nat) (found : BTreeMap Decoded) :
    signedEnvelopes cr signed i found (ds.map fun d => hexBytes d.bytes) =
      .ok (found.insertMany (ds.map fun d => (d.id, d))) := by
  induction ds generalizing i found with
  | nil => rfl
  | cons d ds ih =>
    have htext : (hexBytes d.bytes).toList = V0.Publisher.hexDigits d.bytes :=
      String.toList_ofList
    rw [List.map_cons, List.map_cons, Std.ExtTreeMap.insertMany_cons, signedEnvelopes, htext,
      V0.Publisher.hexDecode_hexDigits]
    simp only [h d List.mem_cons_self]
    exact ih (fun e he => h e (List.mem_cons_of_mem d he)) _ _

/-- The exported envelopes are the candidates of the node. -/
theorem Folds.exported {all : BTreeMap Decoded} {s : V1.Snapshot} (h : Folds cr signed n all s) :
    signedEnvelopes cr signed 0 ∅ ((all.toList.map fun entry => entry.2.bytes).map hexBytes) =
      .ok all := by
  have hget : ∀ id d, all[id]? = some d → d.id = id ∧ V1.decode cr signed d.bytes = .ok d := by
    intro id d hd
    obtain ⟨-, hid, hdecode, -⟩ := V1.verified_get (V1.sound_of_verified h.verified) h.verified hd
    exact ⟨hid, hdecode⟩
  have hlist : ∀ entry ∈ all.toList, entry.2.id = entry.1 ∧
      V1.decode cr signed entry.2.bytes = .ok entry.2 := fun entry he =>
    hget _ _ (Std.ExtTreeMap.mem_toList_iff_getElem?_eq_some.mp he)
  have hdecodes : ∀ d ∈ all.toList.map Prod.snd, V1.decode cr signed d.bytes = .ok d := by
    intro d hd
    obtain ⟨entry, he, rfl⟩ := List.mem_map.mp hd
    exact (hlist entry he).2
  have hspec := signedEnvelopes_of hdecodes 0 ∅
  have htexts : ((all.toList.map fun entry => entry.2.bytes).map hexBytes) =
      (all.toList.map Prod.snd).map fun d => hexBytes d.bytes := by
    rw [List.map_map, List.map_map]
    rfl
  have hentries : ((all.toList.map Prod.snd).map fun d => (d.id, d)) = all.toList := by
    rw [List.map_map]
    refine (List.map_congr_left fun entry he => ?_).trans (List.map_id _)
    exact Prod.ext (hlist entry he).1 rfl
  have hback : Std.ExtTreeMap.ofList all.toList = all := by
    apply Maps.ext_graph
    intro id d
    rw [Maps.getElem?_ofList (Maps.nodup_fst_toList all),
      Std.ExtTreeMap.mem_toList_iff_getElem?_eq_some]
  rw [htexts, hspec, hentries, ← Std.ExtTreeMap.ofList_eq_insertMany_empty, hback]

/-- There is a row for each candidate. -/
theorem Folds.length {all : BTreeMap Decoded} {s : V1.Snapshot} (h : Folds cr signed n all s) :
    (Snapshot.of s).rows.length = all.size := by
  rw [← Std.ExtTreeMap.length_keys, ← h.events_of, List.length_map]

theorem Folds.rows_nil {all : BTreeMap Decoded} {s : V1.Snapshot} (h : Folds cr signed n all s) :
    (Snapshot.of s).rows = [] ↔ all.isEmpty = true := by
  rw [Std.ExtTreeMap.isEmpty_eq_size_beq_zero, beq_iff_eq, ← h.length, List.length_eq_zero_iff]

/-- The signatures of an export are those of the rows, if there is any. -/
theorem Folds.signatures {all : BTreeMap Decoded} {s : V1.Snapshot} (h : Folds cr signed n all s)
    {m : ExportManifest}
    (hm : n.store.exportManifest cr signed n.tables none = some (.ok m)) :
    (signatures cr signed w (some (some (exportJson m))) (.of s) n.filter.fold
      (n.filter.version cr)).1.status =
        if (Snapshot.of s).rows = [] then .notChecked else .pass := by
  obtain ⟨rule, all', s', hrule, hall, hs', rfl⟩ := V1.exportManifest_ok hm
  obtain rfl : all' = all := Except.ok.inj (hall.symm.trans h.verified)
  obtain rfl : rule = n.filter := (Option.some.inj hrule).symm
  obtain rfl : s' = s := Option.some.inj (hs'.symm.trans h.folded)
  have hsame : sameRows all' (.of ⟨V1.canonVersion, s'.rule, s'.corpusDigest, s'.commitment,
      all'.toList.map fun entry => entry.2.bytes⟩) (.of s') = true := by
    refine decide_eq_true ⟨?_, h.length.symm, fun row hrow => ?_⟩
    · change all'.size = ((all'.toList.map _).map _).length
      rw [List.length_map, List.length_map, Std.ExtTreeMap.length_toList]
    · obtain ⟨r, hr, rfl⟩ := List.mem_map.mp hrow
      obtain ⟨d, hd, henvelope⟩ := h.envelope r hr
      change all'[r.event]?.map _ = some r.envelope
      rw [hd, henvelope]
      rfl
  have hnamed : Export.named (.of ⟨V1.canonVersion, s'.rule, s'.corpusDigest, s'.commitment,
      all'.toList.map fun entry => entry.2.bytes⟩) (.of s') n.filter.fold
        (n.filter.version cr) = true := by
    refine decide_eq_true ⟨rfl, ?_, ?_, ?_, hex32_hex _, hex32_hex _⟩
    · exact congrArg RuleId.foldVersion h.rule
    · exact congrArg RuleId.foldManifest h.rule
    · exact congrArg RuleId.filterVersion h.rule
  rw [Verifier.signatures, Option.bind_some, exportForm_of]
  dsimp only
  rw [hnamed]
  simp only [Bool.not_true, Bool.false_eq_true, if_false]
  have hexported : signedEnvelopes cr signed 0 ∅ (Export.of ⟨V1.canonVersion, s'.rule,
      s'.corpusDigest, s'.commitment, all'.toList.map fun entry => entry.2.bytes⟩).envelopes =
        .ok all' := h.exported
  rw [hexported]
  simp only [hsame, Bool.true_and]
  by_cases hrows : (Snapshot.of s').rows = []
  · rw [if_pos (h.rows_nil.mp hrows), if_pos hrows]
  · rw [if_neg fun hempty => hrows (h.rows_nil.mpr hempty), if_neg hrows]
    rfl

end

end Clockchain.Verifier
