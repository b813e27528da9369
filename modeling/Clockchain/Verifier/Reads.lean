import Clockchain.Public.Agreement
import Clockchain.V1.Heads
import Clockchain.V1.Linearization
import Clockchain.Verifier.Honest

/-!
# Reads

The read of a subject that the verifier recomputes from the rows is the one the node computes from
its projection, for every subject and moment.
-/

namespace Clockchain.Verifier
open Json Json.Members
open Public (EntityRead Node entity hex32 hex32_hex proseOf)
open V0.Publisher (Text)
open V1
    (BTreeMap Candidates Crypto Decoded ExportManifest Hash Projected Projection Verdicts Verify)
open V1.Publisher (hex)
set_option autoImplicit false

/-! ## Texts -/

theorem utf8ByteSize_ascii {s : String} (h : ∀ c ∈ s.toList, c.toNat < 128) :
    s.utf8ByteSize = s.toList.length := by
  have hbytes : s.utf8ByteSize = (Text.bytes s.toList).length := by
    rw [← String.size_toByteArray, ← String.utf8Encode_toList, List.utf8Encode,
      List.size_toByteArray]
    rfl
  rw [hbytes, V0.bytes_length_ascii h]

/-- Only the text of a hash is read as the hash. -/
theorem hex32_iff {s : String} {h : Hash} : hex32 s = some h ↔ s = hex h := by
  constructor
  · intro hread
    have hvalid : ¬ (s.utf8ByteSize ≠ 64 ∨ (!s.toList.all Public.isHexDigit) = true) := by
      intro hbad
      rw [hex32, if_pos hbad] at hread
      cases hread
    simp only [not_or, not_not, Bool.not_eq_true', Bool.not_eq_false] at hvalid
    obtain ⟨hsize, hdigits⟩ := hvalid
    have hascii : ∀ c ∈ s.toList, c.toNat < 128 := by
      intro c hc
      obtain ⟨n, hn, rfl⟩ := Public.isHexDigit_value (List.all_eq_true.mp hdigits c hc)
      have hdigit : ∀ n < 16, (Nat.digitChar n).toNat < 128 := by decide
      exact hdigit n hn
    have hlength : s.toList.length = 64 := (utf8ByteSize_ascii hascii).symm.trans hsize
    have hhex : Public.isHex64 s = true := by
      rw [Public.isHex64, hlength, hdigits]
      rfl
    obtain ⟨h', rfl⟩ := Public.isHex64_iff.mp hhex
    rw [hex32_hex, Option.some.injEq] at hread
    rw [hread]
  · rintro rfl
    exact hex32_hex h

/-! ## Subjects -/

def SubjectRead.of (e : EntityRead) : SubjectRead where
  asOf := e.asOf.map hex
  subject := hex e.subject
  state := e.state
  frontier := e.frontier.map hex
  revision := e.revision.map .of
  visibility := e.visibility.text

theorem map_of_find {α β : Type} {view : α → β} {p : β → Bool} {xs : List α} :
    (xs.map view).find? p = (xs.find? fun x => p (view x)).map view := List.find?_map

theorem state_resolved {s : V1.SubjectState} : s.text = "resolved" ↔ s = .resolved := by
  cases s <;> decide

theorem find_subject (s : V1.Snapshot) (id : Hash) :
    ((Snapshot.of s).subjects.find? fun x => x.subject = id) =
      (s.projection.subjects.find? fun x => x.subject = id).map .of := map_of_find

/-- What the node shows of a revision at a moment. -/
def shownAt (asOf : Option Hash) (rev : V1.Revision) : V1.Visibility :=
  match asOf, rev.assertedTime with
  | none, _ => .visible
  | some _, none => .assertedTimeUnknown
  | some q, some t => if t.coordinate > q then .afterAsOf else .visible

theorem visibilityAt_of (asOf : Option Hash) (rev : V1.Revision) :
    visibilityAt asOf (.of rev) = (shownAt asOf rev).text := by
  unfold visibilityAt shownAt
  change (match asOf, rev.assertedTime with
    | none, _ => "visible"
    | some _, none => "asserted_time_unknown"
    | some q, some t => if t.coordinate > q then "after_as_of" else "visible") = _
  cases asOf with
  | none => rfl
  | some q =>
    cases rev.assertedTime with
    | none => rfl
    | some t =>
      dsimp only
      split <;> rfl

theorem visible_iff {asOf : Option Hash} {rev : V1.Revision} :
    (shownAt asOf rev).text = "visible" ↔ shownAt asOf rev = .visible := by
  unfold shownAt
  split
  · decide
  · decide
  · split <;> decide

theorem entity_names {s : V1.Snapshot} {id : Hash} {asOf : Option Hash} {e : EntityRead}
    (he : entity s id asOf = some e) : e.subject = id ∧ e.asOf = asOf := by
  obtain ⟨⟨v, revision⟩, -, hsome⟩ := Option.bind_eq_some_iff.mp he
  obtain rfl := Option.some.inj hsome
  exact ⟨rfl, rfl⟩

section
variable {cr : Crypto} {C : Candidates} {out : BTreeMap V1.Status} {A : V1.Authority}
variable {s : V1.Snapshot} (projected : Projected cr C out A s.projection)
variable (branch : V1.Branch cr C (V1.validOf C out))
include projected branch

/-- The current revision of the verifier is the one the node shows. -/
theorem current_of {reading : V1.SubjectReading} (h : reading ∈ s.projection.subjects)
    (hstate : reading.state = .resolved) : ∃ rev : V1.Revision,
      currentOf (.of s) (.of reading) = some (.of rev) ∧ ∀ asOf,
        V1.visibility s.projection reading.subject asOf = some (shownAt asOf rev, some rev) := by
  obtain ⟨head, hcons, row, hrow, hevent, rev, hrev, hid, -⟩ :=
    V1.resolved_head projected branch h hstate
  have hfind := Programs.find?_named projected.subjects_nodup h
  have hfindRow := Programs.find?_named projected.rows_nodup hrow
  have hfindRev := Programs.find?_named (projected.revisions_nodup branch) hrev
  rw [hevent] at hfindRow
  refine ⟨rev, ?_, fun asOf => ?_⟩
  · have hhead : (Subject.of reading).frontier.head? = some head := by
      change reading.frontier.toList.head? = _
      rw [hcons]
      rfl
    have hrows : ((Snapshot.of s).rows.find? fun r => some r.event = some head) =
        some (.of row) := by
      simp only [Option.some.injEq]
      exact map_of_find.trans (congrArg (Option.map Row.of) hfindRow)
    have hrevisions : ((Snapshot.of s).revisions.find? fun r => r.id = rev.id) =
        some (.of rev) := map_of_find.trans (congrArg (Option.map Revision.of) hfindRev)
    have hrevision : (Row.of row).revision = some rev.id := hid
    rw [currentOf, hhead]
    simp only [Option.bind_eq_bind]
    rw [hrows, Option.bind_some, hrevision, Option.bind_some, hrevisions]
  · simp only [V1.visibility, hfind, hstate, hcons, List.head?_cons, hfindRow, hid, ne_eq,
      not_true_eq_false, if_false, Option.bind_eq_bind, Option.bind_some, Option.some.injEq,
      hfindRev]
    rfl

/-- What the verified snapshot shows of a subject it has is what the node computes. -/
theorem shown_of {reading : V1.SubjectReading}
    (hfind : (s.projection.subjects.find? fun x => x.subject = reading.subject) = some reading)
    (asOf : Option Hash) : ∃ v revision,
      entity s reading.subject asOf = some ⟨asOf, reading.subject, reading.state.text,
        reading.frontier.toList, revision, v⟩ ∧
      shown (.of s) (.of reading) asOf = .ok (v.text, revision.map .of) := by
  have hreading := List.mem_of_find?_eq_some hfind
  by_cases hstate : reading.state = .resolved
  · obtain ⟨rev, hcurrent, hvisibility⟩ := current_of projected branch hreading hstate
    have htext : ¬ (Subject.of reading).state ≠ "resolved" :=
      not_not_intro (state_resolved.mpr hstate)
    refine ⟨shownAt asOf rev, if shownAt asOf rev = .visible then some rev else none, ?_, ?_⟩
    · rw [entity, hvisibility, hfind]
      rfl
    · rw [shown, if_neg htext, hcurrent]
      simp only [visibilityAt_of, visible_iff]
      split <;> rfl
  · have htext : (Subject.of reading).state ≠ "resolved" := fun heq =>
      hstate (state_resolved.mp heq)
    refine ⟨.subject reading.state, none, ?_, ?_⟩
    · rw [entity, V1.visibility_unresolved projected hreading hstate asOf, hfind]
      rfl
    · rw [shown, if_pos htext]
      rfl

/-- What the snapshot implies of a subject at a moment is what the node computes. -/
theorem implied_ok {read : SubjectRead} {id : Hash} {asOf : Option Hash}
    (hsubject : read.subject = hex id) (hasOf : read.asOf = asOf.map hex) :
    (∃ detail, implied (.of s) read id asOf = .ok detail) ↔
      ∃ e, entity s id asOf = some e ∧ read = .of e := by
  have hread : ∀ e : EntityRead, e.subject = id → e.asOf = asOf → (read = .of e ↔
      (read.state = e.state ∧ read.frontier = e.frontier.map hex) ∧
        read.visibility = e.visibility.text ∧ read.revision = e.revision.map .of) := by
    rintro e rfl rfl
    constructor
    · rintro rfl
      exact ⟨⟨rfl, rfl⟩, rfl, rfl⟩
    · rintro ⟨⟨hstate, hfrontier⟩, hvisibility, hrevision⟩
      obtain ⟨readAsOf, readSubject, state, frontier, revision, visibility⟩ := read
      simp_all [SubjectRead.of]
  unfold implied
  rw [find_subject]
  cases hfind : s.projection.subjects.find? fun x => x.subject = id with
  | none =>
    have hvisibility : V1.visibility s.projection id asOf = some (.subjectUnknown, none) := by
      simp [V1.visibility, hfind]
    have hentity : entity s id asOf = some ⟨asOf, id, "", [], none, .subjectUnknown⟩ := by
      rw [entity, hvisibility, hfind]
      rfl
    simp only [hentity, Option.map_none, Option.some.injEq, exists_eq_left']
    rw [hread ⟨asOf, id, "", [], none, .subjectUnknown⟩ rfl rfl]
    split
    · next h => exact iff_of_true ⟨_, rfl⟩ ⟨⟨h.2.1, h.2.2.1⟩, h.1, h.2.2.2⟩
    · next h =>
      refine iff_of_false (fun hok => ?_) fun hall => h ⟨hall.2.1, hall.1.1, hall.1.2, hall.2.2⟩
      obtain ⟨detail, hdetail⟩ := hok
      cases hdetail
  | some reading =>
    obtain rfl : reading.subject = id := by simpa using List.find?_some hfind
    obtain ⟨v, revision, hentity, hshown⟩ := shown_of projected branch hfind asOf
    simp only [hentity, Option.map_some, hshown, Option.some.injEq, exists_eq_left']
    rw [hread ⟨asOf, reading.subject, reading.state.text, reading.frontier.toList, revision, v⟩
      rfl rfl]
    have hfrontier : (Subject.of reading).frontier = reading.frontier.toList := rfl
    have hstate : (Subject.of reading).state = reading.state.text := rfl
    rw [hfrontier, hstate]
    split
    · next h =>
      refine iff_of_false (fun hok => ?_) fun hall => h.elim (· hall.1.1) (· hall.1.2)
      obtain ⟨detail, hdetail⟩ := hok
      cases hdetail
    next h =>
    rw [not_or, not_not, not_not] at h
    split
    · next hdiffers =>
      refine iff_of_false (fun hok => ?_) fun hall =>
        hdiffers.elim (· hall.2.1) (· hall.2.2)
      obtain ⟨detail, hdetail⟩ := hok
      cases hdetail
    · next hsame =>
      rw [not_or, not_not, not_not] at hsame
      exact iff_of_true ⟨_, rfl⟩ ⟨h, hsame⟩

/-- The verifier accepts a read of a subject exactly when the node computes it. -/
theorem subjectRead_ok {w : Wording} {text : Option Value} {read : SubjectRead}
    (hread : text.bind subjectReadForm.get = some read) :
    (∃ detail, subjectRead w text (.of s) = .ok detail) ↔
      ∃ id asOf e, entity s id asOf = some e ∧ read = .of e := by
  have himplied : ∀ id asOf, read.subject = hex id → read.asOf = asOf.map hex →
      ((∃ detail, implied (.of s) read id asOf = .ok detail) ↔
        ∃ id asOf e, entity s id asOf = some e ∧ read = .of e) := by
    intro id asOf hsubject hasOf
    rw [implied_ok projected branch hsubject hasOf]
    constructor
    · rintro ⟨e, he, heq⟩
      exact ⟨id, asOf, e, he, heq⟩
    · rintro ⟨id', asOf', e, he, rfl⟩
      obtain ⟨rfl, rfl⟩ := entity_names he
      obtain rfl := Public.hex_injective hsubject
      obtain rfl := Option.map_injective Public.hex_injective hasOf
      exact ⟨e, he, rfl⟩
  have hrefused : ∀ detail : String, (hex32 read.subject = none ∨
      ∃ t, read.asOf = some t ∧ hex32 t = none) →
      ((∃ d, (.error detail : Except String String) = .ok d) ↔
        ∃ id asOf e, entity s id asOf = some e ∧ read = .of e) := by
    intro detail hbad
    refine iff_of_false (fun ⟨d, hd⟩ => nomatch hd) ?_
    rintro ⟨id, asOf, e, he, rfl⟩
    rcases hbad with hbad | ⟨t, ht, hbad⟩
    · nomatch (hex32_hex e.subject).symm.trans hbad
    · obtain ⟨q, -, rfl⟩ := Option.map_eq_some_iff.mp ht
      nomatch (hex32_hex q).symm.trans hbad
  unfold subjectRead
  simp only [hread]
  cases hsubject : hex32 read.subject with
  | none => exact hrefused _ (.inl hsubject)
  | some id =>
    rw [hex32_iff] at hsubject
    cases hasOf : read.asOf with
    | none => exact himplied id none hsubject hasOf
    | some t =>
      cases ht : hex32 t with
      | none => simpa only [Option.map_some, ht] using hrefused _ (.inr ⟨t, hasOf, ht⟩)
      | some q =>
        rw [hex32_iff] at ht
        have hsome := himplied id (some q) hsubject (hasOf.trans (congrArg some ht))
        simpa only [Option.map_some, ht, hex32_hex] using hsome

end

/-! ## Served reads -/

theorem namedForm_members : Members.Faithful (((field "rule" ruleForm).pair
    ((field "corpus_digest" .text).pair (field "commitment" .text))).record
    (fun (rule, corpusDigest, commitment) => Named.mk rule corpusDigest commitment)
    (fun n => (n.rule, n.corpusDigest, n.commitment))) :=
  ((field_faithful _ ruleForm_faithful).pair ((field_faithful _ Form.text_faithful).pair
    (field_faithful _ Form.text_faithful))).record fun _ => rfl

theorem subjectReadForm_members : Members.Faithful (((optional "as_of" .text).pair
    ((field "subject" .text).pair ((field "state" .text).pair ((field "frontier" (.list .text)).pair
      ((optional "revision" revisionForm).pair (field "visibility" .text)))))).record
    (fun (asOf, subject, state, frontier, revision, visibility) =>
      SubjectRead.mk asOf subject state frontier revision visibility)
    (fun r => (r.asOf, r.subject, r.state, r.frontier, r.revision, r.visibility))) :=
  ((optional_faithful _ (Form.text_faithful.option Form.text_solid)).pair
    ((field_faithful _ Form.text_faithful).pair ((field_faithful _ Form.text_faithful).pair
      ((field_faithful _ Form.text_faithful.list).pair
        ((optional_faithful _ (revisionForm_faithful.option (strict_solid _))).pair
          (field_faithful _ Form.text_faithful)))))).record fun _ => rfl

theorem proseReadForm_members : Members.Faithful (((field "revision" revisionForm).pair
    ((field "availability" .text).pair (optional "prose" .text))).record
    (fun (revision, availability, prose) => ProseRead.mk revision availability prose)
    (fun r => (r.revision, r.availability, r.prose))) :=
  ((field_faithful _ revisionForm_faithful).pair ((field_faithful _ Form.text_faithful).pair
    (optional_faithful _ (Form.text_faithful.option Form.text_solid)))).record fun _ => rfl

/-- The three names of a snapshot, among other members. -/
theorem namedForm_of {s : V1.Snapshot} {members : List (String × Value)}
    (hnodup : (members.map Prod.fst).Nodup) (h : Public.named s ⊆ members) :
    namedForm.get (.obj members) = some ⟨.of s.rule, hex s.corpusDigest, hex s.commitment⟩ :=
  namedForm_members.among hnodup h

theorem asOf_put (asOf : Option Hash) :
    Form.text.option.put (asOf.map hex) = Public.asOfJson asOf := by
  cases asOf <;> rfl

theorem revision_put (revision : Option V1.Revision) :
    revisionForm.option.put (revision.map .of) = Public.revisionJson revision := by
  cases revision <;> rfl

theorem proseJson_eq (s : V1.Snapshot) (r : V1.Revision) (a : Public.Availability) :
    Public.proseJson s r a = .obj ([("revision", revisionForm.put (.of r)),
      ("availability", .str a.text), ("prose", Form.text.option.put a.prose)] ++
        Public.named s) := by
  cases a <;> rfl

/-- The members of a served read of a subject that follow its names. -/
theorem subjectJson_eq (s : V1.Snapshot) (e : EntityRead) : Public.subjectJson s e =
    .obj (Public.named s ++ [("as_of", Form.text.option.put (e.asOf.map hex)),
      ("subject", .str (hex e.subject)), ("state", .str e.state),
      ("frontier", (Form.list .text).put (e.frontier.map hex)),
      ("revision", revisionForm.option.put (e.revision.map .of)),
      ("visibility", .str e.visibility.text)]) := by
  have hfrontier : (Form.list .text).put (e.frontier.map hex) =
      .arr (e.frontier.map fun h => .str (hex h)) := list_of (fun _ => rfl) _
  rw [Public.subjectJson, asOf_put, revision_put, hfrontier]

theorem subjectReadForm_of (s : V1.Snapshot) (e : EntityRead) :
    subjectReadForm.get (Public.subjectJson s e) = some (.of e) := by
  have hnames : ["rule", "corpus_digest", "commitment", "as_of", "subject", "state", "frontier",
    "revision", "visibility"].Nodup := by decide
  rw [subjectJson_eq]
  apply subjectReadForm_members.among
  · exact hnames
  · exact List.subset_append_right _ _

theorem subject_named (s : V1.Snapshot) (e : EntityRead) :
    namedForm.get (Public.subjectJson s e) =
      some ⟨.of s.rule, hex s.corpusDigest, hex s.commitment⟩ := by
  have hnames : ["rule", "corpus_digest", "commitment", "as_of", "subject", "state", "frontier",
    "revision", "visibility"].Nodup := by decide
  rw [subjectJson_eq]
  apply namedForm_of
  · exact hnames
  · exact List.subset_append_left _ _

theorem proseReadForm_of (s : V1.Snapshot) (r : V1.Revision) (a : Public.Availability) :
    proseReadForm.get (Public.proseJson s r a) = some ⟨.of r, a.text, a.prose⟩ := by
  have hnames : ["revision", "availability", "prose", "rule", "corpus_digest",
    "commitment"].Nodup := by decide
  rw [proseJson_eq]
  apply proseReadForm_members.among
  · exact hnames
  · exact List.subset_append_left _ _

theorem prose_named (s : V1.Snapshot) (r : V1.Revision) (a : Public.Availability) :
    namedForm.get (Public.proseJson s r a) =
      some ⟨.of s.rule, hex s.corpusDigest, hex s.commitment⟩ := by
  have hnames : ["revision", "availability", "prose", "rule", "corpus_digest",
    "commitment"].Nodup := by decide
  apply namedForm_of
  · exact hnames
  · exact List.subset_append_right _ _

theorem support_named (s : V1.Snapshot) (source target : Hash) (asOf : Option Hash)
    (v : V1.Support) : namedForm.get (Public.supportJson s source target asOf v) =
      some ⟨.of s.rule, hex s.corpusDigest, hex s.commitment⟩ := by
  have hnames :
      ["rule", "corpus_digest", "commitment", "as_of", "from", "to", "support"].Nodup := by
    decide
  apply namedForm_of
  · exact hnames
  · exact List.subset_append_left _ _

/-- A read the node answers at a snapshot. -/
inductive Answered (cr : Crypto) (n : Node) (s : V1.Snapshot) : Read → Prop where
  | subject {id : Hash} {asOf : Option Hash} {e : EntityRead} (h : entity s id asOf = some e) :
    Answered cr n s ⟨"subject", some (Public.subjectJson s e)⟩
  | prose {id : Hash} {r : V1.Revision} {a : Public.Availability}
    (h : proseOf cr n s id = .ok (r, a)) : Answered cr n s ⟨"prose", some (Public.proseJson s r a)⟩
  | support {source target : Hash} {asOf : Option Hash} {v : V1.Support}
    (h : Public.verdict s source target asOf = some v) :
    Answered cr n s ⟨"support", some (Public.supportJson s source target asOf v)⟩

theorem checkRead_named {cr : Crypto} {w : Wording} {read : Read} {s : V1.Snapshot}
    (h : read.body.bind namedForm.get =
      some ⟨.of s.rule, hex s.corpusDigest, hex s.commitment⟩) :
    (checkRead cr w read (.of s) true).status = .pass ↔
      ∃ detail, detailOf cr w read (.of s) = .ok detail := by
  have hsame : ¬ (RuleJson.of s.rule ≠ (Snapshot.of s).rule ∨
      hex s.corpusDigest ≠ (Snapshot.of s).corpusDigest ∨
      hex s.commitment ≠ (Snapshot.of s).commitment) := by
    rintro (h | h | h) <;> exact h rfl
  unfold checkRead
  simp only [h, Bool.not_true, Bool.false_eq_true, if_false]
  rw [if_neg hsame]
  cases hdetail : detailOf cr w read (.of s) with
  | ok d => exact iff_of_true rfl ⟨d, rfl⟩
  | error d =>
    refine iff_of_false (fun hpass => nomatch hpass) ?_
    rintro ⟨detail, hok⟩
    nomatch hok

theorem fromUTF8_bytes {bytes : Codec.Bytes} {prose : String}
    (h : String.fromUTF8? ⟨bytes.toArray⟩ = some prose) : prose.toUTF8.data.toList = bytes := by
  unfold String.fromUTF8? at h
  split at h
  · obtain rfl := Option.some.inj h
    rfl
  · nomatch h

/-- Prose the node serves is that of a revision of its projection. -/
theorem proseOf_available {cr : Crypto} {n : Node} {s : V1.Snapshot} {id : Hash} {r : V1.Revision}
    {a : Public.Availability} (h : proseOf cr n s id = .ok (r, a)) :
    r ∈ s.projection.revisions ∧ ∀ prose, a = .available prose →
      cr.sha256 prose.toUTF8.data.toList = r.body := by
  unfold proseOf at h
  cases hfind : s.projection.revisions.find? fun r => r.id = id with
  | none => simp [hfind] at h
  | some rev =>
    have hmem := List.mem_of_find?_eq_some hfind
    simp only [hfind] at h
    cases hbody : n.bodies[rev.body]? with
    | none =>
      simp only [hbody] at h
      obtain ⟨rfl, rfl⟩ := Prod.mk.inj (Except.ok.inj h)
      exact ⟨hmem, fun _ h => nomatch h⟩
    | some bytes =>
      simp only [hbody] at h
      split at h
      · nomatch h
      next hhash =>
      rw [not_not] at hhash
      cases htext : String.fromUTF8? ⟨bytes.toArray⟩ with
      | none =>
        simp only [htext] at h
        obtain ⟨rfl, rfl⟩ := Prod.mk.inj (Except.ok.inj h)
        exact ⟨hmem, fun _ h => nomatch h⟩
      | some text =>
        simp only [htext] at h
        obtain ⟨rfl, rfl⟩ := Prod.mk.inj (Except.ok.inj h)
        refine ⟨hmem, ?_⟩
        rintro prose ⟨⟩
        rw [fromUTF8_bytes htext, hhash]

theorem proseRead_of {cr : Crypto} {w : Wording} {n : Node} {s : V1.Snapshot} {id : Hash}
    {r : V1.Revision} {a : Public.Availability} (h : proseOf cr n s id = .ok (r, a)) :
    ∃ detail, proseRead cr w (some (Public.proseJson s r a)) (.of s) = .ok detail := by
  obtain ⟨hmem, hhash⟩ := proseOf_available h
  have hrevision : ¬ Revision.of r ∉ (Snapshot.of s).revisions :=
    not_not_intro (List.mem_map_of_mem hmem)
  unfold proseRead
  rw [Option.bind_some, proseReadForm_of]
  dsimp only
  rw [if_neg hrevision]
  cases a with
  | available prose => exact ⟨_, if_pos (hhash prose rfl)⟩
  | unavailable => exact ⟨_, rfl⟩
  | notUtf8 => exact ⟨_, rfl⟩

theorem Folds.projected {cr : Crypto} {signed : Verify} {n : Node} {all : BTreeMap Decoded}
    {s : V1.Snapshot} (h : Folds cr signed n all s) (free : n.Free cr signed) :
    ∃ C out A subjects, Projected cr C out A s.projection ∧ Verdicts cr C out subjects := by
  obtain ⟨out, subjects, A, p, -, verdicts, -, -, hp, projected⟩ :=
    V1.project_spec (free all h.verified)
  obtain ⟨p', hp', hs⟩ := Option.bind_eq_some_iff.mp h.folded
  obtain rfl : p' = p := Option.some.inj (hp'.symm.trans hp)
  have hprojection : s.projection = p' := by rw [← Option.some.inj hs]
  exact ⟨_, out, A, subjects, hprojection ▸ projected, verdicts⟩

/-- The node has a read of every subject. -/
theorem Folds.entity {cr : Crypto} {signed : Verify} {n : Node} {all : BTreeMap Decoded}
    {s : V1.Snapshot} (h : Folds cr signed n all s) (free : n.Free cr signed) (id : Hash)
    (asOf : Option Hash) : ∃ e, entity s id asOf = some e := by
  obtain ⟨C, out, A, subjects, projected, verdicts⟩ := h.projected free
  cases hfind : s.projection.subjects.find? fun x => x.subject = id with
  | none =>
    have hvisibility : V1.visibility s.projection id asOf = some (.subjectUnknown, none) := by
      rw [V1.visibility, hfind]
      rfl
    rw [Public.entity, hvisibility]
    exact ⟨_, rfl⟩
  | some reading =>
    have hid := List.find?_some hfind
    obtain rfl : reading.subject = id := of_decide_eq_true hid
    obtain ⟨v, revision, he, -⟩ := shown_of projected verdicts.branch hfind asOf
    exact ⟨_, he⟩

/-- What the node answers passes its check. -/
theorem Folds.answered {cr : Crypto} {signed : Verify} {w : Wording} {n : Node}
    {all : BTreeMap Decoded} {s : V1.Snapshot} (h : Folds cr signed n all s)
    (free : n.Free cr signed) {read : Read} (hread : Answered cr n s read) :
    (checkRead cr w read (.of s) true).status = .pass := by
  obtain ⟨C, out, A, subjects, projected, verdicts⟩ := h.projected free
  cases hread with
  | @subject id asOf e he =>
    refine (checkRead_named ?_).mpr ?_
    · exact subject_named s e
    · have hform : (some (Public.subjectJson s e)).bind subjectReadForm.get = some (.of e) :=
        subjectReadForm_of s e
      exact (subjectRead_ok projected verdicts.branch hform).mpr ⟨id, asOf, e, he, rfl⟩
  | prose hprose =>
    refine (checkRead_named ?_).mpr (proseRead_of hprose)
    exact prose_named _ _ _
  | support hverdict =>
    refine (checkRead_named ?_).mpr ⟨_, rfl⟩
    exact support_named _ _ _ _ _

/-! ## Honest nodes -/

/-- What a node serves of one snapshot. -/
def honest (cr : Crypto) (n : Node) (s : V1.Snapshot) (exported : Option ExportManifest)
    (reads : List Read) : Input where
  health := some (Public.healthBody cr n)
  snapshot := some (Public.snapshotJson s)
  exported := exported.map fun m => some (exportJson m)
  reads

section
variable {cr : Crypto} {signed : Verify} {w : Wording} {n : Node} {all : BTreeMap Decoded}
variable {s : V1.Snapshot} {exported : Option ExportManifest} {reads : List Read}

theorem Folds.verifies (h : Folds cr signed n all s) (free : n.Free cr signed)
    (governed : n.filter.isGoverned cr = true)
    (hexported : ∀ m ∈ exported, n.store.exportManifest cr signed n.tables none = some (.ok m))
    (hreads : ∀ read ∈ reads, Answered cr n s read) :
    Verifies cr signed w (honest cr n s exported reads) n.filter.fold (n.filter.version cr)
      (.of s) where
  identity := identity_of governed
  matched := by
    refine ⟨_, rfl, ?_, h.matches⟩
    rw [← snapshotForm_of, snapshotForm_faithful]
  signatures := by
    cases exported with
    | none => exact fun heq => nomatch heq
    | some m =>
      change (Verifier.signatures cr signed w (some (some (exportJson m))) _ _ _).1.status ≠ _
      rw [h.signatures (hexported m rfl)]
      split <;> exact fun heq => nomatch heq
  reads := fun read hread => h.answered free (hreads read hread)

/-- Everything is verified when the export is given too, unless there is nothing to verify. -/
theorem Folds.outcome (h : Folds cr signed n all s) (free : n.Free cr signed)
    (governed : n.filter.isGoverned cr = true)
    (hexported : ∀ m ∈ exported, n.store.exportManifest cr signed n.tables none = some (.ok m))
    (hreads : ∀ read ∈ reads, Answered cr n s read) :
    (verify cr signed w (honest cr n s exported reads)).outcome =
      if exported.isSome ∧ s.projection.rows ≠ [] then .verified else .partly := by
  have hverifies := h.verifies (w := w) free governed hexported hreads
  have hnot := verify_ok.mpr ⟨_, _, _, hverifies⟩
  have hrows : (Snapshot.of s).rows = [] ↔ s.projection.rows = [] := List.map_eq_nil_iff
  have hiff : (verify cr signed w (honest cr n s exported reads)).outcome = .verified ↔
      exported.isSome ∧ s.projection.rows ≠ [] := by
    rw [verify_verified]
    constructor
    · rintro ⟨fold, version, s', h', hsome, hpass⟩
      obtain ⟨rfl, rfl, rfl⟩ := hverifies.unique h'
      refine ⟨?_, fun hnil => hsome (hrows.mpr hnil)⟩
      cases exported with
      | none => nomatch hpass
      | some m => rfl
    · rintro ⟨hsome, hrow⟩
      refine ⟨_, _, _, hverifies, fun hnil => hrow (hrows.mp hnil), ?_⟩
      cases exported with
      | none => nomatch hsome
      | some m =>
        change (Verifier.signatures cr signed w (some (some (exportJson m))) _ _ _).1.status = _
        rw [h.signatures (hexported m rfl), if_neg fun hnil => hrow (hrows.mp hnil)]
  split
  · next hboth => exact hiff.mpr hboth
  · next hneither =>
    cases houtcome : (verify cr signed w (honest cr n s exported reads)).outcome with
    | verified => exact absurd (hiff.mp houtcome) hneither
    | partly => rfl
    | failed => exact absurd houtcome hnot

/-- The verifier recomputes the names of the snapshot. -/
theorem Verifies.recomputed {i : Input} {fold : V1.FoldRef} {version : Hash} {s : Snapshot}
    (h : Verifies cr signed w i fold version s) :
    hex version = s.rule.filterVersion ∧
      (verify cr signed w i).recomputed.filterVersion = some s.rule.filterVersion ∧
      (verify cr signed w i).recomputed.corpusDigest = some s.corpusDigest ∧
      (verify cr signed w i).recomputed.commitment = some s.commitment ∧
      (verify cr signed w i).recomputed.events = s.rows.length := by
  obtain ⟨served, -, hrun⟩ := h.run
  obtain ⟨served', -, -, hmatches⟩ := h.matched
  have hversion := hex32_iff.mp hmatches.filterVersion
  have hcorpus := hex32_iff.mp hmatches.corpus
  have hcommitment := hex32_iff.mp hmatches.commitment
  have hids := ids_toList hmatches.encoded.ascending
  have htrue : (eventIds cr s).2 = true := eventIds_true.mpr hmatches.encoded
  have hrecomputed : (verify cr signed w i).recomputed =
      (checkSnapshot cr signed w i (.named cr version) fold version served s).2 := by
    change (Verifier.run cr signed w i (initial cr)).2 = _
    rw [hrun]
  rw [hrecomputed]
  unfold checkSnapshot
  simp only [htrue, hids, hmatches.corpus, if_true, and_self, decide_true]
  refine ⟨hversion.symm, ?_, ?_, ?_, trivial⟩
  · rw [hversion]
    rfl
  · rw [← hcorpus]
  · rw [← hcommitment]

end

namespace Sample
open Public.Sample (adaNode adaNode_free)
open V1.Sample (ada adaCrypto adaId adaStore_bound adaVerify)

/-- What is said of a text that is no document is nothing. -/
def wording : Wording := ⟨fun _ _ => "", id⟩

/-- What a node that holds the event of `ada` serves. -/
theorem ada_served : ∃ d : Decoded, ∃ s m, V1.decode adaCrypto adaVerify d.bytes = .ok d ∧
    d.envelope = ada ∧ d.id = adaId ∧ (adaNode d).Free adaCrypto adaVerify ∧
    (adaNode d).store.snapshot adaCrypto adaVerify (adaNode d).tables none = some (.ok s) ∧
    (adaNode d).store.exportManifest adaCrypto adaVerify (adaNode d).tables none = some (.ok m) ∧
    s.projection.rows ≠ [] := by
  obtain ⟨d, hd, he, hid, -, -⟩ := V1.Sample.ada_decodes
  have free := adaNode_free hd he hid
  have sound := V1.Sample.adaTables_sound hd he
  obtain ⟨all, hall, -⟩ := V1.verified_spec sound
  obtain ⟨s, hof, -⟩ := V1.exists_snapshot (free all hall) (adaNode d).filter
  have bound := adaStore_bound [(d.id, d.bytes)]
  have hready := (adaStore_bound [(d.id, d.bytes)]).ready (by simp : ∀ fold ∈ none, fold = _)
  have hs := V1.snapshot_ok hready hall hof
  obtain ⟨row, hrow, -⟩ := V1.snapshot_row hs (V1.Sample.adaTables_mem.mpr rfl)
  exact ⟨d, s, _, hd, he, hid, free, hs, bound.exportManifest hall hof, List.ne_nil_of_mem hrow⟩

end Sample

/-- What a node serves of one snapshot is verified: the rows rebuilt from it are the canonical rows
of the node, every read that is answered agrees, and what is recomputed is what is served. -/
theorem honest_verifies (cr : Crypto) (signed : Verify) (w : Wording) (n : Node)
    (free : n.Free cr signed) (governed : n.filter.isGoverned cr = true) (s : V1.Snapshot)
    (hs : n.store.snapshot cr signed n.tables none = some (.ok s))
    (exported : Option ExportManifest)
    (hexported : ∀ m ∈ exported, n.store.exportManifest cr signed n.tables none = some (.ok m))
    (reads : List Read) (hreads : ∀ read ∈ reads, Answered cr n s read) :
    (∃ served, snapshotForm.get (Public.snapshotJson s) = some served ∧
      (CanonicalRows.of served).bytes = V1.canonicalRows s.projection) ∧
    (verify cr signed w (honest cr n s exported reads)).outcome =
      (if exported.isSome ∧ s.projection.rows ≠ [] then .verified else .partly) ∧
    (verify cr signed w (honest cr n s exported reads)).recomputed.filterVersion =
      some (hex (n.filter.version cr)) ∧
    (verify cr signed w (honest cr n s exported reads)).recomputed.corpusDigest =
      some (hex s.corpusDigest) ∧
    (verify cr signed w (honest cr n s exported reads)).recomputed.commitment =
      some (hex s.commitment) := by
  obtain ⟨all, folds⟩ := snapshot_folded free hs
  have hverifies := folds.verifies (w := w) free governed hexported hreads
  obtain ⟨hversion, hfilter, hcorpus, hcommitment, -⟩ := hverifies.recomputed
  refine ⟨⟨.of s, ?_, canonicalRows_of s⟩, folds.outcome free governed hexported hreads, ?_,
    hcorpus, hcommitment⟩
  · rw [← snapshotForm_of, snapshotForm_faithful]
  · rw [hfilter, hversion]

theorem honest_verifies_ada : ∃ (d : Decoded) (i : Input), d.envelope = V1.Sample.ada ∧
    i.health = some (Public.healthBody V1.Sample.adaCrypto (Public.Sample.adaNode d)) ∧
    i.reads.length = 1 ∧
    (verify V1.Sample.adaCrypto V1.Sample.adaVerify Sample.wording i).outcome = .verified := by
  obtain ⟨d, s, m, -, he, -, free, hs, hm, hrows⟩ := Sample.ada_served
  obtain ⟨all, folds⟩ := snapshot_folded free hs
  obtain ⟨e, hentity⟩ := folds.entity free V1.Sample.adaId none
  obtain ⟨-, houtcome, -⟩ := honest_verifies V1.Sample.adaCrypto V1.Sample.adaVerify
    Sample.wording (Public.Sample.adaNode d) free V1.Sample.adaFilter_governed s hs (some m)
    (fun m' hm' => Option.some.inj hm' ▸ hm) [⟨"subject", some (Public.subjectJson s e)⟩]
    (fun read hread => List.mem_singleton.mp hread ▸ .subject hentity)
  rw [if_pos ⟨rfl, hrows⟩] at houtcome
  exact ⟨d, _, he, rfl, rfl, houtcome⟩

/-- The verifier accepts a read of a subject exactly when it is the one the node computes. -/
theorem subject_read_agrees (cr : Crypto) (signed : Verify) (w : Wording) (n : Node)
    (free : n.Free cr signed) (s : V1.Snapshot)
    (hs : n.store.snapshot cr signed n.tables none = some (.ok s)) (text : Option Value)
    (read : SubjectRead) (hread : text.bind subjectReadForm.get = some read) :
    (∃ detail, subjectRead w text (.of s) = .ok detail) ↔
      ∃ id asOf e, entity s id asOf = some e ∧ read = .of e := by
  obtain ⟨all, folds⟩ := snapshot_folded free hs
  obtain ⟨C, out, A, subjects, projected, verdicts⟩ := folds.projected free
  exact subjectRead_ok projected verdicts.branch hread

theorem subject_read_agrees_ada : ∃ (d : Decoded) (s : V1.Snapshot) (e : EntityRead),
    d.envelope = V1.Sample.ada ∧ entity s V1.Sample.adaId none = some e ∧
    ∃ detail, subjectRead Sample.wording (some (Public.subjectJson s e)) (.of s) = .ok detail := by
  obtain ⟨d, s, m, -, he, -, free, hs, -⟩ := Sample.ada_served
  obtain ⟨all, folds⟩ := snapshot_folded free hs
  obtain ⟨e, hentity⟩ := folds.entity free V1.Sample.adaId none
  have hread : (some (Public.subjectJson s e)).bind subjectReadForm.get = some (.of e) :=
    subjectReadForm_of s e
  exact ⟨d, s, e, he, hentity, (subject_read_agrees V1.Sample.adaCrypto V1.Sample.adaVerify
    Sample.wording (Public.Sample.adaNode d) free s hs _ _ hread).mpr ⟨_, _, e, hentity, rfl⟩⟩

end Clockchain.Verifier
