import Clockchain.Public.Decoding
import Clockchain.V1.Heads

/-!
# Summaries

`summarize_subjects` of a snapshot that a client has decoded: one summary for each subject, with the
key its Genesis has signed and, if it is resolved, the revision it shows.
-/

namespace Clockchain.Public
open Json (Value)
open V1 (Hash Crypto Candidates Status BTreeMap Authority Projected Branch Verdicts EventReading)
open V1.Publisher (hex)
set_option autoImplicit false

/-! ## Entries -/

section
variable {α : Type} {entries : List (String × α)} {key : String} {a : α}

theorem lastOf_of_mem (hnodup : (entries.map Prod.fst).Nodup) (h : (key, a) ∈ entries) :
    lastOf entries key = some a := by
  obtain ⟨before, after, rfl⟩ := List.append_of_mem h
  rw [List.map_append, List.map_cons, List.nodup_append', List.nodup_cons] at hnodup
  rw [lastOf, List.lookup_eq_some_iff]
  refine ⟨after.reverse, before.reverse, by simp, fun p hp => bne_iff_ne.2 fun heq => ?_⟩
  have hmem : p.1 ∈ after.map Prod.fst := List.mem_map_of_mem (List.mem_reverse.1 hp)
  exact hnodup.2.1.1 (heq ▸ hmem)

end

/-- The fields of a snapshot under the hashes they are of. -/
theorem named_nodup {α β : Type} {xs : List α} {name : α → Hash} {view : α → β}
    (hnodup : (xs.map name).Nodup) :
    ((xs.map fun x => (hex (name x), view x)).map Prod.fst).Nodup := by
  have hnames : (xs.map fun x => (hex (name x), view x)).map Prod.fst = (xs.map name).map hex := by
    rw [List.map_map, List.map_map]
    rfl
  rw [hnames]
  exact hnodup.map hex_injective

/-! ## Rows -/

section
variable (r : EventReading)

theorem rowEntry_row : rowEntry (V1.ViewRows.eventReading r) =
    .ok (hex r.event, V1.ViewRows.eventReading r) := by
  have hobject : isObject (V1.ViewRows.eventReading r) = true := rfl
  have hevent : arr (V1.ViewRows.eventReading r) "event" =
      .ok ((Codec.beBytes 32 r.event.toNat).map fun b => .num b.toNat) := rfl
  rw [rowEntry, hobject, hevent]
  simp only [bind, Except.bind, bytesHash_hash]
  rfl

def SubjectKey.of (k : V1.SubjectKey) : SubjectKey := ⟨k.kind, k.nameSpace, k.value⟩

theorem genesisKey_row {rows : List (String × Value)} {subject : String} {key : V1.SubjectKey}
    (hrow : lastOf rows subject = some (V1.ViewRows.eventReading r))
    (hgenesis : r.envelope.payload.kind = .genesis) (hkey : r.envelope.subjectKey = some key) :
    genesisKey rows subject = .ok (.of key) := by
  have henvelope : obj (V1.ViewRows.eventReading r) "envelope" =
      .ok (V1.ViewRows.envelope.put r.envelope) := rfl
  have hpayload : obj (V1.ViewRows.envelope.put r.envelope) "payload" =
      .ok (V1.ViewRows.payload.put r.envelope.payload) := by
    have hfield : field (V1.ViewRows.envelope.put r.envelope) "payload" =
        .ok (V1.ViewRows.payload.put r.envelope.payload) := rfl
    rw [obj, hfield]
    cases r.envelope.payload <;> rfl
  have hsigned : hasKey (V1.ViewRows.payload.put r.envelope.payload) "Genesis" = true := by
    cases hp : r.envelope.payload with
    | genesis => rfl
    | _ => simp [hp, V1.Payload.kind] at hgenesis
  have hsubject : obj (V1.ViewRows.envelope.put r.envelope) "subject_key" =
      .ok (V1.ViewRows.subjectKey.put key) := by
    have hfield : field (V1.ViewRows.envelope.put r.envelope) "subject_key" =
        .ok (V1.ViewRows.subjectKey.option.put r.envelope.subjectKey) := rfl
    rw [obj, hfield, hkey]
    rfl
  rw [genesisKey, hrow]
  simp only [henvelope, hpayload, hsigned, hsubject, bind, Except.bind]
  rfl

theorem rowRevision_row {revisions : List (String × Revision)} {rev : Revision} {id : Hash}
    (hid : r.revision = some id) (hrev : lastOf revisions (hex id) = some rev) :
    rowRevision revisions (some (V1.ViewRows.eventReading r)) = .ok (some rev) := by
  have hfield : field (V1.ViewRows.eventReading r) "revision" =
      .ok (V1.ViewRows.hash.option.put r.revision) := rfl
  have hitems : optArr (V1.ViewRows.eventReading r) "revision" =
      .ok (some ((Codec.beBytes 32 id.toNat).map fun b => .num b.toNat)) := by
    rw [optArr, hfield, hid]
    rfl
  simp only [rowRevision, hitems, bytesHash_hash, hrev, bind, Except.bind, pure, Except.pure]

end

/-! ## Subjects -/

/-- What a summary of a subject holds. -/
structure Summarizes (p : V1.Projection) (r : V1.SubjectReading) (s : SubjectSummary) : Prop where
  subject : s.subject = hex r.subject
  state : s.state = r.state.text
  resolved : s.revision.isSome ↔ r.state = .resolved
  key : ∃ row ∈ p.rows, row.event = r.subject ∧ ∃ k, row.envelope.subjectKey = some k ∧
    s.key = .of k
  revision : ∃ v rev, V1.visibility p r.subject none = some (v, rev) ∧ s.revision = rev.map .of

section
variable {cr : Crypto} {C : Candidates} {out : BTreeMap Status} {A : Authority}
variable {p : V1.Projection} {s : V1.Subjects} (projected : Projected cr C out A p)
variable (verdicts : Verdicts cr C out s)
include projected verdicts

theorem summarizeSubject_reading {r : V1.SubjectReading} (hr : r ∈ p.subjects) :
    ∃ x, summarizeSubject (p.rows.map fun row => (hex row.event, V1.ViewRows.eventReading row))
      (p.revisions.map fun rev => (hex rev.id, Revision.of rev)) (V1.ViewRows.subjectReading r) =
        .ok x ∧ Summarizes p r x := by
  have branch := verdicts.branch
  have hlast : ∀ row ∈ p.rows, lastOf (p.rows.map fun row =>
      (hex row.event, V1.ViewRows.eventReading row)) (hex row.event) =
        some (V1.ViewRows.eventReading row) := fun row hrow =>
    lastOf_of_mem (named_nodup projected.rows_nodup) (List.mem_map_of_mem hrow)
  have hlastRev : ∀ rev ∈ p.revisions, lastOf (p.revisions.map fun rev =>
      (hex rev.id, Revision.of rev)) (hex rev.id) = some (Revision.of rev) := fun rev hrev =>
    lastOf_of_mem (named_nodup (projected.revisions_nodup branch)) (List.mem_map_of_mem hrev)
  obtain ⟨row, hrow, hevent, hgenesis, k, hk⟩ := V1.genesis_row projected verdicts hr
  have hkey := genesisKey_row row (hlast row hrow) hgenesis hk
  rw [hevent] at hkey
  have hobject : isObject (V1.ViewRows.subjectReading r) = true := rfl
  have hsubject : arr (V1.ViewRows.subjectReading r) "subject" =
      .ok ((Codec.beBytes 32 r.subject.toNat).map fun b => .num b.toNat) := rfl
  have hstate : str (V1.ViewRows.subjectReading r) "state" = .ok r.state.text := rfl
  have hfrontier : arr (V1.ViewRows.subjectReading r) "frontier" =
      .ok (r.frontier.toList.map V1.ViewRows.hash.put) := rfl
  have htext : r.state.text = "resolved" ↔ r.state = .resolved := by
    cases r.state <;> simp [V1.SubjectState.text]
  rw [summarizeSubject, hobject]
  simp only [bind, Except.bind, hsubject, bytesHash_hash, hstate, hkey, htext, hfrontier]
  by_cases hresolved : r.state = .resolved
  · obtain ⟨head, hcons, headRow, hheadRow, hhead, rev, hrev, hid, hown⟩ :=
      V1.resolved_head projected branch hr hresolved
    obtain ⟨v, hvisible, _⟩ := V1.visibility_resolved projected branch hr hresolved hcons hheadRow
      hhead hrev hid none
    have hcurrent := rowRevision_row headRow hid (hlastRev rev hrev)
    rw [← hlast headRow hheadRow, hhead] at hcurrent
    have hname : (Revision.of rev).subject = hex r.subject := congrArg hex hown
    have hrevision : headRevision
        (p.rows.map fun row => (hex row.event, V1.ViewRows.eventReading row))
        (p.revisions.map fun rev => (hex rev.id, Revision.of rev)) (hex r.subject)
        [V1.ViewRows.hash.put head] = .ok (.of rev) := by
      simp only [headRevision, bytesHashOf_hash, bind, Except.bind, hcurrent, hname, if_true]
      rfl
    rw [hcons, List.map_singleton]
    simp only [hresolved, if_true, hrevision]
    exact ⟨_, rfl, rfl, congrArg V1.SubjectState.text hresolved.symm, by simp [hresolved],
      ⟨row, hrow, hevent, k, hk, rfl⟩, v, some rev, hvisible, rfl⟩
  · rw [if_neg hresolved]
    exact ⟨_, rfl, rfl, rfl, by simp [hresolved], ⟨row, hrow, hevent, k, hk, rfl⟩, _, none,
      V1.visibility_unresolved projected hr hresolved none, rfl⟩

/-- Every subject of a decoded snapshot is summarized, in order. -/
theorem summarize_snapshot {snapshot : V1.Snapshot} (hp : snapshot.projection = p) :
    ∃ xs, summarizeSubjects (.of snapshot) = .ok xs ∧
      List.Forall₂ (Summarizes p) p.subjects xs := by
  have hrows : (p.rows.map V1.ViewRows.eventReading).mapM rowEntry =
      .ok (p.rows.map fun row => (hex row.event, V1.ViewRows.eventReading row)) :=
    decodes_list fun row _ => rowEntry_row row
  have hrevisions : ((p.revisions.map Revision.of).map fun r => (r.id, r)) =
      p.revisions.map fun rev => (hex rev.id, Revision.of rev) := by
    rw [List.map_map]
    rfl
  have hsubjects : ∀ rs : List V1.SubjectReading, (∀ r ∈ rs, r ∈ p.subjects) → ∃ xs,
      (rs.map V1.ViewRows.subjectReading).mapM (summarizeSubject
        (p.rows.map fun row => (hex row.event, V1.ViewRows.eventReading row))
        (p.revisions.map fun rev => (hex rev.id, Revision.of rev))) = .ok xs ∧
        List.Forall₂ (Summarizes p) rs xs := by
    intro rs hrs
    induction rs with
    | nil => exact ⟨[], rfl, .nil⟩
    | cons r rs ih =>
      obtain ⟨x, hx, hsummary⟩ :=
        summarizeSubject_reading projected verdicts (hrs r List.mem_cons_self)
      obtain ⟨xs, hxs, hall⟩ := ih fun y hy => hrs y (List.mem_cons_of_mem r hy)
      refine ⟨x :: xs, ?_, .cons hsummary hall⟩
      rw [List.map_cons, List.mapM_cons, hx, hxs]
      rfl
  obtain ⟨xs, hxs, hall⟩ := hsubjects p.subjects fun r hr => hr
  refine ⟨xs, ?_, hall⟩
  subst hp
  simp only [summarizeSubjects, Snapshot.of, hrows, hrevisions, bind, Except.bind, hxs]

end

end Clockchain.Public
