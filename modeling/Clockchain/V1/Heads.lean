import Clockchain.V1.Verdict

/-!
# Rows of heads

What the rows of a projection hold of its subjects: a Genesis with the key it has signed, and at the
only head of a resolved subject the revision that is current.
-/

namespace Clockchain.V1
open Maps Programs
set_option autoImplicit false

theorem headerOffence_key {e : Envelope} (h : headerOffence e = none)
    (hkind : e.payload.kind = .genesis) : ∃ key, e.subjectKey = some key := by
  unfold headerOffence at h
  dsimp only at h
  rw [if_pos hkind] at h
  split_ifs at h with hprecision hgenesis
  simp only [Bool.and_eq_true] at hgenesis
  exact Option.isSome_iff_exists.mp hgenesis.2

theorem evaluate_key {cr : Crypto} {C : Candidates} {out : BTreeMap Status} {id : Hash}
    {t : Signed} {status : Status} (ht : C[id]? = some t)
    (h : evaluate cr id C out = some status) (hvalid : status.state = .valid)
    (hkind : t.envelope.payload.kind = .genesis) : ∃ key, t.envelope.subjectKey = some key := by
  simp only [evaluate, ht, Option.bind_eq_bind, Option.bind_some] at h
  cases hheader : headerOffence t.envelope with
  | some reason =>
    simp only [hheader] at h
    simp [← Option.some.inj h] at hvalid
  | none => exact headerOffence_key hheader hkind

section
variable {cr : Crypto} {C : Candidates} {out : BTreeMap Status} {A : Authority} {p : Projection}
variable (projected : Projected cr C out A p)
include projected

theorem genesis_row {s : Subjects} (verdicts : Verdicts cr C out s) {reading : SubjectReading}
    (h : reading ∈ p.subjects) :
    ∃ row ∈ p.rows, row.event = reading.subject ∧ row.envelope.payload.kind = .genesis ∧
      ∃ key, row.envelope.subjectKey = some key := by
  have hmem : reading.subject ∈ genesesOf (validOf C out) := by
    rw [← projected.named]
    exact List.mem_map_of_mem h
  obtain ⟨t, ht, hkind⟩ := genesesOf_mem.mp hmem
  obtain ⟨htC, hsubject, st, hst, hvalid⟩ := validOf_get.mp ht
  have hevaluated := verdicts.subject htC hsubject (verdicts.valid_settled htC hsubject hst hvalid)
  have hkey := evaluate_key htC (hevaluated.trans hst) hvalid hkind
  obtain ⟨row, hrow, hevent⟩ := projected.row_exists (mem_of_getElem? htC)
  obtain ⟨u, _, hu, _, henvelope, _⟩ := (projected.rows row hrow).known
  rw [hevent, htC] at hu
  obtain rfl := Option.some.inj hu
  exact ⟨row, hrow, hevent, henvelope ▸ hkind, henvelope ▸ hkey⟩

variable (branch : Branch cr C (validOf C out))
include branch

theorem row_revision {row : EventReading} (hrow : row ∈ p.rows) {t : Signed}
    (ht : (validOf C out)[row.event]? = some t) :
    ∃ rev ∈ p.revisions, row.revision = some rev.id ∧ rev.subject = subjectOf row.event t := by
  have reads := projected.rows row hrow
  obtain ⟨r, hr⟩ := Option.isSome_iff_exists.mp (reads.revision.mpr (mem_of_getElem? ht))
  obtain ⟨c, u, hselects, hu, rfl⟩ := reads.selected hr
  obtain ⟨u', hu', hbody⟩ := hselects.creator
  obtain rfl := Option.some.inj (hu.symm.trans hu')
  have hsubject := (branch.subject_anc ht hu (branch.selects_anc (mem_of_getElem? ht) hselects)).1
  obtain ⟨body, hbody⟩ := Option.isSome_iff_exists.mp hbody
  obtain ⟨rev, hrev⟩ : ∃ rev, revisionOf cr c u = some rev := by
    rw [revisionOf, hbody]
    exact ⟨_, rfl⟩
  obtain ⟨hid, _, hown, _⟩ := revisionOf_some hrev
  refine ⟨rev, ?_, hid ▸ hr, hown.trans hsubject⟩
  rw [projected.revisions]
  exact List.mem_map.mpr ⟨(_, _), Std.ExtTreeMap.mem_toList_iff_getElem?_eq_some.mpr
    ((revisions_get branch.free_within).mpr ⟨c, u, hu, hrev, rfl⟩), rfl⟩

/-- A resolved subject has one head, whose row names a revision of the subject. -/
theorem resolved_head {reading : SubjectReading} (h : reading ∈ p.subjects)
    (hstate : reading.state = .resolved) : ∃ head, reading.frontier.toList = [head] ∧
      ∃ row ∈ p.rows, row.event = head ∧ ∃ rev ∈ p.revisions, row.revision = some rev.id ∧
        rev.subject = reading.subject := by
  have reads := projected.subjects reading h
  obtain ⟨head, heads, hcons, hsingle⟩ := single_head reads.frontier (reads.state.symm.trans hstate)
  have hhead : head ∈ reading.frontier := Std.ExtTreeSet.mem_toList.mp (by simp [hcons])
  obtain ⟨⟨t, ht, hsubject⟩, _⟩ := (reads.frontier head).mp hhead
  have hlone : heads = [] := by
    have hnodup : (head :: heads).Nodup := hcons ▸ nodup_toList reading.frontier
    refine List.eq_nil_iff_forall_not_mem.mpr fun x hx => ?_
    have hmem : x ∈ reading.frontier := Std.ExtTreeSet.mem_toList.mp (by simp [hcons, hx])
    have hsame : x = head := by
      have := (reads.frontier x).mp hmem
      rwa [hsingle] at this
    exact (List.nodup_cons.mp hnodup).1 (hsame ▸ hx)
  obtain ⟨row, hrow, hevent⟩ := projected.row_exists (branch.within.mem (mem_of_getElem? ht))
  obtain ⟨rev, hrev, hid, hown⟩ := row_revision projected branch hrow (hevent ▸ ht)
  refine ⟨head, hlone ▸ hcons, row, hrow, hevent, rev, hrev, hid, ?_⟩
  rw [hown, hevent]
  exact hsubject

/-- A resolved subject shows the revision at its head. -/
theorem visibility_resolved {reading : SubjectReading} (h : reading ∈ p.subjects)
    (hstate : reading.state = .resolved) {head : Hash} (hcons : reading.frontier.toList = [head])
    {row : EventReading} (hrow : row ∈ p.rows) (hevent : row.event = head) {rev : Revision}
    (hrev : rev ∈ p.revisions) (hid : row.revision = some rev.id) (asOf : Option Hash) :
    ∃ v, visibility p reading.subject asOf = some (v, some rev) ∧ (asOf = none → v = .visible) := by
  have hfind := find?_named projected.subjects_nodup h
  have hfindRow := find?_named projected.rows_nodup hrow
  have hfindRev := find?_named (projected.revisions_nodup branch) hrev
  rw [hevent] at hfindRow
  simp only [visibility, hfind, hstate, hcons, List.head?_cons, hfindRow, hid, ne_eq,
    not_true_eq_false, if_false, Option.bind_eq_bind, Option.bind_some, Option.some.injEq, hfindRev]
  refine ⟨_, rfl, ?_⟩
  rintro rfl
  rfl

omit branch in
theorem visibility_unresolved {reading : SubjectReading} (h : reading ∈ p.subjects)
    (hstate : reading.state ≠ .resolved) (asOf : Option Hash) :
    visibility p reading.subject asOf = some (.subject reading.state, none) := by
  have hfind := find?_named projected.subjects_nodup h
  simp only [visibility, hfind]
  rw [if_pos hstate]
  rfl

/-- A revision that is shown is one of the subject. -/
theorem visibility_subject {subject : Hash} {asOf : Option Hash} {v : Visibility} {rev : Revision}
    (h : visibility p subject asOf = some (v, some rev)) : rev.subject = subject := by
  cases hfind : p.subjects.find? fun s => s.subject = subject with
  | none =>
    unfold visibility at h
    simp [hfind] at h
  | some reading =>
    have hreading := List.mem_of_find?_eq_some hfind
    obtain rfl : reading.subject = subject := by simpa using List.find?_some hfind
    by_cases hstate : reading.state = .resolved
    · obtain ⟨head, hcons, row, hrow, hevent, rev', hrev', hid, hown⟩ :=
        resolved_head projected branch hreading hstate
      obtain ⟨v', hshown, _⟩ :=
        visibility_resolved projected branch hreading hstate hcons hrow hevent hrev' hid asOf
      rw [hshown, Option.some.injEq, Prod.mk.injEq, Option.some.injEq] at h
      rw [← h.2, hown]
    · rw [visibility_unresolved projected hreading hstate asOf] at h
      simp at h

end

end Clockchain.V1
