import Clockchain.Verifier.Binding

/-!
# Reproduced rows

The verifier rebuilds from a served snapshot the rows a node commits to, and recomputes its subject
reads. An empty store has nothing to verify, so that its export never reads as a pass.
-/

namespace Clockchain.Verifier
open Json
open Public (Node entity)
open V1 (BTreeMap Crypto Decoded ExportManifest Verify)
set_option autoImplicit false

namespace Sample
open V1.Sample (adaCrypto adaFilter adaFilter_governed adaStore_bound adaTables adaVerify)

/-- A node that holds nothing. -/
def newNode : Node := ⟨1, adaFilter, "ada", .live, .ready, adaTables [], ∅⟩

theorem newNode_served : newNode.Free adaCrypto adaVerify ∧ ∃ s m,
    newNode.store.snapshot adaCrypto adaVerify newNode.tables none = some (.ok s) ∧
    newNode.store.exportManifest adaCrypto adaVerify newNode.tables none = some (.ok m) ∧
    s.projection.rows = [] := by
  have hnone : ∀ r, r ∉ (adaTables []).candidates := fun r hr => by simp [adaTables] at hr
  have sound : newNode.store.Sound adaCrypto adaVerify (adaTables []) := by
    refine ⟨fun {id wire} h => absurd (Maps.mem_of_getElem? h) (hnone id), fun h => ?_⟩
    simp [adaTables] at h
  have free : newNode.Free adaCrypto adaVerify := by
    intro all hall
    refine V1.Sample.ada_free fun r hr => ?_
    rw [V1.mem_candidatesOf, V1.verified_mem sound hall] at hr
    exact absurd hr (hnone r)
  obtain ⟨all, hall, -⟩ := V1.verified_spec sound
  obtain ⟨s, hof, -⟩ := V1.exists_snapshot (free all hall) adaFilter
  have bound := adaStore_bound []
  have hs := V1.snapshot_ok (bound.ready (by simp : ∀ fold ∈ none, fold = _)) hall hof
  refine ⟨free, s, _, hs, bound.exportManifest hall hof, ?_⟩
  obtain ⟨all', folds⟩ := snapshot_folded (n := newNode) free hs
  obtain rfl := Except.ok.inj (hall.symm.trans folds.verified)
  rw [← List.map_eq_nil_iff (f := V1.EventReading.event), folds.events,
    List.eq_nil_iff_forall_not_mem]
  intro r hr
  rw [Std.ExtTreeMap.mem_keys, V1.verified_mem sound hall] at hr
  exact hnone r hr

end Sample

/-- The export of a node that holds nothing is given, and the report is partial. -/
theorem nothing_verified : ∃ s m,
    Sample.newNode.store.snapshot V1.Sample.adaCrypto V1.Sample.adaVerify Sample.newNode.tables
      none = some (.ok s) ∧
    Sample.newNode.store.exportManifest V1.Sample.adaCrypto V1.Sample.adaVerify
      Sample.newNode.tables none = some (.ok m) ∧
    (verify V1.Sample.adaCrypto V1.Sample.adaVerify Sample.wording
      (honest V1.Sample.adaCrypto Sample.newNode s (some m) [])).outcome ≠ .verified := by
  obtain ⟨free, s, m, hs, hm, hrows⟩ := Sample.newNode_served
  obtain ⟨all, folds⟩ := snapshot_folded free hs
  refine ⟨s, m, hs, hm, ?_⟩
  rw [folds.outcome free V1.Sample.adaFilter_governed
    (fun m' hm' => Option.some.inj hm' ▸ hm) fun read hread => absurd hread List.not_mem_nil]
  rw [if_neg fun h => h.2 hrows]
  decide

/-- The rows rebuilt from what a node serves are those it commits to, and the reads recomputed from
them are those it answers; rows that differ have different bytes. -/
theorem rows_reproduced (cr : Crypto) (signed : Verify) (w : Wording) (n : Node)
    (free : n.Free cr signed) (governed : n.filter.isGoverned cr = true) (s : V1.Snapshot)
    (hs : n.store.snapshot cr signed n.tables none = some (.ok s))
    (exported : Option ExportManifest)
    (hexported : ∀ m ∈ exported, n.store.exportManifest cr signed n.tables none = some (.ok m)) :
    (∃ served, snapshotForm.get (Public.snapshotJson s) = some served ∧
      (CanonicalRows.of served).bytes = V1.canonicalRows s.projection ∧
      ∀ id asOf, ∃ e, entity s id asOf = some e ∧ ∀ (text : Option Value) (read : SubjectRead),
        text.bind subjectReadForm.get = some read → read.subject = V1.Publisher.hex id →
          read.asOf = asOf.map V1.Publisher.hex →
            ((∃ detail, subjectRead w text served = .ok detail) ↔ read = .of e)) ∧
    (verify cr signed w (honest cr n s exported [])).outcome =
      (if exported.isSome ∧ s.projection.rows ≠ [] then .verified else .partly) ∧
    ∀ s₁ s₂ : Snapshot, (CanonicalRows.of s₁).bytes = (CanonicalRows.of s₂).bytes →
      s₁.rows = s₂.rows ∧ s₁.revisions = s₂.revisions ∧ s₁.subjects = s₂.subjects ∧
        s₁.authority = s₂.authority ∧ s₁.edges = s₂.edges ∧ s₁.media = s₂.media := by
  obtain ⟨all, folds⟩ := snapshot_folded free hs
  obtain ⟨C, out, A, subjects, projected, verdicts⟩ := folds.projected free
  refine ⟨⟨.of s, ?_, canonicalRows_of s, fun id asOf => ?_⟩,
    folds.outcome free governed hexported fun read hread => absurd hread List.not_mem_nil,
    fun s₁ s₂ h => CanonicalRows.of_inj (CanonicalRows.bytes_injective h)⟩
  · rw [← snapshotForm_of, snapshotForm_faithful]
  · obtain ⟨e, he⟩ := folds.entity free id asOf
    refine ⟨e, he, fun text read hread hsubject hasOf => ?_⟩
    rw [subjectRead_ok projected verdicts.branch hread]
    constructor
    · rintro ⟨id', asOf', e', he', rfl⟩
      obtain ⟨rfl, rfl⟩ := entity_names he'
      obtain rfl := Public.hex_injective hsubject
      obtain rfl := Option.map_injective Public.hex_injective hasOf
      rw [Option.some.inj (he'.symm.trans he)]
    · rintro rfl
      exact ⟨id, asOf, e, he, rfl⟩

/-- The node that holds the event of `ada` is verified by its export, and its rows are rebuilt. -/
theorem rows_reproduced_ada : ∃ (d : Decoded) (s : V1.Snapshot) (i : Input) (served : Snapshot),
    d.envelope = V1.Sample.ada ∧ s.projection.rows ≠ [] ∧
    (CanonicalRows.of served).bytes = V1.canonicalRows s.projection ∧
    i.snapshot = some (Public.snapshotJson s) ∧
    (verify V1.Sample.adaCrypto V1.Sample.adaVerify Sample.wording i).outcome = .verified := by
  obtain ⟨d, s, m, -, he, -, free, hs, hm, hrows⟩ := Sample.ada_served
  obtain ⟨⟨served, -, hbytes, -⟩, houtcome, -⟩ := rows_reproduced V1.Sample.adaCrypto
    V1.Sample.adaVerify Sample.wording (Public.Sample.adaNode d) free
    V1.Sample.adaFilter_governed s hs (some m) (fun m' hm' => Option.some.inj hm' ▸ hm)
  rw [if_pos ⟨rfl, hrows⟩] at houtcome
  exact ⟨d, s, _, served, he, hrows, hbytes, rfl, houtcome⟩

end Clockchain.Verifier
