import Clockchain.V1.Restore

/-!
# Replicas

Any number of stores of one instance and rule, fed through `admit_observed`, `retain_receipt` and
`restore_export` in any order. What a replica serves is a function of the ids it retains, and two
replicas that restore each other's exports serve the same snapshot.
-/

namespace Clockchain.V1
open Codec Maps Programs Relation
set_option autoImplicit false

section
variable {ι : Type} [DecidableEq ι]

/-- The tables of each replica. -/
abbrev Network (ι : Type) := ι → Tables

variable (cr : Crypto) (verify : Verify) (store : Store)

/-- One call on one replica. A restore keeps what it admitted before it failed; what it is given
need not be the export of any replica. -/
inductive Network.Step (σ : Network ι) : Network ι → Prop where
  | admission {i : ι} {bytes : Bytes} {node : Option SecretKey} {now : BitVec 64} {a : Recorded} :
      store.admitOnce cr verify (σ i) bytes node now = some (.ok a) →
      Step σ (Function.update σ i a.tables)
  | retain {i : ι} {bytes : Bytes} {t : Tables} :
      store.retainReceipt cr verify (σ i) bytes = .ok t → Step σ (Function.update σ i t)
  | restore {i : ι} {m : ExportManifest} {t : Tables}
      {r : Option (Except StoreError (List Outcome))} :
      store.restoreExport cr verify (σ i) m = (t, r) → Step σ (Function.update σ i t)

/-- The networks that calls on fresh replicas lead to. -/
def Network.Reachable (filter : FilterIdentity) : Network ι → Prop :=
  ReflTransGen (Network.Step cr verify store)
    fun _ => ⟨∅, ∅, ∅, some (filter.fold, filter.canonical)⟩

end

/-! ## What a run keeps -/

section
variable {cr : Crypto} {verify : Verify} {store : Store} {t : Tables} {filter : FilterIdentity}

theorem record_rule {bytes : Bytes} {observer : Option (SecretKey × FilterIdentity)}
    {now : BitVec 64} {judged : Judged} {a : Recorded}
    (h : store.record cr verify t bytes observer now judged = .ok a) :
    a.tables.ruleIdentity = t.ruleIdentity := by
  cases judged with
  | rejected reason =>
    obtain rfl := Except.ok.inj h
    rfl
  | candidate d st au =>
    obtain ⟨receipt, -, h⟩ := bind_ok.mp h
    obtain ⟨tables, hkeep, h⟩ := bind_ok.mp h
    obtain rfl := Except.ok.inj h
    cases receipt with
    | none =>
      obtain rfl := Except.ok.inj hkeep
      rfl
    | some r =>
      simp only [Store.keepReceipt] at hkeep
      split at hkeep
      · cases hkeep
      · obtain rfl := Except.ok.inj hkeep
        rfl

theorem admission_rule {bytes : Bytes} {node : Option SecretKey} {now : BitVec 64} {a : Recorded}
    (h : store.admitOnce cr verify t bytes node now = some (.ok a)) :
    a.tables.ruleIdentity = t.ruleIdentity := by
  obtain ⟨observer, -, h⟩ := lift_bind_ok.mp h
  obtain ⟨judged, -, h⟩ := run_bind_ok.mp h
  exact record_rule (Option.some.inj h)

/-- Tables that calls have written, under the rule they were bound with. -/
structure Store.Kept (cr : Crypto) (verify : Verify) (store : Store) (filter : FilterIdentity)
    (t : Tables) : Prop where
  sound : store.Sound cr verify t
  rule : t.ruleIdentity = some (filter.fold, filter.canonical)

theorem Store.Kept.admission (kept : store.Kept cr verify filter t) {bytes : Bytes}
    {node : Option SecretKey} {now : BitVec 64} {a : Recorded}
    (h : store.admitOnce cr verify t bytes node now = some (.ok a)) :
    store.Kept cr verify filter a.tables :=
  ⟨kept.sound.admission h, (admission_rule h).trans kept.rule⟩

theorem Store.Kept.retain (kept : store.Kept cr verify filter t) {bytes : Bytes} {t' : Tables}
    (h : store.retainReceipt cr verify t bytes = .ok t') : store.Kept cr verify filter t' := by
  refine ⟨kept.sound.retain h, ?_⟩
  unfold Store.retainReceipt at h
  split at h
  · cases h
  · split_ifs at h
    obtain rfl := Except.ok.inj h
    exact kept.rule

theorem Store.Kept.admitAll (kept : store.Kept cr verify filter t) {envelopes : List Bytes}
    {t' : Tables} {r : Option (Except StoreError (List Outcome))}
    (h : store.admitAll cr verify t envelopes = (t', r)) : store.Kept cr verify filter t' := by
  induction envelopes generalizing t r with
  | nil =>
    obtain ⟨rfl, -⟩ := Prod.mk.inj h
    exact kept
  | cons bytes envelopes ih =>
    unfold Store.admitAll at h
    split at h
    · obtain ⟨rfl, -⟩ := Prod.mk.inj h
      exact kept
    · obtain ⟨rfl, -⟩ := Prod.mk.inj h
      exact kept
    · next a ha =>
      obtain ⟨rfl, -⟩ := Prod.mk.inj h
      exact ih (kept.admission ha) rfl

theorem Store.Kept.restore (kept : store.Kept cr verify filter t) {m : ExportManifest}
    {t' : Tables} {r : Option (Except StoreError (List Outcome))}
    (h : store.restoreExport cr verify t m = (t', r)) : store.Kept cr verify filter t' := by
  unfold Store.restoreExport at h
  split at h
  · obtain ⟨rfl, -⟩ := Prod.mk.inj h
    exact kept
  · obtain ⟨rfl, -⟩ := Prod.mk.inj h
    exact kept
  · exact kept.admitAll h

variable {ι : Type} [DecidableEq ι] {σ τ : Network ι}

theorem Network.Step.kept (step : Network.Step cr verify store σ τ)
    (h : ∀ i, store.Kept cr verify filter (σ i)) (i : ι) : store.Kept cr verify filter (τ i) := by
  have hupdate : ∀ {j : ι} {t : Tables}, store.Kept cr verify filter t →
      store.Kept cr verify filter (Function.update σ j t i) := by
    intro j t ht
    rw [Function.update_apply]
    split
    · exact ht
    · exact h i
  cases step with
  | admission ha => exact hupdate ((h _).admission ha)
  | retain hr => exact hupdate ((h _).retain hr)
  | restore hm => exact hupdate ((h _).restore hm)

theorem Network.Reachable.kept (run : Network.Reachable cr verify store filter σ) (i : ι) :
    store.Kept cr verify filter (σ i) := by
  induction run generalizing i with
  | refl => exact ⟨(Store.Reachable.fresh _).sound, rfl⟩
  | tail _ step ih => exact step.kept ih i

end

/-! ## Equal ids -/

section
variable {cr : Crypto} {verify : Verify} {store : Store} {t t' : Tables} {filter : FilterIdentity}
variable {U : Candidates}

/-- Rows of one universe fold alike when their ids are the same, whatever signatures they carry. -/
theorem candidates_of_ids (sound : store.Sound cr verify t) (sound' : store.Sound cr verify t')
    (within : t.Within cr verify U) (within' : t'.Within cr verify U)
    (same : ∀ id, id ∈ t.candidates ↔ id ∈ t'.candidates) :
    ∃ all all', store.verifiedCandidates cr verify t = .ok all ∧
      store.verifiedCandidates cr verify t' = .ok all' ∧ candidatesOf all = candidatesOf all' := by
  obtain ⟨all, hall, -⟩ := verified_spec sound
  obtain ⟨all', hall', -⟩ := verified_spec sound'
  have hin := (verified_within sound hall).mp within
  have hin' := (verified_within sound' hall').mp within'
  have hmem : ∀ id, id ∈ candidatesOf all ↔ id ∈ candidatesOf all' := by
    intro id
    rw [mem_candidatesOf, mem_candidatesOf, verified_mem sound hall,
      verified_mem sound' hall', same]
  refine ⟨all, all', hall, hall', ext_graph fun id s => ⟨fun hs => ?_, fun hs => ?_⟩⟩
  · exact hin'.get ((hmem id).mp (mem_of_getElem? hs)) (hin.sub hs)
  · exact hin.get ((hmem id).mpr (mem_of_getElem? hs)) (hin'.sub hs)

theorem candidatesOf_insert {all : BTreeMap Decoded} {d : Decoded} :
    candidatesOf (all.insert d.id d) = (candidatesOf all).insert d.id d.toSigned := by
  refine ext_graph fun id s => ?_
  rw [getElem?_candidatesOf, getElem?_insert, getElem?_insert]
  split
  · exact ⟨fun ⟨d', hd', hs⟩ => by rw [Option.some.inj hd', hs], fun h =>
      ⟨d, rfl, Option.some.inj h⟩⟩
  · exact getElem?_candidatesOf.symm

theorem snapshot_congr {all all' : BTreeMap Decoded}
    (hall : store.verifiedCandidates cr verify t = .ok all)
    (hall' : store.verifiedCandidates cr verify t' = .ok all')
    (same : candidatesOf all = candidatesOf all') (bound : store.Bound cr t filter)
    (bound' : store.Bound cr t' filter) :
    store.snapshot cr verify t none = store.snapshot cr verify t' none := by
  rw [snapshot_bound bound, snapshot_bound bound', Store.folded, Store.folded, hall, hall',
    lift_ok, lift_ok, same]

theorem judge_congr {all all' : BTreeMap Decoded}
    (hall : store.verifiedCandidates cr verify t = .ok all)
    (hall' : store.verifiedCandidates cr verify t' = .ok all')
    (same : candidatesOf all = candidatesOf all') (bytes : Bytes) :
    store.judge cr verify t bytes = store.judge cr verify t' bytes := by
  unfold Store.judge
  cases decode cr verify bytes with
  | error e => rfl
  | ok d =>
    simp only [hall, hall', lift_ok, candidatesOf_insert, same]

/-! ## Exchanging exports -/

/-- A replica that restores the export of another ends with the ids of both. -/
theorem restore_export (bound : store.Bound cr t filter) (bound' : store.Bound cr t' filter)
    (sound : store.Sound cr verify t) (sound' : store.Sound cr verify t')
    (free : CollisionFree cr U) (within : t.Within cr verify U) (within' : t'.Within cr verify U) :
    ∃ m u outcomes, store.exportManifest cr verify t none = some (.ok m) ∧
      store.restoreExport cr verify t' m = (u, some (.ok outcomes)) ∧ store.Bound cr u filter ∧
      store.Sound cr verify u ∧ u.Within cr verify U ∧
      ∀ id, id ∈ u.candidates ↔ id ∈ t'.candidates ∨ id ∈ t.candidates := by
  obtain ⟨all, hall, -⟩ := verified_spec sound
  have hin := (verified_within sound hall).mp within
  obtain ⟨s, hs, hname⟩ := exists_snapshot (free.within hin) filter
  have hsame : ∀ b, b ∈ (all.toList.map fun entry => entry.2.bytes) ↔
      b ∈ all.toList.map fun entry => entry.2.bytes := fun _ => Iff.rfl
  have hinst : store.instanceId = store.instanceId := rfl
  obtain ⟨ds, hbytes, hds, hexported⟩ := exportedCandidates_spec sound hall hinst hsame
  have hadmissible : ∀ d ∈ ds, store.Admissible cr verify U d := by
    intro d hd
    obtain ⟨-, -, hdecode, hinst⟩ := verified_get sound hall ((hds d).mp hd)
    exact ⟨hdecode, hinst, hin.sub (getElem?_candidatesOf.mpr ⟨d, (hds d).mp hd, rfl⟩)⟩
  obtain ⟨u, outcomes, hfilled, filled, -⟩ := admitAll_spec free hadmissible sound' within'
  refine ⟨_, u, outcomes, bound.exportManifest hall hs, ?_, ?_, filled.sound, ?_, fun id => ?_⟩
  · unfold Store.restoreExport
    rw [checkRoot_root bound' rfl hname hexported hs rfl rfl, hbytes]
    exact hfilled
  · exact ⟨bound'.rule, bound'.supported, filled.rule.trans bound'.recorded⟩
  · refine ⟨fun {id wire d} hwire hdecode => ?_⟩
    rcases filled.row hwire with hold | ⟨d', hd', -, rfl⟩
    · exact within'.sub hold hdecode
    · obtain rfl := Except.ok.inj ((hadmissible d' hd').decoded.symm.trans hdecode)
      obtain ⟨e, he, hid, -⟩ := filled.sound.candidate hwire
      obtain rfl := Except.ok.inj (hdecode.symm.trans he)
      exact hid ▸ (hadmissible _ hd').member
  · rw [filled.mem]
    refine or_congr_right ?_
    rw [← verified_mem sound hall, mem_iff]
    constructor
    · rintro ⟨d, hd, rfl⟩
      exact ⟨d, (hds d).mp hd⟩
    · rintro ⟨d, hd⟩
      obtain ⟨-, rfl, -⟩ := verified_get sound hall hd
      exact ⟨d, (hds d).mpr hd, rfl⟩

end

/-- In every network that calls lead to: two replicas that retain the same ids serve the same
snapshot and judge every further envelope alike; and of any two replicas, the first of which
restores the export of the second and then the second that of the first, both end with the ids of
both and serve one snapshot. -/
theorem replicas_converge {ι : Type} [DecidableEq ι] (cr : Crypto) (verify : Verify)
    (store : Store) (filter : FilterIdentity) (U : Candidates) (σ : Network ι)
    (hrule : store.rule = some filter) (supported : filter.fold = foldV1 cr)
    (run : Network.Reachable cr verify store filter σ) (free : CollisionFree cr U)
    (within : ∀ i, (σ i).Within cr verify U) (i j : ι) :
    ((∀ id, id ∈ (σ i).candidates ↔ id ∈ (σ j).candidates) →
      store.snapshot cr verify (σ i) none = store.snapshot cr verify (σ j) none ∧
      ∀ bytes, store.judge cr verify (σ i) bytes = store.judge cr verify (σ j) bytes) ∧
    ∃ m u outcomes m' u' outcomes' snapshot,
      store.exportManifest cr verify (σ j) none = some (.ok m) ∧
      store.restoreExport cr verify (σ i) m = (u, some (.ok outcomes)) ∧
      store.exportManifest cr verify u none = some (.ok m') ∧
      store.restoreExport cr verify (σ j) m' = (u', some (.ok outcomes')) ∧
      (∀ id, id ∈ u.candidates ↔ id ∈ (σ i).candidates ∨ id ∈ (σ j).candidates) ∧
      (∀ id, id ∈ u'.candidates ↔ id ∈ u.candidates) ∧
      store.snapshot cr verify u none = some (.ok snapshot) ∧
      store.snapshot cr verify u' none = some (.ok snapshot) := by
  have kept := run.kept
  have bound : ∀ i, store.Bound cr (σ i) filter := fun i => ⟨hrule, supported, (kept i).rule⟩
  constructor
  · intro same
    obtain ⟨all, all', hall, hall', heq⟩ := candidates_of_ids (kept i).sound (kept j).sound
      (within i) (within j) same
    exact ⟨snapshot_congr hall hall' heq (bound i) (bound j), judge_congr hall hall' heq⟩
  · obtain ⟨m, u, outcomes, hm, hu, ubound, usound, uwithin, umem⟩ := restore_export (bound j)
      (bound i) (kept j).sound (kept i).sound free (within j) (within i)
    obtain ⟨m', u', outcomes', hm', hu', ubound', usound', uwithin', umem'⟩ := restore_export ubound
      (bound j) usound (kept j).sound free uwithin (within j)
    have same : ∀ id, id ∈ u'.candidates ↔ id ∈ u.candidates := by
      intro id
      rw [umem', umem]
      tauto
    obtain ⟨all, all', hall, hall', heq⟩ := candidates_of_ids usound usound' uwithin uwithin'
      fun id => (same id).symm
    have hin := (verified_within usound hall).mp uwithin
    obtain ⟨s, hs, -⟩ := exists_snapshot (free.within hin) filter
    have hsnapshot : store.snapshot cr verify u none = some (.ok s) :=
      snapshot_ok (ubound.ready (by simp)) hall hs
    refine ⟨m, u, outcomes, m', u', outcomes', s, hm, hu, hm', hu', umem, same, hsnapshot, ?_⟩
    rw [← snapshot_congr hall hall' heq ubound ubound']
    exact hsnapshot

/-- One of two replicas admits `ada`; the other one gets it by restoring the export. -/
theorem replicas_converge_ada : ∃ (σ : Network Bool) (d : Decoded) (m : ExportManifest) (u : Tables)
    (outcomes : List Outcome),
    Network.Reachable Sample.adaCrypto Sample.adaVerify Sample.adaStore Sample.adaFilter σ ∧
    d.id ∈ (σ true).candidates ∧ d.id ∉ (σ false).candidates ∧
    Sample.adaStore.exportManifest Sample.adaCrypto Sample.adaVerify (σ true) none = some (.ok m) ∧
    Sample.adaStore.restoreExport Sample.adaCrypto Sample.adaVerify (σ false) m =
      (u, some (.ok outcomes)) ∧ d.id ∈ u.candidates := by
  obtain ⟨d, hd, he, hid, -⟩ := Sample.ada_decodes
  let fresh : Tables := ⟨∅, ∅, ∅, some (Sample.adaFilter.fold, Sample.adaFilter.canonical)⟩
  let U : Candidates := (∅ : Candidates).insert d.id d.toSigned
  have hU : U[d.id]? = some d.toSigned := by
    rw [getElem?_insert, if_pos rfl]
  have free : CollisionFree Sample.adaCrypto U := by
    refine Sample.ada_free fun r hr => ?_
    rcases mem_map_insert.mp hr with rfl | hr
    · exact hid
    · exact absurd hr Std.ExtTreeMap.not_mem_empty
  have sound : Sample.adaStore.Sound Sample.adaCrypto Sample.adaVerify fresh :=
    (Store.Reachable.fresh _).sound
  have empty : ∀ id, fresh.candidates[id]? = none := fun id => Std.ExtTreeMap.getElem?_empty
  have within : fresh.Within Sample.adaCrypto Sample.adaVerify U :=
    ⟨fun {id wire d} h => by simp [empty id] at h⟩
  have hinst : d.envelope.instanceId = Sample.adaStore.instanceId := by
    rw [he]
    rfl
  obtain ⟨a, ha, htables, -⟩ := admit_candidate free sound within ⟨hd, hinst, hU⟩
  have hrow : ∀ {id : Hash} {wire : Bytes}, a.tables.candidates[id]? = some wire →
      id = d.id ∧ wire = d.bytes := by
    intro id wire h
    rw [htables] at h
    rcases getElem?_insertIfNew.mp h with h | ⟨-, rfl, rfl⟩
    · simp [empty id] at h
    · exact ⟨rfl, rfl⟩
  let σ : Network Bool := Function.update (fun _ => fresh) true a.tables
  have hwithin : ∀ i, (σ i).Within Sample.adaCrypto Sample.adaVerify U := by
    intro i
    cases i with
    | false => exact within
    | true =>
      refine ⟨fun {id wire d'} h hdecode => ?_⟩
      obtain ⟨rfl, rfl⟩ := hrow h
      obtain rfl := Except.ok.inj (hd.symm.trans hdecode)
      exact hU
  have run :
      Network.Reachable Sample.adaCrypto Sample.adaVerify Sample.adaStore Sample.adaFilter σ :=
    ReflTransGen.single (.admission ha)
  have hmem : d.id ∈ (σ true).candidates := by
    change d.id ∈ a.tables.candidates
    rw [htables]
    exact mem_insertIfNew.mpr (Or.inl rfl)
  obtain ⟨-, m, u, outcomes, -, -, -, -, hm, hu, -, -, humem, -⟩ := replicas_converge
    Sample.adaCrypto Sample.adaVerify Sample.adaStore Sample.adaFilter U σ rfl rfl run free hwithin
    false true
  exact ⟨σ, d, m, u, outcomes, run, hmem, Std.ExtTreeMap.not_mem_empty, hm, hu,
    (humem d.id).mpr (Or.inr hmem)⟩

end Clockchain.V1
