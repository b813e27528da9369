import Clockchain.V1.Retention
import Clockchain.V1.Snapshot
import Clockchain.V1.Totality

/-!
# Export and restore

A restore admits nothing before the root of the very envelopes it is given equals the root its
manifest names; from then on every envelope is retained under its id.
-/

namespace Clockchain.V1
open Codec Maps Programs
set_option autoImplicit false

section
variable {cr : Crypto} {verify : Verify} {store : Store} {t : Tables} {filter : FilterIdentity}

/-! ## Bound stores -/

/-- What `bind` leaves a store and its tables with. -/
structure Store.Bound (cr : Crypto) (store : Store) (t : Tables) (filter : FilterIdentity) :
    Prop where
  rule : store.rule = some filter
  supported : filter.fold = foldV1 cr
  recorded : t.ruleIdentity = some (filter.fold, filter.canonical)

theorem supportedFold_iff {fold : FoldRef} : supportedFold cr fold = true ↔ fold = foldV1 cr :=
  decide_eq_true_iff

theorem ready_rule {requested : Option FoldRef} (h : store.ready cr t requested = .ok filter) :
    store.rule = some filter := by
  obtain ⟨rule, hbound, h⟩ := bind_ok.mp h
  have hrule : rule = filter := by
    split at h
    · exact Except.ok.inj h
    · cases h
    · cases h
  unfold Store.bound at hbound
  split at hbound
  · cases hbound
  · next r hr =>
    split at hbound
    · cases hbound
    · rw [hr, Except.ok.inj hbound, hrule]

theorem semantic_ready (hrule : store.rule = some filter) :
    (store.semanticReadiness cr t).semantic = .ready ↔
      t.ruleIdentity = some (foldV1 cr, filter.canonical) := by
  unfold Store.semanticReadiness
  rw [hrule]
  cases hrow : t.ruleIdentity with
  | none => simp
  | some row =>
    obtain ⟨stored, filterIdentity⟩ := row
    dsimp only
    by_cases hfold : stored = foldV1 cr
    · by_cases hfilter : filterIdentity = filter.canonical
      · simp [hfold, hfilter, supportedFold_iff.mpr]
      · simp [hfold, hfilter, supportedFold_iff.mpr]
    · have hfalse : supportedFold cr stored = false := by
        rw [← Bool.not_eq_true, supportedFold_iff]
        exact hfold
      simp [hfold, hfalse]

theorem Store.Bound.ready (bound : store.Bound cr t filter) {requested : Option FoldRef}
    (h : ∀ fold ∈ requested, fold = filter.fold) :
    store.ready cr t requested = .ok filter := by
  have hrequested : requested.any (fun r => !supportedFold cr r || decide (r ≠ filter.fold)) =
      false := by
    cases requested with
    | none => rfl
    | some fold =>
      obtain rfl := h fold rfl
      simp [supportedFold_iff.mpr bound.supported]
  have hbound : store.bound cr requested = .ok filter := by
    unfold Store.bound
    rw [bound.rule]
    simp only [hrequested]
    rfl
  have hready : (store.semanticReadiness cr t).semantic = .ready :=
    (semantic_ready bound.rule).mpr (bound.supported ▸ bound.recorded)
  unfold Store.ready
  rw [hbound]
  simp only [hready]
  rfl

/-! ## Bulk admission -/

/-- Every row of the tables decodes to an event of `U`. -/
structure Tables.Within (cr : Crypto) (verify : Verify) (t : Tables) (U : Candidates) : Prop where
  sub : ∀ {id : Hash} {wire : Bytes} {d : Decoded}, t.candidates[id]? = some wire →
    decode cr verify wire = .ok d → U[id]? = some d.toSigned

/-- An envelope that the store would not reject, and that is in `U`. -/
structure Store.Admissible (cr : Crypto) (verify : Verify) (store : Store) (U : Candidates)
    (d : Decoded) : Prop where
  decoded : decode cr verify d.bytes = .ok d
  inst : d.envelope.instanceId = store.instanceId
  member : U[d.id]? = some d.toSigned

theorem getElem?_candidatesOf {all : BTreeMap Decoded} {id : Hash} {s : Signed} :
    (candidatesOf all)[id]? = some s ↔ ∃ d, all[id]? = some d ∧ d.toSigned = s := by
  simp [candidatesOf]

theorem verified_within (sound : store.Sound cr verify t) {all : BTreeMap Decoded}
    (hall : store.verifiedCandidates cr verify t = .ok all) {U : Candidates} :
    t.Within cr verify U ↔ Within (candidatesOf all) U := by
  obtain ⟨all', hall', hspec⟩ := verified_spec sound
  obtain rfl := Except.ok.inj (hall'.symm.trans hall)
  constructor
  · rintro within
    refine ⟨fun {e s} he => ?_⟩
    obtain ⟨d, hd, rfl⟩ := getElem?_candidatesOf.mp he
    obtain ⟨wire, hwire, hdecode⟩ := (hspec e d).mp hd
    exact within.sub hwire hdecode
  · rintro within
    refine ⟨fun {id wire d} hwire hdecode => within.sub ?_⟩
    exact getElem?_candidatesOf.mpr ⟨d, (hspec id d).mpr ⟨wire, hwire, hdecode⟩, rfl⟩

theorem admit_candidate {U : Candidates} (free : CollisionFree cr U)
    (sound : store.Sound cr verify t) (within : t.Within cr verify U) {d : Decoded}
    (hd : store.Admissible cr verify U d) : ∃ a,
      store.admitOnce cr verify t d.bytes none 0 = some (.ok a) ∧
      a.tables = { t with candidates := t.candidates.insertIfNew d.id d.bytes } ∧
      a.outcome.event = some d.id := by
  have hfree : ∀ all, store.verifiedCandidates cr verify t = .ok all →
      CollisionFree cr (candidatesOf (all.insert d.id d)) := by
    intro all hall
    refine free.within ⟨fun {e s} he => ?_⟩
    obtain ⟨d', hd', rfl⟩ := getElem?_candidatesOf.mp he
    rw [getElem?_insert] at hd'
    split_ifs at hd' with hid
    · obtain rfl := Option.some.inj hd'
      exact hid ▸ hd.member
    · exact ((verified_within sound hall).mp within).sub (getElem?_candidatesOf.mpr ⟨d', hd', rfl⟩)
  obtain ⟨all, out, s, A, st, hall, verdicts, hst, hjudge⟩ :=
    judge_candidate sound hd.decoded hd.inst hfree
  refine ⟨⟨{ t with candidates := t.candidates.insertIfNew d.id d.bytes },
    ⟨some d.id, cr.sha256 d.bytes, st.answer, A.effects[d.id]?⟩, none⟩, ?_, rfl, rfl⟩
  have hnobody : store.observer cr none = .ok none := rfl
  rw [admit_judged hnobody hjudge]
  rfl

/-- What admitting a list of envelopes leaves. -/
structure Store.Filled (cr : Crypto) (verify : Verify) (store : Store) (t : Tables)
    (ds : List Decoded) (t' : Tables) : Prop where
  sound : store.Sound cr verify t'
  rule : t'.ruleIdentity = t.ruleIdentity
  row : ∀ {id : Hash} {wire : Bytes}, t'.candidates[id]? = some wire →
    t.candidates[id]? = some wire ∨ ∃ d ∈ ds, d.id = id ∧ d.bytes = wire
  mem : ∀ id, id ∈ t'.candidates ↔ id ∈ t.candidates ∨ ∃ d ∈ ds, d.id = id

theorem admitAll_spec {U : Candidates} (free : CollisionFree cr U) {ds : List Decoded}
    (hds : ∀ d ∈ ds, store.Admissible cr verify U d) (sound : store.Sound cr verify t)
    (within : t.Within cr verify U) : ∃ t' outcomes,
      store.admitAll cr verify t (ds.map Decoded.bytes) = (t', some (.ok outcomes)) ∧
      store.Filled cr verify t ds t' ∧
      outcomes.map Outcome.event = ds.map fun d => some d.id := by
  induction ds generalizing t with
  | nil => exact ⟨t, [], rfl, ⟨sound, rfl, Or.inl, by simp⟩, rfl⟩
  | cons d ds ih =>
    have hd := hds d List.mem_cons_self
    obtain ⟨a, ha, htables, hevent⟩ := admit_candidate free sound within hd
    have hwithin : a.tables.Within cr verify U := by
      refine ⟨fun {id wire d'} hwire hdecode => ?_⟩
      rw [htables] at hwire
      rcases getElem?_insertIfNew.mp hwire with hwire | ⟨-, rfl, rfl⟩
      · exact within.sub hwire hdecode
      · obtain rfl := Except.ok.inj (hd.decoded.symm.trans hdecode)
        exact hd.member
    obtain ⟨t', outcomes, hall, filled, hevents⟩ :=
      ih (fun d' hd' => hds d' (List.mem_cons_of_mem d hd')) (sound.admission ha) hwithin
    refine ⟨t', a.outcome :: outcomes, ?_, ⟨filled.sound, ?_, fun {id wire} hwire => ?_,
      fun id => ?_⟩, by rw [List.map_cons, List.map_cons, hevent, hevents]⟩
    · rw [List.map_cons, Store.admitAll, ha]
      simp only [hall]
      rfl
    · rw [filled.rule, htables]
    · rcases filled.row hwire with hwire | ⟨d', hd', hrow⟩
      · rw [htables] at hwire
        rcases getElem?_insertIfNew.mp hwire with hwire | ⟨-, hid, hwire⟩
        · exact Or.inl hwire
        · exact Or.inr ⟨d, List.mem_cons_self, hid.symm, hwire.symm⟩
      · exact Or.inr ⟨d', List.mem_cons_of_mem d hd', hrow⟩
    · rw [filled.mem, htables, mem_insertIfNew]
      simp only [List.mem_cons, exists_eq_or_imp]
      rw [eq_comm (a := id), or_comm (a := d.id = id), or_assoc]

/-! ## The root -/

theorem checkRoot_ok {m : ExportManifest} (h : store.checkRoot cr verify t m = some (.ok ())) :
    ∃ rule all s, store.rule = some rule ∧ m.rule = .of cr rule ∧
      store.exportedCandidates cr verify m.envelopes = .ok all ∧
      Snapshot.of cr rule (candidatesOf all) = some s ∧ s.corpusDigest = m.corpusDigest ∧
      s.commitment = m.commitment := by
  unfold Store.checkRoot at h
  simp only [run_unless_ok, run_bind_ok, liftExcept_ok, liftOption_ok, not_not] at h
  obtain ⟨-, rule, hrule, hid, all, hall, s, hs, h⟩ := h
  split_ifs at h with hroot
  · cases h
  · rw [not_or, not_not, not_not] at hroot
    exact ⟨rule, all, s, ready_rule hrule, hid, hall, hs, hroot⟩

theorem checkRoot_root {m : ExportManifest} (bound : store.Bound cr t filter)
    (hencoding : m.encoding = canonVersion) (hrule : m.rule = .of cr filter)
    {all : BTreeMap Decoded} (hall : store.exportedCandidates cr verify m.envelopes = .ok all)
    {s : Snapshot} (hs : Snapshot.of cr filter (candidatesOf all) = some s)
    (hcorpus : s.corpusDigest = m.corpusDigest) (hcommitment : s.commitment = m.commitment) :
    store.checkRoot cr verify t m = some (.ok ()) := by
  have hfold : m.rule.fold = filter.fold := by rw [hrule]; rfl
  have hready : store.ready cr t (some m.rule.fold) = .ok filter := by
    refine bound.ready fun fold h => ?_
    rw [← Option.some.inj h, hfold]
  have hversion : ¬ (m.encoding ≠ canonVersion ∨ (!supportedFold cr m.rule.fold) = true) := by
    rw [hfold, supportedFold_iff.mpr bound.supported]
    simp [hencoding]
  unfold Store.checkRoot
  rw [if_neg hversion, hready, lift_ok, if_neg (not_not.mpr hrule), hall, lift_ok, hs, lift_some,
    if_neg (by simp [hcorpus, hcommitment])]
  rfl

/-! ## The export of a store -/

theorem verified_get (sound : store.Sound cr verify t) {all : BTreeMap Decoded}
    (hall : store.verifiedCandidates cr verify t = .ok all) {id : Hash} {d : Decoded}
    (hd : all[id]? = some d) : t.candidates[id]? = some d.bytes ∧ d.id = id ∧
      decode cr verify d.bytes = .ok d ∧ d.envelope.instanceId = store.instanceId := by
  obtain ⟨all', hall', hspec⟩ := verified_spec sound
  obtain rfl := Except.ok.inj (hall'.symm.trans hall)
  obtain ⟨wire, hwire, hdecode⟩ := (hspec id d).mp hd
  obtain ⟨d', hd', hid, hinst⟩ := sound.candidate hwire
  obtain rfl := Except.ok.inj (hd'.symm.trans hdecode)
  obtain ⟨-, -, -, -, -, -, -, -, hbytes⟩ := decode_ok.mp hdecode
  exact ⟨hbytes ▸ hwire, hid, hbytes ▸ hdecode, hinst⟩

theorem verified_row (sound : store.Sound cr verify t) {all : BTreeMap Decoded}
    (hall : store.verifiedCandidates cr verify t = .ok all) {id : Hash} {wire : Bytes}
    (hwire : t.candidates[id]? = some wire) : ∃ d, all[id]? = some d ∧ d.bytes = wire := by
  obtain ⟨d, hd⟩ := mem_iff.mp ((verified_mem sound hall).mpr (mem_of_getElem? hwire))
  exact ⟨d, hd, Option.some.inj ((verified_get sound hall hd).1.symm.trans hwire)⟩

theorem exportManifest_ok {requested : Option FoldRef} {m : ExportManifest}
    (h : store.exportManifest cr verify t requested = some (.ok m)) :
    ∃ rule all s, store.rule = some rule ∧ store.verifiedCandidates cr verify t = .ok all ∧
      Snapshot.of cr rule (candidatesOf all) = some s ∧
      m = ⟨canonVersion, s.rule, s.corpusDigest, s.commitment,
        all.toList.map fun entry => entry.2.bytes⟩ := by
  unfold Store.exportManifest at h
  simp only [run_bind_ok, liftExcept_ok, liftOption_ok] at h
  obtain ⟨rule, hrule, all, hall, s, hs, hm⟩ := h
  exact ⟨rule, all, s, ready_rule hrule, hall, hs, (Except.ok.inj (Option.some.inj hm)).symm⟩

theorem Store.Bound.exportManifest (bound : store.Bound cr t filter) {all : BTreeMap Decoded}
    (hall : store.verifiedCandidates cr verify t = .ok all) {s : Snapshot}
    (hs : Snapshot.of cr filter (candidatesOf all) = some s) :
    store.exportManifest cr verify t none = some (.ok ⟨canonVersion, s.rule, s.corpusDigest,
      s.commitment, all.toList.map fun entry => entry.2.bytes⟩) := by
  unfold Store.exportManifest
  rw [bound.ready (by simp), lift_ok, hall, lift_ok, hs, lift_some]
  rfl

/-- The exported envelopes, in any order and repeated, are the candidates. -/
theorem exportedCandidates_spec (sound : store.Sound cr verify t) {all : BTreeMap Decoded}
    (hall : store.verifiedCandidates cr verify t = .ok all) {other : Store}
    (hother : other.instanceId = store.instanceId) {envelopes : List Bytes}
    (hsame : ∀ b, b ∈ envelopes ↔ b ∈ all.toList.map fun entry => entry.2.bytes) :
    ∃ ds : List Decoded, envelopes = ds.map Decoded.bytes ∧
      (∀ d : Decoded, d ∈ ds ↔ all[d.id]? = some d) ∧
      other.exportedCandidates cr verify envelopes = .ok all := by
  have hmem : ∀ b, b ∈ envelopes ↔ ∃ d : Decoded, all[d.id]? = some d ∧ d.bytes = b := by
    intro b
    simp only [hsame, List.mem_map, Prod.exists, Std.ExtTreeMap.mem_toList_iff_getElem?_eq_some]
    constructor
    · rintro ⟨id, d, hd, rfl⟩
      exact ⟨d, (verified_get sound hall hd).2.1 ▸ hd, rfl⟩
    · rintro ⟨d, hd, rfl⟩
      exact ⟨d.id, d, hd, rfl⟩
  have hexported : ∀ d, all[d.id]? = some d → other.exported cr verify d.bytes = .ok d := by
    intro d hd
    obtain ⟨-, -, hdecode, hinst⟩ := verified_get sound hall hd
    unfold Store.exported
    rw [hdecode]
    exact if_neg (not_not.mpr (hinst.trans hother.symm))
  have total : ∀ b ∈ envelopes, ∃ d, other.exported cr verify b = .ok d ∧ d.bytes = b := by
    intro b hb
    obtain ⟨d, hd, rfl⟩ := (hmem b).mp hb
    exact ⟨d, hexported d hd, rfl⟩
  obtain ⟨ds, hds, hbytes, hspec⟩ := mapM_ok (h := fun b => b) total
  have hdsmem : ∀ d, d ∈ ds ↔ all[d.id]? = some d := by
    intro d
    rw [hspec]
    constructor
    · rintro ⟨b, hb, hd⟩
      obtain ⟨d', hd', rfl⟩ := (hmem b).mp hb
      obtain rfl := Except.ok.inj ((hexported d' hd').symm.trans hd)
      exact hd'
    · exact fun hd => ⟨d.bytes, (hmem _).mpr ⟨d, hd, rfl⟩, hexported d hd⟩
  refine ⟨ds, (List.map_id' envelopes).symm.trans hbytes.symm, hdsmem, ?_⟩
  rw [Store.exportedCandidates, hds]
  refine congrArg Except.ok (ext_graph fun id d => ?_)
  have hentry : ∀ {k : Hash} {v : Decoded}, (k, v) ∈ ds.map (fun s => (s.id, s)) ↔
      all[k]? = some v := by
    intro k v
    simp only [List.mem_map, Prod.mk.injEq, exists_eq_right_right, hdsmem]
    constructor
    · rintro ⟨hv, rfl⟩
      exact hv
    · intro hv
      obtain ⟨-, rfl, -⟩ := verified_get sound hall hv
      exact ⟨hv, rfl⟩
  rw [getElem?_ofList_graph, hentry]
  intro k v w hv hw
  exact Option.some.inj ((hentry.mp hv).symm.trans (hentry.mp hw))

theorem retained_congr {other : Store} (h : other.instanceId = store.instanceId) :
    other.retained cr verify = store.retained cr verify := by
  funext row
  unfold Store.retained
  rw [h]

theorem snapshot_bound (bound : store.Bound cr t filter) : store.snapshot cr verify t none =
    store.folded cr verify t filter := by
  unfold Store.snapshot
  rw [bound.ready (by simp), lift_ok]

/-- A collision-free set of candidates has a snapshot. -/
theorem exists_snapshot {C : Candidates} (free : CollisionFree cr C) (filter : FilterIdentity) :
    ∃ s, Snapshot.of cr filter C = some s ∧ s.rule = .of cr filter := by
  obtain ⟨-, -, -, p, -, -, -, -, hp, -⟩ := project_spec free
  rw [Snapshot.of, hp]
  exact ⟨_, rfl, rfl⟩

theorem snapshot_ok {requested : Option FoldRef} {all : BTreeMap Decoded} {s : Snapshot}
    (hready : store.ready cr t requested = .ok filter)
    (hall : store.verifiedCandidates cr verify t = .ok all)
    (hs : Snapshot.of cr filter (candidatesOf all) = some s) :
    store.snapshot cr verify t requested = some (.ok s) := by
  rw [Store.snapshot, hready, lift_ok, Store.folded, hall, lift_ok, hs]
  rfl

end

/-- The root named by a manifest is that of the events in its envelopes. -/
def Store.Rooted (cr : Crypto) (verify : Verify) (store : Store) (m : ExportManifest) : Prop :=
  ∃ rule all s, store.rule = some rule ∧ m.rule = .of cr rule ∧
    store.exportedCandidates cr verify m.envelopes = .ok all ∧
    Snapshot.of cr rule (candidatesOf all) = some s ∧ s.corpusDigest = m.corpusDigest ∧
    s.commitment = m.commitment

/-- A restore without the root of its envelopes admits nothing. The export of a store restores to
the union of the candidates in any order and with repetitions, and into an empty store to the
same snapshot. -/
theorem export_restores (cr : Crypto) (verify : Verify) (source target : Store) (s t : Tables)
    (filter : FilterIdentity) (CS CT : BTreeMap Decoded) (U : Candidates)
    (requested : Option FoldRef) (m : ExportManifest)
    (sourceBound : source.Bound cr s filter) (targetBound : target.Bound cr t filter)
    (same : target.instanceId = source.instanceId)
    (sourceSound : source.Sound cr verify s) (targetSound : target.Sound cr verify t)
    (hCS : source.verifiedCandidates cr verify s = .ok CS)
    (hCT : target.verifiedCandidates cr verify t = .ok CT)
    (free : CollisionFree cr U) (inS : Within (candidatesOf CS) U)
    (inT : Within (candidatesOf CT) U)
    (hexport : source.exportManifest cr verify s requested = some (.ok m)) :
    (∀ m' t' r, target.restoreExport cr verify t m' = (t', r) →
      target.Rooted cr verify m' ∨ t' = t ∧ ∀ outcomes, r ≠ some (.ok outcomes)) ∧
    ∀ envelopes : List Bytes, (∀ b, b ∈ envelopes ↔ b ∈ m.envelopes) → ∃ t' outcomes,
      target.restoreExport cr verify t { m with envelopes } = (t', some (.ok outcomes)) ∧
      (∀ id, id ∈ t'.candidates ↔ id ∈ CT ∨ id ∈ CS) ∧
      outcomes.map Outcome.event =
        envelopes.map (fun b => (decode cr verify b).toOption.map Decoded.id) ∧
      (t.candidates = ∅ →
        target.snapshot cr verify t' none = source.snapshot cr verify s none ∧
        ∃ snapshot, source.snapshot cr verify s none = some (.ok snapshot) ∧
          snapshot.corpusDigest = m.corpusDigest ∧ snapshot.commitment = m.commitment) := by
  constructor
  · intro m' t' r h
    unfold Store.restoreExport at h
    split at h
    · obtain ⟨rfl, rfl⟩ := Prod.mk.inj h
      exact Or.inr ⟨rfl, fun _ => nofun⟩
    · obtain ⟨rfl, rfl⟩ := Prod.mk.inj h
      exact Or.inr ⟨rfl, fun _ => nofun⟩
    · next hroot => exact Or.inl (checkRoot_ok hroot)
  · intro envelopes hsame
    obtain ⟨rule, all, snap, hrule, hall, hsnap, rfl⟩ := exportManifest_ok hexport
    obtain rfl := Option.some.inj (hrule.symm.trans sourceBound.rule)
    obtain rfl := Except.ok.inj (hall.symm.trans hCS)
    obtain ⟨ds, rfl, hds, hexported⟩ := exportedCandidates_spec sourceSound hall same hsame
    have hname : snap.rule = .of cr rule := by
      obtain ⟨p, -, hp⟩ := Option.bind_eq_some_iff.mp hsnap
      rw [← Option.some.inj hp]
    have hadmissible : ∀ d ∈ ds, target.Admissible cr verify U d := by
      intro d hd
      obtain ⟨-, -, hdecode, hinst⟩ := verified_get sourceSound hall ((hds d).mp hd)
      exact ⟨hdecode, hinst.trans same.symm,
        inS.sub (getElem?_candidatesOf.mpr ⟨d, (hds d).mp hd, rfl⟩)⟩
    obtain ⟨t', outcomes, hadmit, filled, hevents⟩ := admitAll_spec free hadmissible targetSound
      ((verified_within targetSound hCT).mpr inT)
    refine ⟨t', outcomes, ?_, fun id => ?_, ?_, fun hempty => ?_⟩
    · have hroot := checkRoot_root (m := ⟨canonVersion, snap.rule, snap.corpusDigest,
        snap.commitment, ds.map Decoded.bytes⟩) targetBound rfl hname hexported hsnap rfl rfl
      unfold Store.restoreExport
      rw [hroot]
      exact hadmit
    · rw [filled.mem, verified_mem targetSound hCT]
      refine or_congr_right ?_
      simp only [hds, mem_iff]
      constructor
      · rintro ⟨d, hd, rfl⟩
        exact ⟨d, hd⟩
      · rintro ⟨d, hd⟩
        obtain ⟨-, rfl, -⟩ := verified_get sourceSound hall hd
        exact ⟨d, hd, rfl⟩
    · rw [hevents, List.map_map]
      refine List.map_congr_left fun d hd => ?_
      rw [Function.comp_apply, (hadmissible d hd).decoded]
      rfl
    · have hrows : t'.candidates = s.candidates := by
        refine ext_graph fun id wire => ⟨fun hwire => ?_, fun hwire => ?_⟩
        · rcases filled.row hwire with hold | ⟨d, hd, rfl, rfl⟩
          · simp [hempty] at hold
          · exact (verified_get sourceSound hall ((hds d).mp hd)).1
        · obtain ⟨d, hd, rfl⟩ := verified_row sourceSound hall hwire
          obtain ⟨-, rfl, -⟩ := verified_get sourceSound hall hd
          obtain ⟨wire, hkept⟩ :=
            mem_iff.mp ((filled.mem d.id).mpr (Or.inr ⟨d, (hds d).mpr hd, rfl⟩))
          rcases filled.row hkept with hold | ⟨d', hd', hid, rfl⟩
          · simp [hempty] at hold
          · have hd'' := hid ▸ (hds d').mp hd'
            obtain rfl := Option.some.inj (hd''.symm.trans hd)
            exact hkept
      have hbound : target.Bound cr t' rule :=
        ⟨targetBound.rule, targetBound.supported, filled.rule.trans targetBound.recorded⟩
      have hsource : source.snapshot cr verify s none = some (.ok snap) := by
        rw [snapshot_bound sourceBound, Store.folded, hall, lift_ok, hsnap]
        rfl
      refine ⟨?_, snap, hsource, rfl, rfl⟩
      rw [snapshot_bound hbound, snapshot_bound sourceBound, Store.folded, Store.folded]
      unfold Store.verifiedCandidates
      rw [hrows, retained_congr same]

/-! ## One genesis -/

namespace Sample

def ada : Envelope where
  instanceId := 1
  author := alice
  subject := none
  subjectKey := some ⟨"person", "clockchain", "Ada"⟩
  grant := none
  parents := []
  assertedTime := none
  payload := .genesis 5 6 []

def adaId : Hash := 0x7ea8faaef194d89ee525ecf59e5005f120ec5929ab5670ed8e337f74612a95d6

/-- SHA-256 of what is hashed about `ada`, by the length and the fourth byte. -/
def adaDigests : List ((Nat × UInt8) × Hash) :=
  [((192, 11), adaId),
   ((52, 16), 0x58d0b05f86971a7542880219a01470feead7f41e67d1f0edf54cc79e3de6b659),
   ((82, 14), 0xe749051703355eb6ceb1fce7736802fcdcf851cd7e7ecc7c0d9f66753d8241cf),
   ((52, 12), 0xe6b9503a6bb796b2c918d1e36a8060862f0d622a65c75ac9002fa1c97cc6f05e),
   ((2217, 102), 0xfd7b2676d70b628128eb83fbba27b3ebefff6e51823c1d87620d57a4e2ad6208),
   ((163, 12), 0xb315122ca45df8556f00a57b3a940a4412d67e26d57da1a2231f671fea8dfbd6),
   ((256, 11), 0xd164b1cdbe17dc50b01595ae70fb6f37ada8259881f158f1a037dac887776793),
   ((64, 174), 0xae799e2f927ccaadc49b0a1864663ade5b232719dc6eff20a2db9c665d9c4824)]

/-- The digest of the view commitment over `ada`. -/
def adaCommitment : Hash := 0x3d6149d3c87cfe71a7f6e74919595c1afd1c4ab5a77e435a110c984b4c0ac2be

def adaCrypto : Crypto where
  sha256 bytes := (adaDigests.lookup (bytes.length, bytes.getD 3 0)).getD adaCommitment
  authorKey key := key = alice

/-- Alice's signature of `ada`. -/
def adaSignature : Bytes := beBytes 64 0x12ca482c6be7e0c4c79fb049e0b19a654dfed62042d9fad2983377c8a4cd2af5813327cd9ff95936a197994ac2dec4f8d3de73b8f3b06bfa38b8fb68ae2dc903

def adaVerify : Verify := fun key p sig => key = alice && p.length = 192 && sig = adaSignature

def adaFilter : FilterIdentity :=
  ⟨foldV1 adaCrypto, canonVersion, constantsVersion, ttTaxonomy, [alice], trustPolicy, 3⟩

def adaStore : Store := ⟨1, some adaFilter⟩

def adaTables (rows : List (Hash × Bytes)) : Tables :=
  ⟨.ofList rows, ∅, ∅, some (adaFilter.fold, adaFilter.canonical)⟩

theorem ada_preimage : ∃ p, ada.preimage = .ok p ∧ p.length = 192 ∧ p.getD 3 0 = 11 := by
  have h : (ada.preimage.toOption.map fun p => (p.length, p.getD 3 0)) = some (192, 11) := by
    decide +kernel
  cases hp : ada.preimage with
  | error e => simp [hp, Except.toOption] at h
  | ok p =>
    obtain ⟨hlen, hbyte⟩ := Prod.mk.inj (Option.some.inj (hp ▸ h))
    exact ⟨p, rfl, hlen, hbyte⟩

theorem ada_decoded {cr : Crypto} {verify : Verify}
    (hid : ∀ p : Bytes, p.length = 192 → p.getD 3 0 = 11 → cr.sha256 p = adaId)
    (hkey : cr.authorKey alice = true)
    (hverify : ∀ p : Bytes, p.length = 192 → verify alice p adaSignature = true) :
    ∃ d, decode cr verify d.bytes = .ok d ∧ d.envelope = ada ∧ d.id = adaId ∧
      d.bytes.length = 256 ∧ d.bytes.getD 3 0 = 11 := by
  obtain ⟨p, hp, hlen, hbyte⟩ := ada_preimage
  refine ⟨⟨⟨ada, preimage_canonical hp⟩, adaId, p ++ adaSignature⟩, decode_ok.mpr
    ⟨p, adaSignature, hp, beBytes_length _ _, rfl, hkey, hverify p hlen, (hid p hlen hbyte).symm,
      rfl⟩, rfl, rfl, ?_, ?_⟩
  · rw [List.length_append, hlen]
    exact congrArg (192 + ·) (beBytes_length 64 _)
  · rw [List.getD_eq_getElem?_getD, List.getElem?_append_left (by omega),
      ← List.getD_eq_getElem?_getD, hbyte]

theorem ada_decodes : ∃ d, decode adaCrypto adaVerify d.bytes = .ok d ∧ d.envelope = ada ∧
    d.id = adaId ∧ d.bytes.length = 256 ∧ d.bytes.getD 3 0 = 11 := by
  refine ada_decoded (fun p hlen hbyte => ?_) (by decide) fun p hlen => ?_
  · simp only [adaCrypto, hlen, hbyte]
    rfl
  · simp [adaVerify, hlen]

theorem adaStore_bound (rows : List (Hash × Bytes)) :
    adaStore.Bound adaCrypto (adaTables rows) adaFilter := ⟨rfl, rfl, rfl⟩

theorem adaTables_row {id r : Hash} {wire w : Bytes} :
    (adaTables [(id, wire)]).candidates[r]? = some w ↔ (r, w) ∈ [(id, wire)] :=
  getElem?_ofList (l := [(id, wire)]) (List.nodup_singleton id)

theorem adaTables_list (id : Hash) (wire : Bytes) :
    (adaTables [(id, wire)]).candidates.toList = [(id, wire)] := by
  rw [adaTables, Std.ExtTreeMap.ofList_singleton]
  rfl

theorem adaTables_mem {id r : Hash} {wire : Bytes} :
    r ∈ (adaTables [(id, wire)]).candidates ↔ r = id := by
  rw [adaTables, Std.ExtTreeMap.ofList_singleton, mem_map_insert]
  exact or_iff_left Std.ExtTreeMap.not_mem_empty

theorem adaTables_sound {cr : Crypto} {verify : Verify} {d : Decoded}
    (hd : decode cr verify d.bytes = .ok d) (he : d.envelope = ada) :
    adaStore.Sound cr verify (adaTables [(d.id, d.bytes)]) := by
  refine ⟨fun {id wire} h => ?_, fun h => by simp [adaTables] at h⟩
  obtain ⟨rfl, rfl⟩ := Prod.mk.inj (List.mem_singleton.mp (adaTables_row.mp h))
  exact ⟨d, hd, rfl, by rw [he]; rfl⟩

theorem ada_free {C : Candidates} (h : ∀ r ∈ C, r = adaId) : CollisionFree adaCrypto C :=
  CollisionFree.single h (by decide +kernel)

end Sample

/-- Twice the export of a store that holds `ada`, restored into a fresh one. -/
theorem export_restores_ada : ∃ d CS m, decode Sample.adaCrypto Sample.adaVerify d.bytes = .ok d ∧
    d.envelope = Sample.ada ∧
    Sample.adaStore.verifiedCandidates Sample.adaCrypto Sample.adaVerify
      (Sample.adaTables [(d.id, d.bytes)]) = .ok CS ∧
    Sample.adaStore.exportManifest Sample.adaCrypto Sample.adaVerify
      (Sample.adaTables [(d.id, d.bytes)]) none = some (.ok m) ∧
    ∃ t' outcomes, Sample.adaStore.restoreExport Sample.adaCrypto Sample.adaVerify
        (Sample.adaTables []) { m with envelopes := m.envelopes ++ m.envelopes } =
          (t', some (.ok outcomes)) ∧
      ∀ id, id ∈ t'.candidates ↔ id ∈ (∅ : BTreeMap Decoded) ∨ id ∈ CS := by
  obtain ⟨d, hd, he, hid, -⟩ := Sample.ada_decodes
  have hsource := Sample.adaTables_sound hd he
  have htarget : Sample.adaStore.Sound Sample.adaCrypto Sample.adaVerify (Sample.adaTables []) :=
    (Store.Reachable.fresh _).sound
  obtain ⟨CS, hCS, -⟩ := verified_spec hsource
  have free : CollisionFree Sample.adaCrypto (candidatesOf CS) := by
    refine Sample.ada_free fun r hr => ?_
    rw [mem_candidatesOf, verified_mem hsource hCS] at hr
    exact hid ▸ Sample.adaTables_mem.mp hr
  obtain ⟨snapshot, hs, -⟩ := exists_snapshot free Sample.adaFilter
  have hm := (Sample.adaStore_bound _).exportManifest hCS hs
  obtain ⟨-, hrestore⟩ := export_restores Sample.adaCrypto Sample.adaVerify Sample.adaStore
    Sample.adaStore (Sample.adaTables [(d.id, d.bytes)]) (Sample.adaTables []) Sample.adaFilter CS ∅
    (candidatesOf CS) none _ (Sample.adaStore_bound _) (Sample.adaStore_bound _) rfl hsource htarget
    hCS rfl free ⟨id⟩ ⟨fun h => by simp [candidatesOf] at h⟩ hm
  obtain ⟨t', outcomes, h, hmem, -⟩ := hrestore (_ ++ _) fun b => List.mem_append.trans or_self_iff
  exact ⟨d, CS, _, hd, he, hCS, hm, t', outcomes, h, hmem⟩

end Clockchain.V1
