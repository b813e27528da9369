import Clockchain.Operator.Succession

/-!
# The seals of a node

`serve_v1.rs`: what `GET /v1/seal` signs about the committed snapshot. A node that only retains
more candidates, with a clock that goes forward, serves seals that succeed one another.
-/

namespace Clockchain.Operator
open Codec Maps Programs
open V1
set_option autoImplicit false

/-- The handler `seal`, up to the signature. -/
def sealOf (instanceId nodeKey : V1.Hash) (build : String) (s : V1.Snapshot) (now : BitVec 64) :
    NodeSealV1 where
  instanceId
  nodeKey
  foldVersion := s.rule.fold
  filterVersion := s.rule.filterVersion
  corpusDigest := s.corpusDigest
  commitment := s.commitment
  counts := ⟨BitVec.ofNat 64 s.projection.rows.length⟩
  build
  sealedAtUs := now

/-! ## What the digests cover -/

def corpusBytes (ids : List V1.Hash) : Bytes :=
  framed "cc.corpus.v1" ++ beBytes 4 ids.length ++ ids.flatMap hashBytes

def viewBytes (cr : Crypto) (filter : FilterIdentity) (corpus : V1.Hash) (rows : Bytes) : Bytes :=
  framed "cc.view.v1" ++ beBytes 2 V1.canonVersion.toNat ++ beBytes 2 filter.fold.version.toNat
    ++ hashBytes filter.fold.manifest ++ hashBytes (filter.version cr) ++ hashBytes corpus
    ++ beBytes 8 rows.length ++ rows

/-- The two inputs of SHA-256 that a seal of the snapshot rests on. -/
def digested (cr : Crypto) (s : V1.Snapshot) : Set Bytes :=
  {corpusBytes (s.projection.rows.map EventReading.event),
    viewBytes cr s.filter s.corpusDigest (canonicalRows s.projection)}

theorem corpusBytes_inj {ids ids' : List V1.Hash} (h : corpusBytes ids = corpusBytes ids') :
    ids = ids' := by
  obtain ⟨-, hids⟩ := List.append_inj h (by
    simp only [List.length_append, beBytes_length])
  exact flatMap_injective (by decide) hashBytes_length (fun _ _ h => hashBytes_injective h) hids

theorem viewBytes_corpus {cr : Crypto} {filter : FilterIdentity} {corpus corpus' : V1.Hash}
    {rows rows' : Bytes}
    (h : viewBytes cr filter corpus rows = viewBytes cr filter corpus' rows') :
    corpus = corpus' := by
  simp only [viewBytes, List.append_assoc, List.append_cancel_left_eq] at h
  exact hashBytes_injective (List.append_inj h (by rw [hashBytes_length, hashBytes_length])).1

/-! ## Snapshots -/

section
variable {cr : Crypto} {verify : Verify} {store : Store} {t t' : Tables} {s s' : V1.Snapshot}
variable {requested requested' : Option FoldRef}

theorem project_events {C : Candidates} {p : Projection} (h : project cr C = some p) :
    p.rows.map EventReading.event = C.keys := by
  unfold project at h
  simp only [Option.bind_eq_bind, Option.bind_eq_some_iff] at h
  obtain ⟨_, _, _, _, _, _, _, _, ⟨_, _⟩, _, ⟨_, _, _⟩, _, rows, hrows, hp⟩ := h
  obtain rfl := Option.some.inj hp
  rw [← Std.ExtTreeMap.map_fst_toList_eq_keys]
  exact mapM_map hrows fun item r hr => eventReading_event hr

/-- A snapshot folds the verified candidates under the rule of its store. -/
theorem snapshot_folds (h : store.snapshot cr verify t requested = some (.ok s)) :
    ∃ filter all, store.rule = some filter ∧ store.verifiedCandidates cr verify t = .ok all ∧
      Snapshot.of cr filter (candidatesOf all) = some s := by
  simp only [Store.snapshot, Store.folded, run_bind_ok, liftExcept_ok, liftOption_ok] at h
  obtain ⟨filter, hready, all, hall, hs⟩ := h
  exact ⟨filter, all, ready_rule hready, hall, hs⟩

theorem snapshot_of {filter : FilterIdentity} {C : Candidates}
    (h : Snapshot.of cr filter C = some s) :
    s.filter = filter ∧ s.rule = .of cr filter ∧
      s.projection.rows.map EventReading.event = C.keys ∧
      s.corpusDigest = cr.sha256 (corpusBytes (s.projection.rows.map EventReading.event)) ∧
      s.commitment = cr.sha256 (viewBytes cr s.filter s.corpusDigest
        (canonicalRows s.projection)) := by
  obtain ⟨p, hp, hs⟩ := Option.bind_eq_some_iff.mp h
  obtain rfl := Option.some.inj hs
  exact ⟨rfl, rfl, project_events hp, by rw [project_events hp]; rfl, rfl⟩

/-- The rows of a snapshot are the candidates of its tables. -/
theorem snapshot_rows (h : store.snapshot cr verify t requested = some (.ok s)) :
    ∃ C : Candidates, (∀ id : V1.Hash, id ∈ C ↔ id ∈ t.candidates) ∧
      s.projection.rows.map EventReading.event = C.keys := by
  obtain ⟨filter, all, -, hall, hof⟩ := snapshot_folds h
  refine ⟨candidatesOf all, fun id => ?_, (snapshot_of hof).2.2.1⟩
  exact mem_candidatesOf.trans
    (verified_mem (t := { t with receipts := ∅ }) (sound_of_verified hall) hall)

theorem snapshot_same (heq : t'.candidates = t.candidates)
    (h : store.snapshot cr verify t requested = some (.ok s))
    (h' : store.snapshot cr verify t' requested' = some (.ok s')) : s' = s := by
  obtain ⟨filter, all, hrule, hall, hof⟩ := snapshot_folds h
  obtain ⟨filter', all', hrule', hall', hof'⟩ := snapshot_folds h'
  obtain rfl := Option.some.inj (hrule.symm.trans hrule')
  rw [Store.verifiedCandidates, heq] at hall'
  obtain rfl := Except.ok.inj (hall.symm.trans hall')
  exact Option.some.inj (hof'.symm.trans hof)

/-- Snapshots of other candidates have other digests. -/
theorem snapshot_differs (inj : Set.InjOn cr.sha256 (digested cr s ∪ digested cr s'))
    (h : store.snapshot cr verify t requested = some (.ok s))
    (h' : store.snapshot cr verify t' requested' = some (.ok s'))
    (hne : s'.projection.rows.map EventReading.event ≠ s.projection.rows.map EventReading.event) :
    s'.corpusDigest ≠ s.corpusDigest ∧ s'.commitment ≠ s.commitment := by
  obtain ⟨filter, all, hrule, -, hof⟩ := snapshot_folds h
  obtain ⟨filter', all', hrule', -, hof'⟩ := snapshot_folds h'
  obtain rfl := Option.some.inj (hrule.symm.trans hrule')
  obtain ⟨hfilter, -, -, hcorpus, hcommitment⟩ := snapshot_of hof
  obtain ⟨hfilter', -, -, hcorpus', hcommitment'⟩ := snapshot_of hof'
  have hdiffers : s'.corpusDigest ≠ s.corpusDigest := by
    intro heq
    rw [hcorpus, hcorpus'] at heq
    exact hne (corpusBytes_inj (inj (by simp [digested]) (by simp [digested]) heq))
  refine ⟨hdiffers, fun heq => hdiffers ?_⟩
  rw [hcommitment, hcommitment'] at heq
  have hview := inj (by simp [digested]) (by simp [digested]) heq
  rw [hfilter, hfilter'] at hview
  exact viewBytes_corpus hview

/-- The seal of tables that grew, at a later moment, succeeds the one before. -/
theorem node_succeeds (instanceId nodeKey : V1.Hash) (build build' : String) {now now' : BitVec 64}
    (grows : t.Grows t') (clock : now.toNat < now'.toNat)
    (inj : Set.InjOn cr.sha256 (digested cr s ∪ digested cr s'))
    (usize : s'.projection.rows.length < 2 ^ 64)
    (h : store.snapshot cr verify t requested = some (.ok s))
    (h' : store.snapshot cr verify t' requested' = some (.ok s')) :
    Succeeds (sealFields (sealOf instanceId nodeKey build s now))
      (sealFields (sealOf instanceId nodeKey build' s' now')) := by
  obtain ⟨C, hC, hrows⟩ := snapshot_rows h
  obtain ⟨C', hC', hrows'⟩ := snapshot_rows h'
  have hsub : ∀ id ∈ C, id ∈ C' := by
    intro id hid
    obtain ⟨wire, hwire⟩ := mem_iff.mp ((hC id).mp hid)
    exact (hC' id).mpr (mem_iff.mpr ⟨wire, grows.row hwire⟩)
  have hsize : s.projection.rows.length = C.size := by
    rw [← List.length_map EventReading.event, hrows, Std.ExtTreeMap.length_keys]
  have hsize' : s'.projection.rows.length = C'.size := by
    rw [← List.length_map EventReading.event, hrows', Std.ExtTreeMap.length_keys]
  have hle : C.size ≤ C'.size := by
    rw [← ncard_keys C]
    exact ncard_le_size hsub
  have hcount : (sealFields (sealOf instanceId nodeKey build s now)).candidates = C.size := by
    change (BitVec.ofNat 64 s.projection.rows.length).toNat = C.size
    rw [BitVec.toNat_ofNat, Nat.mod_eq_of_lt (by omega), hsize]
  have hcount' : (sealFields (sealOf instanceId nodeKey build' s' now')).candidates = C'.size := by
    change (BitVec.ofNat 64 s'.projection.rows.length).toNat = C'.size
    rw [BitVec.toNat_ofNat, Nat.mod_eq_of_lt usize, hsize']
  by_cases hgrown : C.size < C'.size
  · obtain ⟨id, hid, hnew⟩ := (size_lt_iff hsub).mp hgrown
    have hne : s'.projection.rows.map EventReading.event ≠
        s.projection.rows.map EventReading.event := by
      rw [hrows, hrows']
      intro heq
      exact hnew (Std.ExtTreeMap.mem_keys.mp (heq ▸ Std.ExtTreeMap.mem_keys.mpr hid))
    obtain ⟨hcorpus, hcommitment⟩ := snapshot_differs inj h h' hne
    have hlt : (sealFields (sealOf instanceId nodeKey build s now)).candidates <
        (sealFields (sealOf instanceId nodeKey build' s' now')).candidates := by
      rw [hcount, hcount']
      exact hgrown
    exact ⟨clock, hlt.le, iff_of_true (fun heq => hcorpus (hashText_injective heq)) hlt,
      iff_of_true (fun heq => hcommitment (hashText_injective heq)) hlt⟩
  · have hback : ∀ id ∈ C', id ∈ C := by
      intro id hid
      by_contra hnew
      exact hgrown ((size_lt_iff hsub).mpr ⟨id, hid, hnew⟩)
    have hsame : t'.candidates = t.candidates := by
      refine ext_graph fun id wire => ⟨fun hwire => ?_, grows.row⟩
      have hold := (hC id).mp (hback id ((hC' id).mpr (mem_iff.mpr ⟨wire, hwire⟩)))
      obtain ⟨wire', hwire'⟩ := mem_iff.mp hold
      rw [← Option.some.inj ((grows.row hwire').symm.trans hwire)]
      exact hwire'
    obtain rfl := snapshot_same hsame h h'
    refine ⟨clock, le_rfl, iff_of_false (fun hne => hne rfl) (lt_irrefl _),
      iff_of_false (fun hne => hne rfl) (lt_irrefl _)⟩

end

end Clockchain.Operator
