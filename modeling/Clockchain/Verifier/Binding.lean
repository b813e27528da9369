import Clockchain.Verifier.Reads

/-!
# What a commitment binds

Documents that pass under one commitment are one document, whoever has served them: nothing that a
snapshot holds is outside of its commitment.
-/

namespace Clockchain.Verifier
open Codec (Bytes beBytes)
open Json (Value tidy)
open Public (Node hex32)
open V1 (Crypto FoldRef Hash Verify framed hashBytes)
open V1.Publisher (hex)
set_option autoImplicit false

/-! ## Commitments -/

def viewInput (fold : FoldRef) (version corpus : Hash) (rows : Bytes) : Bytes :=
  framed "cc.view.v1" ++ beBytes 2 V1.canonVersion.toNat ++ beBytes 2 fold.version.toNat
    ++ hashBytes fold.manifest ++ hashBytes version ++ hashBytes corpus
    ++ beBytes 8 rows.length ++ rows

/-- What is hashed for the commitment of an input. -/
def committed (cr : Crypto) (w : Wording) (i : Input) : Set Bytes :=
  {b | ∃ served s fold version, i.snapshot = some served ∧ snapshotForm.get served = some s ∧
    (identity cr w i.health).2 = some (fold, version) ∧
    b = viewInput fold version (V1.corpusDigest cr (s.rows.map Row.event))
      (CanonicalRows.of s).bytes}

theorem committed_subsingleton (cr : Crypto) (w : Wording) (i : Input) :
    (committed cr w i).Subsingleton := by
  rintro b ⟨served, s, fold, version, hserved, hread, hidentity, rfl⟩
    b' ⟨served', s', fold', version', hserved', hread', hidentity', rfl⟩
  obtain rfl := Option.some.inj (hserved.symm.trans hserved')
  obtain rfl := Option.some.inj (hread.symm.trans hread')
  obtain ⟨rfl, rfl⟩ := Prod.mk.inj (Option.some.inj (hidentity.symm.trans hidentity'))
  rfl

theorem viewInput_inj {fold fold' : FoldRef} {version version' corpus corpus' : Hash}
    {rows rows' : Bytes}
    (h : viewInput fold version corpus rows = viewInput fold' version' corpus' rows') :
    version = version' ∧ corpus = corpus' ∧ rows = rows' := by
  have hhash : ∀ a b : Hash, (hashBytes a).length = (hashBytes b).length := fun a b =>
    (V1.hashBytes_length a).trans (V1.hashBytes_length b).symm
  obtain ⟨h, hrows⟩ := List.append_inj h (by
    simp only [List.length_append, Codec.beBytes_length, V1.hashBytes_length])
  obtain ⟨h, -⟩ := List.append_inj' h (by simp only [Codec.beBytes_length])
  obtain ⟨h, hcorpus⟩ := List.append_inj' h (hhash _ _)
  obtain ⟨-, hversion⟩ := List.append_inj' h (hhash _ _)
  exact ⟨V1.hashBytes_injective hversion, V1.hashBytes_injective hcorpus, hrows⟩

/-- Canonical rows hold every value of the snapshot they are made of. -/
theorem CanonicalRows.of_inj {s s' : Snapshot} (h : CanonicalRows.of s = CanonicalRows.of s') :
    s.rows = s'.rows ∧ s.revisions = s'.revisions ∧ s.subjects = s'.subjects ∧
      s.authority = s'.authority ∧ s.edges = s'.edges ∧ s.media = s'.media := by
  obtain ⟨rule, corpus, commitment, rows, subjects, revisions, edges, media, authority⟩ := s
  obtain ⟨rule', corpus', commitment', rows', subjects', revisions', edges', media',
    authority'⟩ := s'
  obtain ⟨grants, active, tombstones, effectiveRevokes, canceled, effects⟩ := authority
  obtain ⟨grants', active', tombstones', effectiveRevokes', canceled', effects'⟩ := authority'
  simp only [CanonicalRows.of, CanonicalRows.mk.injEq, true_and] at h
  obtain ⟨rfl, rfl, rfl, rfl, rfl, rfl, rfl, rfl, rfl, rfl, rfl⟩ := h
  exact ⟨rfl, rfl, rfl, rfl, rfl, rfl⟩

/-- The canonical rows of a snapshot, its rule and its names are all of it. -/
theorem snapshot_ext {s s' : Snapshot} (hrule : s.rule = s'.rule)
    (hcorpus : s.corpusDigest = s'.corpusDigest) (hcommitment : s.commitment = s'.commitment)
    (h : CanonicalRows.of s = CanonicalRows.of s') : s = s' := by
  obtain ⟨hrows, hrevisions, hsubjects, hauthority, hedges, hmedia⟩ := CanonicalRows.of_inj h
  cases s
  cases s'
  rw [Snapshot.mk.injEq]
  exact ⟨hrule, hcorpus, hcommitment, hrows, hsubjects, hrevisions, hedges, hmedia, hauthority⟩

section
variable {cr : Crypto} {signed : Verify} {w : Wording}

theorem rule_ext {r r' : RuleJson} (hnumber : r.foldVersion = r'.foldVersion)
    (hmanifest : hex32 r.foldManifest = hex32 r'.foldManifest)
    (hfilter : hex32 r.filterVersion = hex32 r'.filterVersion)
    (h : ∃ m f, hex32 r.foldManifest = some m ∧ hex32 r.filterVersion = some f) : r = r' := by
  obtain ⟨m, f, hm, hf⟩ := h
  obtain ⟨number, manifest, filter⟩ := r
  obtain ⟨number', manifest', filter'⟩ := r'
  rw [RuleJson.mk.injEq]
  refine ⟨hnumber, ?_, ?_⟩
  · exact (hex32_iff.mp hm).trans (hex32_iff.mp (hmanifest.symm.trans hm)).symm
  · exact (hex32_iff.mp hf).trans (hex32_iff.mp (hfilter.symm.trans hf)).symm

theorem Verifies.committed {i : Input} {fold : FoldRef} {version : Hash} {s : Snapshot}
    (h : Verifies cr signed w i fold version s) :
    viewInput fold version (V1.corpusDigest cr (s.rows.map Row.event)) (CanonicalRows.of s).bytes ∈
      committed cr w i := by
  obtain ⟨served, hserved, hread, -⟩ := h.matched
  exact ⟨served, s, fold, version, hserved, hread, h.identity, rfl⟩

end

/-- Whatever passes under one commitment is one snapshot, and one document up to the order of
members. -/
theorem commitment_binds (cr : Crypto) (signed : Verify) (w : Wording) (i j : Input)
    (inj : Set.InjOn cr.sha256 (committed cr w i ∪ committed cr w j))
    (hi : (verify cr signed w i).outcome ≠ .failed) (hj : (verify cr signed w j).outcome ≠ .failed)
    (heq : (verify cr signed w i).recomputed.commitment =
      (verify cr signed w j).recomputed.commitment) :
    ∃ served served', i.snapshot = some served ∧ j.snapshot = some served' ∧
      snapshotForm.get served = snapshotForm.get served' ∧ tidy served = tidy served' := by
  obtain ⟨fold, version, s, h⟩ := verify_ok.mp hi
  obtain ⟨fold', version', s', h'⟩ := verify_ok.mp hj
  obtain ⟨served, hserved, hread, hmatches⟩ := h.matched
  obtain ⟨served', hserved', hread', hmatches'⟩ := h'.matched
  obtain ⟨-, -, -, hcommitment, -⟩ := h.recomputed
  obtain ⟨-, -, -, hcommitment', -⟩ := h'.recomputed
  obtain ⟨hfold, -⟩ := identity_some h.identity
  obtain ⟨hfold', -⟩ := identity_some h'.identity
  have htext : s.commitment = s'.commitment :=
    Option.some.inj (hcommitment.symm.trans (heq.trans hcommitment'))
  -- equal commitments have one input of SHA-256
  have hdigest := hmatches.commitment
  rw [htext, hmatches'.commitment, Option.some.injEq] at hdigest
  have hinput := inj (.inr h'.committed) (.inl h.committed) hdigest
  obtain ⟨rfl, hcorpus, hbytes⟩ := viewInput_inj hinput
  have hrows := CanonicalRows.bytes_injective hbytes
  have hrule : s.rule = s'.rule := by
    refine rule_ext ?_ ?_ ?_ ⟨_, _, hmatches.foldManifest, hmatches.filterVersion⟩
    · rw [hmatches.foldVersion, hmatches'.foldVersion, hfold, hfold']
    · rw [hmatches.foldManifest, hmatches'.foldManifest, hfold, hfold']
    · rw [hmatches.filterVersion, hmatches'.filterVersion]
  have hsame : s = s' := by
    refine snapshot_ext hrule ?_ htext hrows.symm
    rw [hex32_iff.mp hmatches.corpus, hex32_iff.mp hmatches'.corpus, hcorpus]
  refine ⟨served, served', hserved, hserved', ?_, ?_⟩
  · rw [hread, hread', hsame]
  · rw [← hmatches.canonical, ← hmatches'.canonical, hsame]

/-- One snapshot served with its export, and without. -/
theorem commitment_binds_ada : ∃ (d : V1.Decoded) (i j : Input), d.envelope = V1.Sample.ada ∧
    i.exported.isSome ∧ j.exported.isNone ∧
    (verify V1.Sample.adaCrypto V1.Sample.adaVerify Sample.wording i).outcome = .verified ∧
    (verify V1.Sample.adaCrypto V1.Sample.adaVerify Sample.wording j).outcome = .partly ∧
    ∃ served served', i.snapshot = some served ∧ j.snapshot = some served' ∧
      snapshotForm.get served = snapshotForm.get served' ∧ tidy served = tidy served' := by
  obtain ⟨d, s, m, -, he, -, free, hs, hm, hrows⟩ := Sample.ada_served
  obtain ⟨-, hi, -, -, hcommitment⟩ := honest_verifies V1.Sample.adaCrypto V1.Sample.adaVerify
    Sample.wording (Public.Sample.adaNode d) free V1.Sample.adaFilter_governed s hs (some m)
    (fun m' hm' => Option.some.inj hm' ▸ hm) [] (fun read hread => absurd hread List.not_mem_nil)
  obtain ⟨-, hj, -, -, hcommitment'⟩ := honest_verifies V1.Sample.adaCrypto V1.Sample.adaVerify
    Sample.wording (Public.Sample.adaNode d) free V1.Sample.adaFilter_governed s hs none
    (fun m' hm' => absurd hm' (Option.not_mem_none _)) []
    (fun read hread => absurd hread List.not_mem_nil)
  rw [if_pos ⟨rfl, hrows⟩] at hi
  rw [if_neg fun h => Bool.noConfusion h.1] at hj
  have hcommitted : committed V1.Sample.adaCrypto Sample.wording
      (honest V1.Sample.adaCrypto (Public.Sample.adaNode d) s none []) =
    committed V1.Sample.adaCrypto Sample.wording
      (honest V1.Sample.adaCrypto (Public.Sample.adaNode d) s (some m) []) := rfl
  refine ⟨d, _, _, he, rfl, rfl, hi, hj, commitment_binds V1.Sample.adaCrypto V1.Sample.adaVerify
    Sample.wording _ _ ?_ ?_ ?_ (hcommitment.trans hcommitment'.symm)⟩
  · rw [hcommitted, Set.union_self]
    exact (committed_subsingleton _ _ _).injOn _
  · rw [hi]
    decide
  · rw [hj]
    decide

end Clockchain.Verifier
