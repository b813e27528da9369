import Clockchain.Operator.Seal

/-!
# The operator's copy of the rule

`ops/v1_identity.py` computes the bytes a filter is named by from the checkout and the operator's
settings. They are the node's as long as the number of curators fits its four bytes: from there
on the script fails, and the node writes the number without its higher bytes.
-/

namespace Clockchain.Operator
open Codec Programs
open V1 (Hash hashBytes NodeSealV1 Build FilterIdentity Crypto framed)
set_option autoImplicit false

def foldVersion : Nat := 1
def canonVersion : Nat := 1
def constantsVersion : Nat := 0
def trustPolicy : String := "cc.trust.curator-genesis-creator.v1"

/-- The files that are hashed: `FOLD_MANIFEST_FILE` and `TAXONOMY_FILE`. -/
structure Checkout where
  foldManifest : Bytes
  taxonomy : Bytes

/-- The files are the ones the node was built from. -/
structure Checkout.Pinned (cr : Crypto) (files : Checkout) : Prop where
  foldManifest : cr.sha256 files.foldManifest = (V1.foldV1 cr).manifest
  taxonomy : cr.sha256 files.taxonomy = V1.ttTaxonomy

section
variable (cr : Crypto) (files : Checkout)

/-- `hashlib.sha256(data).digest()`. -/
def sha (data : Bytes) : Bytes := hashBytes (cr.sha256 data)

def filterCanonical (curators : List Bytes) (maxHops : Nat) : Except OpsError Bytes := do
  let policy ← encode (text trustPolicy)
  fields [frame "cc.filter.v1", u16 foldVersion, .ok (sha cr files.foldManifest),
    u16 canonVersion, u16 constantsVersion, .ok (sha cr files.taxonomy), u32 curators.length,
    .ok curators.flatten, u32 policy.length, .ok policy, u16 maxHops]

end

theorem governed_ok {cr : Crypto} {curators : List Hash} {maxHops : BitVec 16}
    {f : FilterIdentity} (h : FilterIdentity.governed cr curators maxHops = .ok f) :
    f = ⟨V1.foldV1 cr, V1.canonVersion, V1.constantsVersion, V1.ttTaxonomy, curators,
      V1.trustPolicy, maxHops⟩ := by
  unfold FilterIdentity.governed at h
  split at h
  · cases h
  split at h
  · cases h
  · exact (Except.ok.inj h).symm

theorem governed_isGoverned {cr : Crypto} {curators : List Hash} {maxHops : BitVec 16}
    {f : FilterIdentity} (h : FilterIdentity.governed cr curators maxHops = .ok f) :
    f.isGoverned cr = true := by
  have hf := governed_ok h
  unfold FilterIdentity.isGoverned
  rw [hf] at h ⊢
  rw [h]
  exact decide_eq_true rfl

section
variable {cr : Crypto} {files : Checkout}

/-- The parts of the name of a filter. -/
def filterParts (cr : Crypto) (files : Checkout) (curators : List Hash) (maxHops : BitVec 16) :
    List Bytes :=
  [framed "cc.filter.v1", beBytes 2 1, sha cr files.foldManifest, beBytes 2 1, beBytes 2 0,
    sha cr files.taxonomy, beBytes 4 curators.length, curators.flatMap hashBytes,
    beBytes 4 trustPolicy.utf8ByteSize, trustPolicy.toUTF8.data.toList, beBytes 2 maxHops.toNat]

theorem canonical_parts (pinned : files.Pinned cr) {curators : List Hash} {maxHops : BitVec 16}
    {f : FilterIdentity} (h : FilterIdentity.governed cr curators maxHops = .ok f) :
    f.canonical = (filterParts cr files curators maxHops).flatten := by
  rw [governed_ok h]
  simp only [FilterIdentity.canonical, filterParts, sha, pinned.foldManifest, pinned.taxonomy,
    List.flatten_cons, List.flatten_nil, List.append_nil, List.append_assoc]
  change _ ++ (_ ++ (_ ++ (_ ++ (_ ++ (_ ++ (_ ++ (_ ++ (framed trustPolicy ++ _)))))))) = _
  rw [V1.framed_eq trustPolicy, List.append_assoc]
  rfl

/-- What the script writes, and when it fails. -/
theorem filterCanonical_eq (curators : List Hash) (maxHops : BitVec 16) :
    filterCanonical cr files (curators.map hashBytes) maxHops.toNat =
      if curators.length < 2 ^ 32 then .ok (filterParts cr files curators maxHops).flatten
      else .error .struct := by
  have hframe : frame "cc.filter.v1" = .ok (framed "cc.filter.v1") := by
    rw [V1.framed_eq]
    exact frame_ok _ (by decide)
  have hpolicy : u32 trustPolicy.toUTF8.data.toList.length =
      .ok (beBytes 4 trustPolicy.utf8ByteSize) := pack_ok (by rw [length_toUTF8]; decide)
  have hhops : u16 maxHops.toNat = .ok (beBytes 2 maxHops.toNat) :=
    pack_ok (by have := maxHops.isLt; omega)
  have hflat : (curators.map hashBytes).flatten = curators.flatMap hashBytes :=
    List.flatMap_def.symm
  have hwrite : filterCanonical cr files (curators.map hashBytes) maxHops.toNat =
      fields [.ok (framed "cc.filter.v1"), .ok (beBytes 2 1), .ok (sha cr files.foldManifest),
        .ok (beBytes 2 1), .ok (beBytes 2 0), .ok (sha cr files.taxonomy), u32 curators.length,
        .ok (curators.flatMap hashBytes), .ok (beBytes 4 trustPolicy.utf8ByteSize),
        .ok trustPolicy.toUTF8.data.toList, .ok (beBytes 2 maxHops.toNat)] := by
    simp only [filterCanonical, encode_text, ok_bind, hframe, hpolicy, hhops, hflat,
      List.length_map]
    rfl
  rw [hwrite]
  by_cases hlen : curators.length < 2 ^ 32
  · rw [if_pos hlen, show u32 curators.length = .ok (beBytes 4 curators.length) from
      pack_ok (by omega)]
    exact fields_ok (filterParts cr files curators maxHops)
  · rw [if_neg hlen, show u32 curators.length = .error .struct from if_neg (by omega)]
    rfl

/-- The operator's scripts agree with the node. A served seal is encoded to the bytes the node
signs, nothing but a served seal passes for one, and a filter of fewer than `2 ^ 32` curators is
named by the node's bytes, which determine the curators and the hop bound. -/
theorem operator_agrees (pinned : files.Pinned cr) :
    (∀ (s : NodeSealV1) (p : Bytes), s.preimage = .ok p → encodeSeal (served s) = .ok p) ∧
    (∀ d : Py, (∃ n, normalizeSeal d = .ok n) ↔
      ∃ (s : NodeSealV1) (p : Bytes), s.preimage = .ok p ∧ d = served s) ∧
    (∀ (curators : List Hash) (maxHops : BitVec 16) (f : FilterIdentity),
      FilterIdentity.governed cr curators maxHops = .ok f →
      filterCanonical cr files (curators.map hashBytes) maxHops.toNat =
        if curators.length < 2 ^ 32 then .ok f.canonical else .error .struct) ∧
    ∀ (curators curators' : List Hash) (maxHops maxHops' : BitVec 16) (f f' : FilterIdentity),
      FilterIdentity.governed cr curators maxHops = .ok f →
      FilterIdentity.governed cr curators' maxHops' = .ok f' →
      f.canonical = f'.canonical → curators = curators' ∧ maxHops = maxHops' := by
  refine ⟨fun s p h => ?_, fun d => ?_, fun curators maxHops f h => ?_,
    fun curators curators' maxHops maxHops' f f' h h' heq => ?_⟩
  · have hbuild := (V1.seal_preimage_ok.mp h).1
    rw [encodeSeal_served hbuild, Except.ok.inj ((preimage_parts hbuild).symm.trans h)]
  · constructor
    · rintro ⟨n, h⟩
      obtain ⟨s, hs, rfl, -⟩ := normalizeSeal_ok.mp h
      exact ⟨s, _, preimage_parts hs, rfl⟩
    · rintro ⟨s, p, h, rfl⟩
      exact ⟨_, normalizeSeal_ok.mpr ⟨s, (V1.seal_preimage_ok.mp h).1, rfl, rfl⟩⟩
  · rw [filterCanonical_eq, canonical_parts pinned h]
  · have hsame := V1.canonical_inj (governed_isGoverned h) (governed_isGoverned h') heq
    rw [governed_ok h, governed_ok h'] at hsame
    exact ⟨(FilterIdentity.mk.inj hsame).2.2.2.2.1, (FilterIdentity.mk.inj hsame).2.2.2.2.2.2⟩

end

/-! ## More curators than the four bytes of their number can say -/

/-- `cr` takes `n` keys or more. -/
def Takes (cr : Crypto) (n : Nat) : Prop :=
  ∃ keys : List Hash, keys.Nodup ∧ n ≤ keys.length ∧ ∀ k ∈ keys, cr.authorKey k

/-- In ascending order the keys are a set of curators the node takes. -/
theorem Takes.governed {cr : Crypto} {n : Nat} (hn : 0 < n) (h : Takes cr n) :
    ∃ curators f, n ≤ curators.length ∧ FilterIdentity.governed cr curators 4 = .ok f := by
  obtain ⟨keys, hnodup, hlen, hkeys⟩ := h
  have hperm := List.mergeSort_perm keys (· ≤ ·)
  have hsorted : (keys.mergeSort (· ≤ ·)).Pairwise (· < ·) := by
    have hle : (keys.mergeSort (· ≤ ·)).Pairwise fun a b => decide (a ≤ b) = true := by
      refine List.pairwise_mergeSort ?_ ?_ keys
      · simp only [decide_eq_true_eq]
        exact fun _ _ _ => BitVec.le_trans
      · simp only [Bool.or_eq_true, decide_eq_true_eq]
        exact BitVec.le_total
    have hne : (keys.mergeSort (· ≤ ·)).Pairwise (· ≠ ·) := hperm.nodup_iff.mpr hnodup
    exact hle.imp₂ (fun a b hab hne => BitVec.lt_of_le_ne (of_decide_eq_true hab) hne) hne
  have hlen : n ≤ (keys.mergeSort (· ≤ ·)).length := hperm.length_eq ▸ hlen
  refine ⟨keys.mergeSort (· ≤ ·), _, hlen, (if_neg ?_).trans (if_neg (by decide))⟩
  rintro (h | h | h)
  · rw [List.isEmpty_iff.mp h] at hlen
    exact absurd hlen (by simpa using hn.ne')
  · exact h hsorted.isChain
  · obtain ⟨k, hk, hnot⟩ := List.any_eq_true.mp h
    simp [hkeys k (hperm.mem_iff.mp hk)] at hnot

namespace Sample

def taxonomy : Bytes := [0x7b, 0x7d]

/-- Any digest will do that gives the taxonomy its pinned one. -/
def crypto : Crypto where
  sha256 bs := if bs = taxonomy then V1.ttTaxonomy else BitVec.ofNat 256 (beNat bs)
  authorKey _ := true

def files : Checkout where
  foldManifest := V1.foldManifest.toUTF8.toList
  taxonomy := taxonomy

theorem pinned : files.Pinned crypto := ⟨rfl, by decide⟩

theorem takes : Takes crypto (2 ^ 32) := by
  refine ⟨(List.range (2 ^ 32)).map (BitVec.ofNat 256), ?_, ?_, fun _ _ => rfl⟩
  · refine List.nodup_range.map_on ?_
    intro a ha b hb hab
    rw [List.mem_range] at ha hb
    have h := congrArg BitVec.toNat hab
    rwa [BitVec.toNat_ofNat, BitVec.toNat_ofNat, Nat.mod_eq_of_lt (by omega),
      Nat.mod_eq_of_lt (by omega)] at h
  · rw [List.length_map, List.length_range]

/-- Whichever keys are points of the curve: when there are `2 ^ 32` of them, the script fails on
a list of them that the node names. -/
theorem operator_disagrees : (∃ cr, Takes cr (2 ^ 32)) ∧
    ¬ ∃ (cr : Crypto) (files : Checkout), Takes cr (2 ^ 32) ∧
      ∀ (curators : List Hash) (maxHops : BitVec 16) (f : FilterIdentity),
        FilterIdentity.governed cr curators maxHops = .ok f →
        filterCanonical cr files (curators.map hashBytes) maxHops.toNat = .ok f.canonical := by
  refine ⟨⟨crypto, takes⟩, ?_⟩
  rintro ⟨cr, files, htakes, hall⟩
  obtain ⟨curators, f, hlen, hf⟩ := htakes.governed (by decide)
  have h := hall curators 4 f hf
  rw [filterCanonical_eq, if_neg (Nat.not_lt.mpr hlen)] at h
  cases h

def sealed : NodeSealV1 where
  instanceId := 1
  nodeKey := 2
  foldVersion := V1.foldV1 crypto
  filterVersion := 3
  corpusDigest := 4
  commitment := 5
  counts := ⟨6⟩
  build := "0123abc"
  sealedAtUs := 7

theorem operator_agrees_sealed :
    ∃ p, sealed.preimage = .ok p ∧ encodeSeal (served sealed) = .ok p :=
  have hp := preimage_parts (s := sealed) (by decide +kernel)
  ⟨_, hp, (operator_agrees pinned).1 sealed _ hp⟩

end Sample

end Clockchain.Operator
