import Clockchain.Operator.Python
import Clockchain.V1.Seal

/-!
# The operator's copy of the seal and of the rule

`ops/seal_v1.py` and `ops/v1_identity.py` compute the bytes a seal signs and the bytes a filter
is named by from JSON, without the node. Both agree with the node, and a document is a seal for
the operator when it is what the node serves for one.
-/

namespace Clockchain.Operator
open Codec Programs
open V1 (Hash hashBytes NodeSealV1 Build FilterIdentity Crypto)
set_option autoImplicit false

/-! ## `seal_v1.py` -/

def domain : String := "cc.seal.v1"
def maxBuild : Nat := 64

/-- `SEAL_KEYS`, in order. -/
def sealKeys : List String :=
  ["build", "commitment", "corpus_digest", "counts", "filter_version", "fold_version", "instance",
    "node_key", "sealed_at_us"]

/-- What `normalize_seal` returns. -/
structure SealFields where
  instanceId : Text
  nodeKey : Text
  version : Nat
  manifest : Text
  filterVersion : Text
  corpusDigest : Text
  commitment : Text
  candidates : Nat
  build : Text
  sealedAtUs : Nat
  deriving Repr, DecidableEq

/-- The `dict` it is. -/
def SealFields.toPy (s : SealFields) : Py :=
  .dict [(text "build", .str s.build), (text "commitment", .str s.commitment),
    (text "corpus_digest", .str s.corpusDigest),
    (text "counts", .dict [(text "candidates", .int s.candidates)]),
    (text "filter_version", .str s.filterVersion),
    (text "fold_version", .dict [(text "manifest", .str s.manifest),
      (text "version", .int s.version)]),
    (text "instance", .str s.instanceId), (text "node_key", .str s.nodeKey),
    (text "sealed_at_us", .int s.sealedAtUs)]

/-- `type(value) is int and 0 <= value < 1 << bits`. -/
def unsigned (bits : Nat) (message : String) : Py → Except OpsError Nat
  | .int n =>
    if 0 ≤ n ∧ n.toNat < 2 ^ bits then .ok n.toNat else .error (.sealInvalid message)
  | _ => .error (.sealInvalid message)

/-- `_u64`. -/
def asU64 (name : String) : Py → Except OpsError Nat :=
  unsigned 64 s!"{name} is not an unsigned 64-bit integer"

/-- `_hex32`. -/
def hex32 (name : String) : Py → Except OpsError Text
  | .str s =>
    if hex64 s then .ok s else .error (.sealInvalid s!"{name} is not a 32-byte lowercase hex hash")
  | _ => .error (.sealInvalid s!"{name} is not a 32-byte lowercase hex hash")

def buildMessage : String := "build is not a short printable ASCII string"

def buildText : Py → Except OpsError Text
  | .str s => do
    let bytes ← encode s
    if ¬ (0 < bytes.length ∧ bytes.length ≤ maxBuild) ∨ ¬ ∀ c ∈ s, 33 ≤ c ∧ c ≤ 126 then
      throw (.sealInvalid buildMessage)
    return s
  | _ => .error (.sealInvalid buildMessage)

def normalizeSeal (sealed : Py) : Except OpsError SealFields := do
  if !sealed.hasKeys sealKeys then
    throw (.sealInvalid "seal does not have exactly the cc.seal.v1 fields")
  let fold ← sealed.item "fold_version"
  if !fold.hasKeys ["manifest", "version"] then
    throw (.sealInvalid "fold_version is not {version, manifest}")
  let version ← unsigned 16 "fold_version.version is not a 16-bit integer" (← fold.item "version")
  let counts ← sealed.item "counts"
  if !counts.hasKeys ["candidates"] then throw (.sealInvalid "counts is not {candidates}")
  let build ← buildText (← sealed.item "build")
  let instanceId ← hex32 "instance" (← sealed.item "instance")
  let nodeKey ← hex32 "node_key" (← sealed.item "node_key")
  let manifest ← hex32 "fold manifest" (← fold.item "manifest")
  let filterVersion ← hex32 "filter_version" (← sealed.item "filter_version")
  let corpusDigest ← hex32 "corpus_digest" (← sealed.item "corpus_digest")
  let commitment ← hex32 "commitment" (← sealed.item "commitment")
  let candidates ← asU64 "counts.candidates" (← counts.item "candidates")
  let sealedAtUs ← asU64 "sealed_at_us" (← sealed.item "sealed_at_us")
  return ⟨instanceId, nodeKey, version, manifest, filterVersion, corpusDigest, commitment,
    candidates, build, sealedAtUs⟩

def encodeSeal (sealed : Py) : Except OpsError Bytes := do
  let s ← normalizeSeal sealed
  let build ← encode s.build
  fields [frame domain, fromhex s.instanceId, fromhex s.nodeKey, u16 s.version,
    fromhex s.manifest, fromhex s.filterVersion, fromhex s.corpusDigest, fromhex s.commitment,
    u64 s.candidates, u32 build.length, .ok build, u64 s.sealedAtUs]

/-! ## What the node serves -/

/-- The operator's fields of a seal of the node. -/
def sealFields (s : NodeSealV1) : SealFields where
  instanceId := hashText s.instanceId
  nodeKey := hashText s.nodeKey
  version := s.foldVersion.version.toNat
  manifest := hashText s.foldVersion.manifest
  filterVersion := hashText s.filterVersion
  corpusDigest := hashText s.corpusDigest
  commitment := hashText s.commitment
  candidates := s.counts.candidates.toNat
  build := text s.build
  sealedAtUs := s.sealedAtUs.toNat

/-- The `seal` member of the answer of `GET /v1/seal`. -/
def served (s : NodeSealV1) : Py :=
  .dict [(text "build", .str (text s.build)), (text "commitment", .str (hashText s.commitment)),
    (text "corpus_digest", .str (hashText s.corpusDigest)),
    (text "counts", .dict [(text "candidates", .int s.counts.candidates.toNat)]),
    (text "filter_version", .str (hashText s.filterVersion)),
    (text "fold_version", .dict [(text "manifest", .str (hashText s.foldVersion.manifest)),
      (text "version", .int s.foldVersion.version.toNat)]),
    (text "instance", .str (hashText s.instanceId)), (text "node_key", .str (hashText s.nodeKey)),
    (text "sealed_at_us", .int s.sealedAtUs.toNat)]

theorem toPy_sealFields (s : NodeSealV1) : (sealFields s).toPy = served s := rfl

/-! ## What the operator accepts -/

theorem unsigned_ok {bits n : Nat} {message : String} {d : Py} :
    unsigned bits message d = .ok n ↔ n < 2 ^ bits ∧ d = .int n := by
  constructor
  · intro h
    cases d with
    | int m =>
      simp only [unsigned] at h
      split at h
      · next hm =>
        obtain rfl := Except.ok.inj h
        exact ⟨hm.2, congrArg Py.int (Int.toNat_of_nonneg hm.1).symm⟩
      · cases h
    | _ => cases h
  · rintro ⟨hn, rfl⟩
    exact if_pos ⟨Int.natCast_nonneg n, hn⟩

theorem hex32_ok {name : String} {d : Py} {t : Text} :
    hex32 name d = .ok t ↔ ∃ h : Hash, t = hashText h ∧ d = .str (hashText h) := by
  constructor
  · intro h
    cases d with
    | str s =>
      simp only [hex32] at h
      split at h
      · next hs =>
        obtain rfl := Except.ok.inj h
        obtain ⟨id, rfl⟩ := hex64_iff.mp hs
        exact ⟨id, rfl, rfl⟩
      · cases h
    | _ => cases h
  · rintro ⟨h, rfl, rfl⟩
    exact if_pos (hex64_iff.mpr ⟨h, rfl⟩)

theorem build_iff {s : String} : Build s ↔
    (0 < s.toUTF8.data.toList.length ∧ s.toUTF8.data.toList.length ≤ maxBuild) ∧
      ∀ c ∈ text s, 33 ≤ c ∧ c ≤ 126 := by
  rw [← encode_graphic (encode_text s), length_toUTF8, Build, Nat.pos_iff_ne_zero, ne_eq, ne_eq,
    String.utf8ByteSize_eq_zero_iff, and_assoc]
  rfl

theorem buildText_ok {d : Py} {t : Text} :
    buildText d = .ok t ↔ ∃ s : String, Build s ∧ t = text s ∧ d = .str (text s) := by
  constructor
  · intro h
    cases d with
    | str c =>
      simp only [buildText, bind_ok, unless_ok] at h
      obtain ⟨bytes, hbytes, hc, h⟩ := h
      obtain ⟨hlen, hgraphic⟩ := not_or.mp hc |>.imp not_not.mp not_not.mp
      obtain rfl := Except.ok.inj h
      obtain ⟨s, rfl⟩ := exists_string hgraphic
      obtain rfl := Except.ok.inj ((encode_text s).symm.trans hbytes)
      exact ⟨s, build_iff.mpr ⟨hlen, hgraphic⟩, rfl, rfl⟩
    | _ => cases h
  · rintro ⟨s, hs, rfl, rfl⟩
    simp only [buildText, bind_ok, unless_ok]
    obtain ⟨hlen, hgraphic⟩ := build_iff.mp hs
    exact ⟨_, encode_text s, not_or.mpr ⟨not_not.mpr hlen, not_not.mpr hgraphic⟩, rfl⟩

theorem hasKeys_dict {keys : List String} {items : List (Text × Py)} :
    (Py.dict items).hasKeys keys = true ↔ items.map Prod.fst = keys.map text := by
  rw [Py.hasKeys, decide_eq_true_iff]

/-- A document passes when it is what the node serves for a seal that it can sign. -/
theorem normalizeSeal_ok {d : Py} {n : SealFields} : normalizeSeal d = .ok n ↔
    ∃ s : NodeSealV1, Build s.build ∧ d = served s ∧ n = sealFields s := by
  constructor
  · intro h
    simp only [normalizeSeal, bind_ok, unless_ok, Bool.not_eq_true', Bool.not_eq_false] at h
    obtain ⟨hkeys, h⟩ := h
    obtain ⟨values, hlen, rfl⟩ := hasKeys_iff.mp hkeys
    obtain ⟨build, commitment, corpus, counts, filter, fold, inst, key, sealedAt, rfl⟩ :
        ∃ a b c d e f g h i, values = [a, b, c, d, e, f, g, h, i] := by
      match values, hlen with
      | [a, b, c, d, e, f, g, h, i], _ => exact ⟨a, b, c, d, e, f, g, h, i, rfl⟩
    simp (disch := decide) only [sealKeys, List.map_cons, List.zip_cons_cons, item_here,
      item_there, Except.ok.injEq, exists_eq_left'] at h
    obtain ⟨hfold, version, hversion, v, hv, hcounts, b, hbuild, i, hinst, k, hkey, manifest,
      hmanifest, m, hm, f, hfilter, c, hcorpus, w, hcommitment, count, hcount, n', hn, t, ht,
      h⟩ := h
    obtain ⟨folded, hlen', rfl⟩ := hasKeys_iff.mp hfold
    obtain ⟨m', v', rfl⟩ : ∃ a b, folded = [a, b] := by
      match folded, hlen' with
      | [a, b], _ => exact ⟨a, b, rfl⟩
    obtain ⟨counted, hlen'', rfl⟩ := hasKeys_iff.mp hcounts
    obtain ⟨count', rfl⟩ := List.length_eq_one_iff.mp hlen''
    simp (disch := decide) only [List.map_cons, List.zip_cons_cons, item_here, item_there,
      Except.ok.injEq] at hversion hmanifest hcount
    subst hversion hmanifest hcount
    obtain ⟨hvlt, rfl⟩ := unsigned_ok.mp hv
    obtain ⟨hnlt, rfl⟩ := unsigned_ok.mp hn
    obtain ⟨htlt, rfl⟩ := unsigned_ok.mp ht
    obtain ⟨build, hb, rfl, rfl⟩ := buildText_ok.mp hbuild
    obtain ⟨inst, rfl, rfl⟩ := hex32_ok.mp hinst
    obtain ⟨key, rfl, rfl⟩ := hex32_ok.mp hkey
    obtain ⟨manifest, rfl, rfl⟩ := hex32_ok.mp hm
    obtain ⟨filter, rfl, rfl⟩ := hex32_ok.mp hfilter
    obtain ⟨corpus, rfl, rfl⟩ := hex32_ok.mp hcorpus
    obtain ⟨commitment, rfl, rfl⟩ := hex32_ok.mp hcommitment
    obtain rfl := Except.ok.inj h
    refine ⟨⟨inst, key, ⟨⟨v, hvlt⟩, manifest⟩, filter, corpus, commitment, ⟨⟨n', hnlt⟩⟩, build,
      ⟨t, htlt⟩⟩, hb, rfl, rfl⟩
  · rintro ⟨s, hs, rfl, rfl⟩
    have hbuild : buildText (.str (text s.build)) = .ok (text s.build) :=
      buildText_ok.mpr ⟨s.build, hs, rfl, rfl⟩
    have hhash : ∀ (name : String) (id : Hash),
        hex32 name (.str (hashText id)) = .ok (hashText id) :=
      fun name id => hex32_ok.mpr ⟨id, rfl, rfl⟩
    have hint : ∀ (bits : Nat) (message : String) (n : BitVec bits),
        unsigned bits message (.int n.toNat) = .ok n.toNat :=
      fun bits message n => unsigned_ok.mpr ⟨n.isLt, rfl⟩
    simp (disch := decide) only [normalizeSeal, bind_ok, unless_ok, Bool.not_eq_true',
      Bool.not_eq_false, served, hasKeys_dict, item_here, item_there, Except.ok.injEq,
      exists_eq_left', hbuild, hhash, hint, asU64]
    exact ⟨rfl, rfl, rfl, rfl⟩

/-! ## The same bytes -/

theorem fields_ok {ε : Type} (bs : List Bytes) :
    fields (bs.map Except.ok : List (Except ε Bytes)) = .ok bs.flatten := by
  induction bs with
  | nil => rfl
  | cons b bs ih =>
    rw [List.map_cons, List.flatten_cons]
    exact fields_cons.mpr ⟨b, bs.flatten, rfl, ih, rfl⟩

theorem pair_put {ε α β : Type} {f : Format ε α} {g : Format ε β} {x : α × β} {b c : Bytes}
    (hf : f.put x.1 = .ok b) (hg : g.put x.2 = .ok c) : (f.pair g).put x = .ok (b ++ c) :=
  fields_cons.mpr ⟨b, c, hf, fields_cons.mpr ⟨c, [], hg, rfl, (List.append_nil c).symm⟩, rfl⟩

theorem text_put {s : String} (h : s.utf8ByteSize ≤ V1.maxEnvelope) :
    V1.text.put s = .ok (beBytes 4 s.utf8ByteSize ++ s.toUTF8.data.toList) := by
  have hlt : s.utf8ByteSize < 2 ^ 32 := by
    simp only [V1.maxEnvelope] at h
    omega
  have hput : V1.u32.put (BitVec.ofNat 32 s.utf8ByteSize) = .ok (beBytes 4 s.utf8ByteSize) := by
    change Except.ok (beBytes 4 (BitVec.ofNat 32 s.utf8ByteSize).toNat) = _
    rw [BitVec.toNat_ofNat, Nat.mod_eq_of_lt hlt]
  change (if V1.maxEnvelope < s.utf8ByteSize then _ else fields [V1.u32.put _, _]) = _
  rw [if_neg (not_lt.mpr h), hput]
  exact fields_ok [_, _] |>.trans (congrArg Except.ok (by simp))

/-- What a seal of the node signs, part by part. -/
def sealParts (s : NodeSealV1) : List Bytes :=
  [beBytes 4 domain.utf8ByteSize ++ domain.toUTF8.data.toList, hashBytes s.instanceId,
    hashBytes s.nodeKey, beBytes 2 s.foldVersion.version.toNat, hashBytes s.foldVersion.manifest,
    hashBytes s.filterVersion, hashBytes s.corpusDigest, hashBytes s.commitment,
    beBytes 8 s.counts.candidates.toNat, beBytes 4 s.build.utf8ByteSize,
    s.build.toUTF8.data.toList, beBytes 8 s.sealedAtUs.toNat]

theorem preimage_parts {s : NodeSealV1} (h : Build s.build) :
    s.preimage = .ok (sealParts s).flatten := by
  have hhash : ∀ h, V1.hash.put h = .ok (hashBytes h) := fun _ => rfl
  have hsmall : s.build.utf8ByteSize ≤ V1.maxEnvelope := h.2.1.trans (by decide)
  have hput : V1.nodeSeal.put s = .ok (hashBytes s.instanceId ++ (hashBytes s.nodeKey ++
      ((beBytes 2 s.foldVersion.version.toNat ++ hashBytes s.foldVersion.manifest) ++
      (hashBytes s.filterVersion ++ (hashBytes s.corpusDigest ++ (hashBytes s.commitment ++
      (beBytes 8 s.counts.candidates.toNat ++ ((beBytes 4 s.build.utf8ByteSize ++
        s.build.toUTF8.data.toList) ++ beBytes 8 s.sealedAtUs.toNat)))))))) :=
    pair_put (hhash _) (pair_put (hhash _) (pair_put (pair_put rfl (hhash _)) (pair_put (hhash _)
      (pair_put (hhash _) (pair_put (hhash _) (pair_put rfl (pair_put (text_put hsmall) rfl)))))))
  refine V1.seal_preimage_ok.mpr ⟨h, fields_cons.mpr ⟨_, _, text_put (by decide),
    fields_cons.mpr ⟨_, _, hput, rfl, rfl⟩, ?_⟩⟩
  simp only [sealParts, List.flatten_cons, List.flatten_nil, List.append_assoc, List.append_nil,
    V1.sealDomain, domain]

theorem pack_ok {width n : Nat} (h : n < 256 ^ width) : pack width n = .ok (beBytes width n) :=
  if_pos h

theorem frame_ok (s : String) (h : s.utf8ByteSize < 2 ^ 32) :
    frame s = .ok (beBytes 4 s.utf8ByteSize ++ s.toUTF8.data.toList) := by
  have hlen : u32 s.toUTF8.data.toList.length = .ok (beBytes 4 s.utf8ByteSize) := pack_ok h
  rw [frame, encode_text]
  change fields [u32 _, _] = _
  rw [hlen]
  exact (fields_ok [_, _]).trans (congrArg Except.ok (by simp))

/-- The operator's bytes of a served seal are the ones the node signs. -/
theorem encodeSeal_served {s : NodeSealV1} (h : Build s.build) :
    encodeSeal (served s) = .ok (sealParts s).flatten := by
  have hsize : s.build.utf8ByteSize ≤ 64 := h.2.1
  have hframe := frame_ok domain (by decide)
  have hversion : u16 s.foldVersion.version.toNat = .ok (beBytes 2 s.foldVersion.version.toNat) :=
    pack_ok (by have := s.foldVersion.version.isLt; omega)
  have hcount : ∀ n : BitVec 64, u64 n.toNat = .ok (beBytes 8 n.toNat) :=
    fun n => pack_ok (by have := n.isLt; omega)
  have hbuild : u32 s.build.toUTF8.data.toList.length = .ok (beBytes 4 s.build.utf8ByteSize) :=
    pack_ok (by rw [length_toUTF8]; omega)
  refine bind_ok.mpr ⟨sealFields s, normalizeSeal_ok.mpr ⟨s, h, rfl, rfl⟩,
    bind_ok.mpr ⟨_, encode_text s.build, ?_⟩⟩
  simp only [sealFields, hframe, hversion, hcount, hbuild, fromhex_hashText]
  exact fields_ok (sealParts s)

end Clockchain.Operator
