import Clockchain.V1.Observation

/-!
# Node seals

`cc-core/src/v1/seal.rs`: what a node signs about the corpus it serves, in the wire format of
the receipts, under a domain of its own.
-/

namespace Clockchain.V1
open Codec Programs
set_option autoImplicit false

def sealDomain : String := "cc.seal.v1"
def maxBuild : Nat := 64

structure SealCounts where
  candidates : BitVec 64
  deriving Repr, DecidableEq

structure NodeSealV1 where
  instanceId : Hash
  nodeKey : Hash
  foldVersion : FoldRef
  filterVersion : Hash
  corpusDigest : Hash
  commitment : Hash
  counts : SealCounts
  build : String
  /-- Unix microseconds on the node's clock, not claimed historical time. -/
  sealedAtUs : BitVec 64
  deriving Repr, DecidableEq

def sealCounts : WireFormat SealCounts := u64.record SealCounts.mk SealCounts.candidates

def nodeSeal : WireFormat NodeSealV1 :=
  (hash.pair (hash.pair (foldRef.pair (hash.pair (hash.pair (hash.pair (sealCounts.pair
    (text.pair u64)))))))).record
    (fun (instanceId, nodeKey, foldVersion, filterVersion, corpusDigest, commitment, counts, build,
      sealedAtUs) => ⟨instanceId, nodeKey, foldVersion, filterVersion, corpusDigest, commitment,
      counts, build, sealedAtUs⟩)
    fun s => (s.instanceId, s.nodeKey, s.foldVersion, s.filterVersion, s.corpusDigest,
      s.commitment, s.counts, s.build, s.sealedAtUs)

/-- A build revision that may be sealed: graphic ASCII, and short. -/
def Build (s : String) : Prop :=
  s ≠ "" ∧ s.utf8ByteSize ≤ maxBuild ∧ ∀ b ∈ s.toUTF8.data.toList, 0x21 ≤ b ∧ b ≤ 0x7e

instance (s : String) : Decidable (Build s) := inferInstanceAs (Decidable (_ ∧ _ ∧ _))

def NodeSealV1.preimage (s : NodeSealV1) : Except WireError Bytes := do
  if ¬ Build s.build then throw .sealBuild
  fields [text.put sealDomain, nodeSeal.put s]

def getSeal : Reader WireError NodeSealV1 := do
  if (← text.get) ≠ sealDomain then throw .sealDomain
  nodeSeal.get

/-- Check the signature over the canonical bytes of a seal under its own key. -/
def verifySeal (cr : Crypto) (verify : Verify) (s : NodeSealV1) (signature : Bytes) :
    Except WireError Unit := do
  let preimage ← s.preimage
  if !cr.authorKey s.nodeKey then throw .badSignature
  if !verify s.nodeKey preimage signature then throw .badSignature

structure SignedSeal where
  statement : NodeSealV1
  bytes : Bytes
  deriving DecidableEq

def SignedSeal.decode (cr : Crypto) (verify : Verify) (bytes : Bytes) :
    Except WireError SignedSeal := do
  if bytes.length > maxEnvelope then throw .envelopeTooLarge
  if bytes.length < 64 then throw .truncated
  let preimage := bytes.take (bytes.length - 64)
  let signature := bytes.drop (bytes.length - 64)
  let (statement, rest) ← getSeal.run preimage
  if !rest.isEmpty then throw .noncanonical
  let again ← statement.preimage
  if again ≠ preimage then throw .noncanonical
  verifySeal cr verify statement signature
  return { statement, bytes }

/-! ## The seal is read back -/

theorem sealCounts_faithful : sealCounts.Faithful := u64_faithful.record fun _ => rfl

theorem nodeSeal_faithful : nodeSeal.Faithful :=
  (hash_faithful.pair (hash_faithful.pair (foldRef_faithful.pair (hash_faithful.pair
    (hash_faithful.pair (hash_faithful.pair (sealCounts_faithful.pair
      (text_faithful.pair u64_faithful)))))))).record fun _ => rfl

theorem seal_preimage_ok {s : NodeSealV1} {p : Bytes} : s.preimage = .ok p ↔
    Build s.build ∧ fields [text.put sealDomain, nodeSeal.put s] = .ok p := by
  simp only [NodeSealV1.preimage, unless_ok, not_not]

theorem seal_reads {s : NodeSealV1} {p : Bytes} (h : s.preimage = .ok p) : Reads getSeal p s := by
  obtain ⟨-, hput⟩ := seal_preimage_ok.mp h
  refine Reads.field (text_faithful _) hput fun cs h => .past (not_not.mpr rfl) ?_
  obtain ⟨b, c, hb, hc, rfl⟩ := fields_cons.mp h
  obtain rfl := fields_nil.mp hc
  rw [List.append_nil]
  exact nodeSeal_faithful s b hb

/-- Every build that may be sealed fits. -/
theorem seal_takes {s : NodeSealV1} (h : Build s.build) :
    Takes s.preimage (14 + (32 + (32 + ((2 + 32) + (32 + (32 + (32 + (8 +
      ((4 + s.build.utf8ByteSize) + 8))))))))) := by
  have hhash : ∀ h, Takes (hash.put h) 32 := takes_number .truncated 32
  have hsmall : s.build.utf8ByteSize ≤ maxEnvelope := h.2.1.trans (by decide)
  have hput : Takes (nodeSeal.put s) (32 + (32 + ((2 + 32) + (32 + (32 + (32 + (8 +
      ((4 + s.build.utf8ByteSize) + 8)))))))) :=
    Takes.pair (hhash _) <| Takes.pair (hhash _) <|
      Takes.pair (Takes.pair (takes_number .truncated 2 _) (hhash _)) <| Takes.pair (hhash _) <|
      Takes.pair (hhash _) <| Takes.pair (hhash _) <| Takes.pair (takes_number .truncated 8 _) <|
      Takes.pair (text_takes hsmall) (takes_number .truncated 8 _)
  obtain ⟨p, hp, hlen⟩ := (text_takes (s := sealDomain) (by decide)).cons (hput.cons takes_nil)
  exact ⟨p, seal_preimage_ok.mpr ⟨h, hp⟩, by rw [hlen]; rfl⟩

theorem verifySeal_ok {cr : Crypto} {verify : Verify} {s : NodeSealV1} {p sig : Bytes}
    (hp : s.preimage = .ok p) :
    verifySeal cr verify s sig = .ok () ↔ cr.authorKey s.nodeKey ∧ verify s.nodeKey p sig := by
  simp only [verifySeal, hp, bind_ok, unless_ok, Except.ok.injEq, exists_eq_left']
  cases cr.authorKey s.nodeKey <;> cases verify s.nodeKey p sig <;> simp [throw, throwThe,
    MonadExceptOf.throw, pure, Except.pure]

theorem seal_decode_ok {cr : Crypto} {verify : Verify} {b : Bytes} {d : SignedSeal} :
    SignedSeal.decode cr verify b = .ok d ↔ ∃ p sig, d.statement.preimage = .ok p ∧
      sig.length = 64 ∧ b = p ++ sig ∧ cr.authorKey d.statement.nodeKey ∧
      verify d.statement.nodeKey p sig ∧ d.bytes = b := by
  simp only [SignedSeal.decode, bind_ok, unless_ok, Nat.not_lt, gt_iff_lt, ne_eq, not_not]
  constructor
  · rintro ⟨hmax, hmin, ⟨s, rest⟩, hread, hrest, p, hp, heq, ⟨⟩, hverify, hd⟩
    obtain rfl := Except.ok.inj hd
    obtain ⟨hkey, hsig⟩ := (verifySeal_ok hp).mp hverify
    refine ⟨p, b.drop (b.length - 64), hp, ?_, ?_, hkey, hsig, rfl⟩
    · rw [List.length_drop]
      omega
    · rw [heq, List.take_append_drop]
  · rintro ⟨p, sig, hp, hlen, rfl, hkey, hsig, hbytes⟩
    obtain ⟨s, bytes⟩ := d
    obtain rfl : bytes = _ := hbytes
    have hbuild : Build s.build := (seal_preimage_ok.mp hp).1
    have hmax : p.length + 64 ≤ maxEnvelope := by
      obtain ⟨q, hq, hsize⟩ := seal_takes hbuild
      obtain rfl : q = p := Except.ok.inj (hq.symm.trans hp)
      have hshort : s.build.utf8ByteSize ≤ maxBuild := hbuild.2.1
      simp only [maxBuild, maxEnvelope] at hshort ⊢
      omega
    have hsplit : (p ++ sig).length - 64 = p.length := by
      rw [List.length_append, hlen, Nat.add_sub_cancel]
    have hrun := seal_reads hp []
    rw [List.append_nil] at hrun
    rw [hsplit, List.take_left, List.drop_left]
    refine ⟨?_, ?_, (s, []), hrun, by simp, p, hp, rfl, (), ?_, rfl⟩
    · rwa [List.length_append, hlen]
    · rw [List.length_append, hlen]
      omega
    · exact (verifySeal_ok hp).mpr ⟨hkey, hsig⟩

end Clockchain.V1
