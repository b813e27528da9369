import Clockchain.V1.Encoding

/-!
# Node receipts

`cc-core/src/v1/receipt.rs`: what a node signs about an admission it observed, in the wire
format of the events.
-/

namespace Clockchain.V1
open Codec
set_option autoImplicit false

structure FoldRef where
  version : BitVec 16
  manifest : Hash
  deriving Repr, DecidableEq

inductive Admission where
  | valid | pending | invalid
  deriving Repr, DecidableEq

structure InitialResult where
  state : Admission
  reason : String
  missing : List Hash
  deriving Repr, DecidableEq

structure NodeReceiptV1 where
  instanceId : Hash
  nodeKey : Hash
  event : Hash
  /-- Unix microseconds observed by this node, not claimed historical time. -/
  receivedAt : BitVec 64
  encodingVersion : BitVec 16
  foldVersion : FoldRef
  initialAdmissionResult : InitialResult
  deriving Repr, DecidableEq

def u64 : WireFormat (BitVec 64) := number .truncated 8

def admission : WireFormat Admission := tags [(1, .valid), (2, .pending), (3, .invalid)]

def foldRef : WireFormat FoldRef :=
  (u16.pair hash).record (fun (version, manifest) => ⟨version, manifest⟩)
    fun f => (f.version, f.manifest)

def initialResult : WireFormat InitialResult :=
  (admission.pair (text.pair hashes)).record
    (fun (state, reason, missing) => ⟨state, reason, missing⟩)
    fun r => (r.state, r.reason, r.missing)

def nodeReceipt : WireFormat NodeReceiptV1 :=
  (hash.pair (hash.pair (hash.pair (u64.pair (u16.pair (foldRef.pair initialResult)))))).record
    (fun (instanceId, nodeKey, event, receivedAt, encodingVersion, foldVersion, result) =>
      ⟨instanceId, nodeKey, event, receivedAt, encodingVersion, foldVersion, result⟩)
    fun r => (r.instanceId, r.nodeKey, r.event, r.receivedAt, r.encodingVersion, r.foldVersion,
      r.initialAdmissionResult)

/-- Which fields a result may carry under its state. -/
def InitialResult.Consistent (r : InitialResult) : Prop :=
  ¬ (r.state = .valid ∧ (r.reason ≠ "" ∨ r.missing ≠ [])) ∧
    ¬ (r.state ≠ .valid ∧ r.reason = "") ∧ ¬ (r.state ≠ .pending ∧ r.missing ≠ [])

instance (r : InitialResult) : Decidable r.Consistent := inferInstanceAs (Decidable (_ ∧ _))

def NodeReceiptV1.preimage (r : NodeReceiptV1) : Except WireError Bytes := do
  if r.encodingVersion ≠ canonVersion then throw .unsupportedEncoding
  if ¬ r.initialAdmissionResult.Consistent then throw .receiptResult
  let bytes ← fields [text.put "cc.receipt.v1", nodeReceipt.put r]
  if bytes.length + 64 > maxEnvelope then throw .envelopeTooLarge
  return bytes

def getReceipt : Reader WireError NodeReceiptV1 := do
  if (← text.get) ≠ "cc.receipt.v1" then throw .receiptDomain
  nodeReceipt.get

structure SignedReceipt where
  receipt : NodeReceiptV1
  bytes : Bytes
  deriving DecidableEq

def SignedReceipt.decode (cr : Crypto) (verify : Verify) (bytes : Bytes) :
    Except WireError SignedReceipt := do
  let opened ← openSigned cr verify getReceipt NodeReceiptV1.preimage NodeReceiptV1.nodeKey bytes
  return { receipt := opened.value, bytes }

/-- A signing key: its public key and its 64-byte signatures. -/
structure SecretKey where
  author : Hash
  signMessage : Bytes → Bytes
  length : ∀ p, (signMessage p).length = 64

def SignedReceipt.sign (cr : Crypto) (verify : Verify) (key : SecretKey) (receipt : NodeReceiptV1) :
    Except WireError SignedReceipt := do
  let bytes ← { receipt with nodeKey := key.author }.preimage
  SignedReceipt.decode cr verify (bytes ++ key.signMessage bytes)

end Clockchain.V1
