import Clockchain.Programs
import Clockchain.V1.Wire

/-!
# The v1 wire format

The encoders and readers of `cc-core/src/v1.rs`, each written out on its own side, the
preimage of an envelope and `Signed::decode`. The check of a signature is a parameter.
-/

namespace Clockchain.V1
open Codec Programs
set_option autoImplicit false

inductive WireError where
  | truncated | noncanonicalBool | stringTooLarge | invalidUtf8 | noncanonicalSet | unknownTag
  | unknownValueTag | unknownSelectionTag | subjectKeyEncoding | envelopeTooLarge
  | unsupportedEncoding | unsupportedConstants | noncanonical | badSignature
  | receiptDomain | receiptResult | sealDomain | sealBuild
  deriving Repr, DecidableEq

def WireError.text : WireError → String
  | .truncated => "truncated"
  | .noncanonicalBool => "noncanonical_bool"
  | .stringTooLarge => "string_too_large"
  | .invalidUtf8 => "invalid_utf8"
  | .noncanonicalSet => "noncanonical_set"
  | .unknownTag => "unknown_tag"
  | .unknownValueTag => "unknown_value_tag"
  | .unknownSelectionTag => "unknown_selection_tag"
  | .subjectKeyEncoding => "subject_key_encoding"
  | .envelopeTooLarge => "envelope_too_large"
  | .unsupportedEncoding => "unsupported_encoding"
  | .unsupportedConstants => "unsupported_constants"
  | .noncanonical => "noncanonical"
  | .badSignature => "bad_signature"
  | .receiptDomain => "receipt_domain"
  | .receiptResult => "receipt_result"
  | .sealDomain => "seal_domain"
  | .sealBuild => "seal_build"

def maxEnvelope : Nat := 1024 * 1024
def canonVersion : BitVec 16 := 1
def constantsVersion : BitVec 16 := 0

abbrev WireFormat (α : Type) := Format WireError α

/-! ## Primitives -/

def u16 : WireFormat (BitVec 16) := number .truncated 2
def u32 : WireFormat (BitVec 32) := number .truncated 4

/-- `[u8; 32]`. -/
def hash : WireFormat Hash := number .truncated 32

/-- `bool`. -/
def flag : WireFormat Bool where
  put b := .ok [if b then 1 else 0]
  get := do
    match ← take .truncated 1 with
    | [0] => return false
    | [1] => return true
    | _ => throw .noncanonicalBool

/-- `String`. -/
def text : WireFormat String where
  put s :=
    if s.utf8ByteSize > maxEnvelope then .error .stringTooLarge
    else fields [u32.put (BitVec.ofNat 32 s.utf8ByteSize), .ok s.toUTF8.data.toList]
  get := do
    let n ← u32.get
    match String.fromUTF8? ⟨(← take .truncated n.toNat).toArray⟩ with
    | some s => return s
    | none => throw .invalidUtf8

def option {α : Type} (f : WireFormat α) : WireFormat (Option α) := .optional flag f

/-- `windows(2)` finds no reference that is not below the next. -/
def Increasing (refs : List Hash) : Prop := refs.IsChain (· < ·)

instance (refs : List Hash) : Decidable (Increasing refs) :=
  inferInstanceAs (Decidable (refs.IsChain _))

/-- `Set<T>`, under the references of its members. -/
def set {α : Type} (reference : α → Hash) (f : WireFormat α) : WireFormat (List α) where
  put xs :=
    if xs.length > maxSet ∨ ¬ Increasing (xs.map reference) then .error .noncanonicalSet
    else fields (u32.put (BitVec.ofNat 32 xs.length) :: xs.map f.put)
  get := do
    let n ← u32.get
    if n.toNat > maxSet then throw .noncanonicalSet
    let xs ← f.times n.toNat
    if ¬ Increasing (xs.map reference) then throw .noncanonicalSet
    return xs

def hashes : WireFormat (List Hash) := set id hash

/-- `tags!`: an enumeration under its numbers. -/
def tags {α : Type} [DecidableEq α] (table : List (Nat × α)) : WireFormat α where
  put a := match table.find? fun entry => entry.2 = a with
    | some (tag, _) => u16.put (BitVec.ofNat 16 tag)
    | none => .error .unknownTag
  get := do
    match table.lookup (← u16.get).toNat with
    | some a => return a
    | none => throw .unknownTag

/-! ## Records -/

def subjectKey : WireFormat SubjectKey :=
  (text.pair (text.pair text)).record (fun (kind, nameSpace, value) => ⟨kind, nameSpace, value⟩)
    fun k => (k.kind, k.nameSpace, k.value)

def assertedTime : WireFormat AssertedTime :=
  (hash.pair text).record (fun (coordinate, precision) => ⟨coordinate, precision⟩)
    fun t => (t.coordinate, t.precision)

def pin : WireFormat Pin :=
  (hash.pair (hash.pair (hash.pair hash))).record
    (fun (subject, basis, revision, body) => ⟨subject, basis, revision, body⟩)
    fun p => (p.subject, p.basis, p.revision, p.body)

def pins : WireFormat Pins :=
  (pin.pair pin).record (fun (source, target) => ⟨source, target⟩) fun p => (p.source, p.target)

def parentPins : WireFormat ParentPins :=
  (hash.pair pins).record (fun (parent, pins) => ⟨parent, pins⟩) fun p => (p.parent, p.pins)

def kind : WireFormat Kind := tags
  [(1, .genesis), (2, .correction), (3, .delegate), (4, .revoke), (5, .resolve), (6, .edgeAssert),
    (7, .edgeReaffirm), (8, .attestation)]

def dispositionKind : WireFormat DispositionKind := tags
  [(1, .selected), (2, .merged), (3, .notSelected)]

def targetKind : WireFormat TargetKind := tags [(1, .event), (2, .revision)]

def disposition : WireFormat Disposition :=
  (hash.pair (dispositionKind.pair text)).record
    (fun (parent, action, rationale) => ⟨parent, action, rationale⟩)
    fun d => (d.parent, d.action, d.rationale)

def parentPinsSet : WireFormat (List ParentPins) := set ParentPins.parent parentPins

def value : WireFormat Value where
  put
    | .none => fields [u16.put 0]
    | .body v => fields [u16.put 1, hash.put v]
    | .grant issuer grantee => fields [u16.put 2, hash.put issuer, hash.put grantee]
    | .activeGrant v => fields [u16.put 3, hash.put v]
    | .revokedGrant grant cascade => fields [u16.put 4, hash.put grant, flag.put cascade]
    | .heads v => fields [u16.put 5, hashes.put v]
    | .revision v => fields [u16.put 6, hash.put v]
    | .pins v => fields [u16.put 7, pins.put v]
    | .parentPins v => fields [u16.put 8, parentPinsSet.put v]
  get := do
    match (← u16.get).toNat with
    | 0 => return .none
    | 1 => return .body (← hash.get)
    | 2 => return .grant (← hash.get) (← hash.get)
    | 3 => return .activeGrant (← hash.get)
    | 4 => return .revokedGrant (← hash.get) (← flag.get)
    | 5 => return .heads (← hashes.get)
    | 6 => return .revision (← hash.get)
    | 7 => return .pins (← pins.get)
    | 8 => return .parentPins (← parentPinsSet.get)
    | _ => throw .unknownValueTag

def decision : WireFormat Decision :=
  (kind.pair (text.pair (hashes.pair (hashes.pair (value.pair value))))).record
    (fun (kind, rationale, evidence, parents, old, new) =>
      ⟨kind, rationale, evidence, parents, old, new⟩)
    fun d => (d.kind, d.rationale, d.evidence, d.parents, d.old, d.new)

def selection : WireFormat Selection where
  put
    | .revision v => fields [u16.put 0, hash.put v]
    | .mergedBody v => fields [u16.put 1, hash.put v]
  get := do
    match (← u16.get).toNat with
    | 0 => return .revision (← hash.get)
    | 1 => return .mergedBody (← hash.get)
    | _ => throw .unknownSelectionTag

def dispositions : WireFormat (List Disposition) := set Disposition.parent disposition

/-! ## Envelopes -/

def putPayload : Payload → Except WireError Bytes
  | .genesis nonce body evidence => fields [hash.put nonce, hash.put body, hashes.put evidence]
  | .correction body d => fields [hash.put body, decision.put d]
  | .delegate grantee issuer d => fields [hash.put grantee, hash.put issuer, decision.put d]
  | .revoke target cascade d => fields [hash.put target, flag.put cascade, decision.put d]
  | .resolve s ds d => fields [selection.put s, dispositions.put ds, decision.put d]
  | .edgeAssert relation ps d => fields [text.put relation, pins.put ps, decision.put d]
  | .edgeReaffirm edge old new d =>
    fields [hash.put edge, parentPinsSet.put old, pins.put new, decision.put d]
  | .attestation k target artifactKind artifact =>
    fields [targetKind.put k, hash.put target, text.put artifactKind, hash.put artifact]

def getPayload : Kind → Reader WireError Payload
  | .genesis => do return .genesis (← hash.get) (← hash.get) (← hashes.get)
  | .correction => do return .correction (← hash.get) (← decision.get)
  | .delegate => do return .delegate (← hash.get) (← hash.get) (← decision.get)
  | .revoke => do return .revoke (← hash.get) (← flag.get) (← decision.get)
  | .resolve => do return .resolve (← selection.get) (← dispositions.get) (← decision.get)
  | .edgeAssert => do return .edgeAssert (← text.get) (← pins.get) (← decision.get)
  | .edgeReaffirm => do
    return .edgeReaffirm (← hash.get) (← parentPinsSet.get) (← pins.get) (← decision.get)
  | .attestation => do
    return .attestation (← targetKind.get) (← hash.get) (← text.get) (← hash.get)

/-- A part of a subject key that may be written. -/
def KeyPart (s : String) : Prop := s ≠ "" ∧ s.utf8ByteSize ≤ 1024

instance (s : String) : Decidable (KeyPart s) := inferInstanceAs (Decidable (_ ∧ _))

def putEnvelope (e : Envelope) : Except WireError Bytes :=
  fields [text.put "cc.event.v1", u16.put canonVersion, u16.put constantsVersion,
    hash.put e.instanceId, kind.put e.payload.kind, hash.put e.author, (option hash).put e.subject,
    (option subjectKey).put e.subjectKey, (option hash).put e.grant, hashes.put e.parents,
    (option assertedTime).put e.assertedTime, putPayload e.payload]

def Envelope.preimage (e : Envelope) : Except WireError Bytes := do
  if let some key := e.subjectKey then
    if ¬ ∀ s ∈ [key.kind, key.nameSpace, key.value], KeyPart s then throw .subjectKeyEncoding
  let bytes ← putEnvelope e
  if bytes.length + 64 > maxEnvelope then throw .envelopeTooLarge
  return bytes

def getEnvelope : Reader WireError Envelope := do
  if (← text.get) ≠ "cc.event.v1" then throw .unsupportedEncoding
  if (← u16.get) ≠ canonVersion then throw .unsupportedEncoding
  if (← u16.get) ≠ constantsVersion then throw .unsupportedConstants
  let instanceId ← hash.get
  let k ← kind.get
  return {
    instanceId
    author := ← hash.get
    subject := ← (option hash).get
    subjectKey := ← (option subjectKey).get
    grant := ← (option hash).get
    parents := ← hashes.get
    assertedTime := ← (option assertedTime).get
    payload := ← getPayload k }

theorem preimage_ok {e : Envelope} {p : Bytes} : e.preimage = .ok p ↔
    (∀ key, e.subjectKey = some key → ∀ s ∈ [key.kind, key.nameSpace, key.value], KeyPart s) ∧
    putEnvelope e = .ok p ∧ p.length + 64 ≤ maxEnvelope := by
  unfold Envelope.preimage
  have hrest : (do
      let bytes ← putEnvelope e
      if bytes.length + 64 > maxEnvelope then throw .envelopeTooLarge
      return bytes) = Except.ok p ↔ putEnvelope e = .ok p ∧ p.length + 64 ≤ maxEnvelope := by
    simp only [bind_ok, unless_ok, Nat.not_lt, gt_iff_lt]
    simp only [pure, Except.pure, Except.ok.injEq]
    constructor
    · rintro ⟨bytes, h, hlen, rfl⟩
      exact ⟨h, hlen⟩
    · rintro ⟨h, hlen⟩
      exact ⟨p, h, hlen, rfl⟩
  cases hkey : e.subjectKey with
  | none => simpa using hrest
  | some key =>
    simp only [unless_ok, not_not, Option.some.injEq, forall_eq']
    exact and_congr_right fun _ => hrest

/-! ## Canonical sets -/

theorem writes_set {α : Type} {reference : α → Hash} {f : WireFormat α} {xs : List α}
    (h : Writes ((set reference f).put xs)) : WireSet (xs.map reference) := by
  obtain ⟨bs, h⟩ := h
  simp only [set] at h
  split at h
  · cases h
  · next hset =>
    rw [not_or, not_not, Nat.not_lt] at hset
    exact ⟨List.isChain_iff_pairwise.mp hset.2, (List.length_map reference).trans_le hset.1⟩

theorem writes_hashes {refs : List Hash} (h : Writes (hashes.put refs)) : WireSet refs := by
  have hset := writes_set h
  rwa [List.map_id] at hset

theorem writes_value {v : Value} (h : Writes (value.put v)) : ∀ refs ∈ v.sets, WireSet refs := by
  cases v with
  | heads refs =>
    obtain ⟨-, hrefs, -⟩ : _ ∧ _ ∧ _ := by simpa only [value, writes_cons] using h
    simpa [Value.sets] using writes_hashes hrefs
  | parentPins old =>
    obtain ⟨-, hrefs, -⟩ : _ ∧ _ ∧ _ := by simpa only [value, writes_cons] using h
    simpa [Value.sets] using writes_set hrefs
  | _ => simp [Value.sets]

theorem writes_decision {d : Decision} (h : Writes (decision.put d)) :
    ∀ refs ∈ d.sets, WireSet refs := by
  simp only [decision, writes_record, writes_pair] at h
  obtain ⟨-, -, hevidence, hparents, hold, hnew⟩ := h
  simp only [Decision.sets, List.forall_mem_cons, List.forall_mem_append]
  exact ⟨writes_hashes hevidence, writes_hashes hparents, writes_value hold, writes_value hnew⟩

theorem writes_payload {p : Payload} (h : Writes (putPayload p)) :
    ∀ refs ∈ p.sets, WireSet refs := by
  cases p <;> simp only [putPayload, writes_cons] at h <;>
    simp only [Payload.sets, List.forall_mem_cons]
  case genesis => exact ⟨writes_hashes h.2.2.1, List.forall_mem_nil _⟩
  case correction => exact writes_decision h.2.1
  case delegate => exact writes_decision h.2.2.1
  case revoke => exact writes_decision h.2.2.1
  case resolve => exact ⟨writes_set h.2.1, writes_decision h.2.2.1⟩
  case edgeAssert => exact writes_decision h.2.2.1
  case edgeReaffirm => exact ⟨writes_set h.2.1, writes_decision h.2.2.2.1⟩
  case attestation => exact List.forall_mem_nil _

theorem preimage_canonical {e : Envelope} {p : Bytes} (h : e.preimage = .ok p) :
    e.Canonical := by
  have hput : Writes (putEnvelope e) := ⟨p, (preimage_ok.mp h).2.1⟩
  simp only [putEnvelope, writes_cons] at hput
  obtain ⟨-, -, -, -, -, -, -, -, -, hparents, -, hpayload, -⟩ := hput
  simp only [Envelope.Canonical, List.forall_mem_cons]
  exact ⟨writes_hashes hparents, writes_payload hpayload⟩

/-! ## Signed bytes -/

/-- Whether a key signed a preimage. -/
abbrev Verify := Hash → Bytes → Bytes → Bool

/-- A value read from signed bytes, with the preimage it is written as. -/
structure Opened {α : Type} (preimageOf : α → Except WireError Bytes) where
  value : α
  preimage : Bytes
  written : preimageOf value = .ok preimage

/-- The checks that `Signed::decode` and `SignedReceipt::decode` share. -/
def openSigned {α : Type} (cr : Crypto) (verify : Verify) (read : Reader WireError α)
    (preimageOf : α → Except WireError Bytes) (author : α → Hash) (bytes : Bytes) :
    Except WireError (Opened preimageOf) := do
  if bytes.length > maxEnvelope then throw .envelopeTooLarge
  if bytes.length < 64 then throw .truncated
  let preimage := bytes.take (bytes.length - 64)
  let signature := bytes.drop (bytes.length - 64)
  let (value, rest) ← read.run preimage
  if !rest.isEmpty then throw .noncanonical
  match written : preimageOf value with
  | .error e => throw e
  | .ok again =>
    if again ≠ preimage then throw .noncanonical
    if !cr.authorKey (author value) then throw .badSignature
    if !verify (author value) preimage signature then throw .badSignature
    return ⟨value, again, written⟩

/-- `Signed`: only verified, canonical wire bytes make one. -/
structure Decoded extends Signed where
  id : Hash
  bytes : Bytes
  deriving DecidableEq

def decode (cr : Crypto) (verify : Verify) (bytes : Bytes) : Except WireError Decoded := do
  let opened ← openSigned cr verify getEnvelope Envelope.preimage Envelope.author bytes
  return {
    envelope := opened.value
    canonical := preimage_canonical opened.written
    id := cr.sha256 opened.preimage
    bytes }

end Clockchain.V1
