import Clockchain.Operator.Json
import Clockchain.Operator.Seal

/-!
# The operator's seal log

`ops/seal_v1.py`: one line for a fetched seal, each naming the digest of the line before it. A
run appends a line or leaves the log as it is.
-/

namespace Clockchain.Operator
open Codec Programs
open V1 (Hash hashBytes NodeSealV1 Build Crypto)
set_option autoImplicit false

/-- The identity that `v1_identity.py` computes from the checkout and the operator's settings. -/
structure Expected where
  instanceId : Text
  foldVersion : Nat
  foldManifest : Text
  filterVersion : Text
  deriving Repr, DecidableEq

/-! ## One seal -/

def Py.isText (s : Text) : Py → Bool
  | .str t => t = s
  | _ => false

def Py.isStr : Py → Bool
  | .str _ => true
  | _ => false

def signatureText : Py → Except OpsError Text
  | .str s =>
    if s.length = 128 ∧ hex64 (s.take 64) ∧ hex64 (s.drop 64) then .ok s
    else .error (.sealInvalid "signature is not 64 bytes of lowercase hex")
  | _ => .error (.sealInvalid "signature is not 64 bytes of lowercase hex")

/-- `Ed25519PublicKey.from_public_bytes(key).verify(signature, message)` returns. -/
abbrev Ed25519 := Bytes → Bytes → Bytes → Bool

section
variable (ed25519 : Ed25519) (nodeKey : Text)

/-- The signature covers the canonical bytes; what the library raises here is one refusal. -/
def signed (signature : Text) (sealed : SealFields) : Bool :=
  match (do
    let key ← fromhex nodeKey
    let signature ← fromhex signature
    let message ← encodeSeal sealed.toPy
    return ed25519 key signature message : Except OpsError Bool) with
  | .ok verified => verified
  | .error _ => false

def verifySigned (doc : Py) : Except OpsError SealFields := do
  if !doc.hasKeys ["node_key", "seal", "signature"] then
    throw (.sealInvalid "seal document does not have exactly {seal, signature, node_key}")
  let sealed ← normalizeSeal (← doc.item "seal")
  if !hex64 nodeKey then
    throw (.config "CC_SEAL_NODE_KEY must be 64 lowercase hex characters")
  if !(← doc.item "node_key").isText nodeKey || sealed.nodeKey ≠ nodeKey then
    throw (.nodeKeyMismatch "seal was signed by a key other than CC_SEAL_NODE_KEY")
  let signature ← signatureText (← doc.item "signature")
  if !signed ed25519 nodeKey signature sealed then
    throw (.sealInvalid "seal signature does not verify under CC_SEAL_NODE_KEY")
  return sealed

end

/-- The fields of a seal that are not the expected ones. -/
def drift (expected : Expected) (sealed : SealFields) : List String :=
  (if sealed.instanceId ≠ expected.instanceId then ["instance"] else []) ++
  (if sealed.version ≠ expected.foldVersion ∨ sealed.manifest ≠ expected.foldManifest then
    ["fold_version"] else []) ++
  if sealed.filterVersion ≠ expected.filterVersion then ["filter_version"] else []

def requireSealIdentity (expected : Expected) (sealed : SealFields) :
    Except OpsError SealFields := do
  if drift expected sealed ≠ [] then
    throw (.identityDrift ("seal identity differs from the expected identity: " ++
      ", ".intercalate (drift expected sealed)))
  return sealed

/-- What of the corpus differs. -/
def changed (previous sealed : SealFields) : List String :=
  (if sealed.corpusDigest ≠ previous.corpusDigest then ["corpus_digest"] else []) ++
  if sealed.commitment ≠ previous.commitment then ["commitment"] else []

def requireSuccession (previous sealed : SealFields) : Except OpsError SealFields := do
  if sealed.sealedAtUs ≤ previous.sealedAtUs then
    throw (.regression "time_regression" "sealed_at_us is not later than the log head")
  let before := previous.candidates
  let after := sealed.candidates
  if after < before then
    throw (.regression "count_decrease" s!"candidates fell from {before} to {after}")
  let fields := changed previous sealed
  if after = before ∧ fields ≠ [] then
    throw (.regression "commitment_changed"
      (", ".intercalate fields ++ " changed with no new candidate"))
  if before < after ∧ fields.length ≠ 2 then
    let same := ["corpus_digest", "commitment"].filter fun f => f ∉ fields
    throw (.regression "commitment_changed"
      (s!"candidates grew from {before} to {after} with the same " ++ " and ".intercalate same))
  return sealed

/-! ## The log -/

/-- `data.split(b'\n')[:-1]`. -/
def lines : Bytes → List Bytes
  | [] => []
  | b :: bs =>
    if b = 0x0a then [] :: lines bs
    else
      match lines bs with
      | [] => []
      | line :: rest => (b :: line) :: rest

def genesisPrev : Text := List.replicate 64 0x30

def entryKeys : List String := ["fetched_at", "prev_sha256", "seal"]

/-- The file, if there is one. -/
abbrev File := Option Bytes

section
variable (cr : Crypto) (fl : Floats)

def lineDigest (line : Bytes) : Text := hashText (cr.sha256 line)

def encodeEntry (entry : Py) : Bytes := dumps fl entry

/-- One turn of the loop of `read_log`. -/
def readLine (number : Nat) (prev : Text) (line : Bytes) : Except OpsError Py :=
  match loads fl line with
  | none => .error (.logBroken s!"log line {number} is not JSON")
  | some entry => do
    if !entry.hasKeys entryKeys then
      throw (.logBroken s!"log line {number} is not a seal entry")
    if !(← entry.item "prev_sha256").isText prev then
      throw (.logBroken
        s!"log line {number} does not name the digest of line {number - 1}")
    if !(← entry.item "fetched_at").isStr then
      throw (.logBroken s!"log line {number} has no fetched_at")
    if encodeEntry fl entry ≠ line then
      throw (.logBroken s!"log line {number} is not in canonical form")
    return entry

def readLines (number : Nat) (prev : Text) :
    List Bytes → Except OpsError (List (Bytes × Py))
  | [] => .ok []
  | line :: rest => do
    let entry ← readLine fl number prev line
    return (line, entry) :: (← readLines (number + 1) (lineDigest cr line) rest)

def readLog : File → Except OpsError (List (Bytes × Py))
  | none => .ok []
  | some data =>
    if data ≠ [] ∧ data.getLast? ≠ some 0x0a then
      .error (.logBroken "log does not end with a newline")
    else readLines cr fl 1 genesisPrev (lines data)

end

/-- What `verify_log` raises names the line. -/
def OpsError.atLine (number : Nat) : OpsError → OpsError
  | .regression kind message => .regression kind s!"log line {number}: {message}"
  | .sealInvalid message => .sealInvalid s!"log line {number}: {message}"
  | .nodeKeyMismatch message => .nodeKeyMismatch s!"log line {number}: {message}"
  | .identityDrift message => .identityDrift s!"log line {number}: {message}"
  | e => e

structure Report where
  entries : Nat
  headSha256 : Option Text
  head : Option SealFields
  deriving Repr, DecidableEq

/-- `datetime`, in UTC. -/
structure Moment where
  year : Nat
  month : Nat
  day : Nat
  hour : Nat
  minute : Nat
  second : Nat
  microsecond : Nat

def pad (width n : Nat) : Text :=
  List.replicate (width - (digits n).length) 0x30 ++ (digits n).map UInt8.toNat

def Moment.isoformat (m : Moment) : Text :=
  pad 4 m.year ++ text "-" ++ pad 2 m.month ++ text "-" ++ pad 2 m.day ++ text "T" ++
    pad 2 m.hour ++ text ":" ++ pad 2 m.minute ++ text ":" ++ pad 2 m.second ++
    (if m.microsecond = 0 then [] else text "." ++ pad 6 m.microsecond) ++ text "+00:00"

def entryOf (prev : Text) (doc : Py) (now : Moment) : Py :=
  .dict [(text "fetched_at", .str now.isoformat), (text "prev_sha256", .str prev),
    (text "seal", doc)]

/-- What a run meets: the answer of the node or why there is none, the operator's clock, and
whether the file can be appended to. -/
structure Attempt where
  answer : Except OpsError Py
  now : Moment
  appends : Bool

section
variable (cr : Crypto) (fl : Floats) (ed25519 : Ed25519) (nodeKey : Text) (expected : Expected)

/-- One turn of the loop of `verify_log`. -/
def verifyEntry (previous : Option SealFields) (entry : Py) : Except OpsError SealFields := do
  let sealed ← verifySigned ed25519 nodeKey (← entry.item "seal")
  let sealed ← requireSealIdentity expected sealed
  match previous with
  | none => return sealed
  | some head => requireSuccession head sealed

def verifyEntries (number : Nat) (previous : Option SealFields) :
    List Py → Except OpsError (List SealFields)
  | [] => .ok []
  | entry :: rest => do
    let sealed ← (verifyEntry ed25519 nodeKey expected previous entry).mapError (.atLine number)
    return sealed :: (← verifyEntries (number + 1) (some sealed) rest)

def verifyLog (file : File) : Except OpsError Report := do
  let entries ← readLog cr fl file
  let verified ← verifyEntries ed25519 nodeKey expected 1 none (entries.map Prod.snd)
  return ⟨entries.length, entries.getLast?.map fun entry => lineDigest cr entry.1,
    verified.getLast?⟩

def appendEntry (file : File) (line : Bytes) : Bytes := file.getD [] ++ line ++ [0x0a]

/-- What the new line names, once the seal succeeds the one in the last line. -/
def succeed (sealed : SealFields) : Option (Bytes × Py) → Except OpsError Text
  | none => .ok genesisPrev
  | some (line, entry) => do
    let head ← verifySigned ed25519 nodeKey (← entry.item "seal")
    let _ ← requireSuccession head sealed
    return lineDigest cr line

/-- `record`: the file it leaves, the seal, its number and the digest of its line. -/
def record (file : File) (attempt : Attempt) :
    Except OpsError (Bytes × SealFields × Nat × Text) := do
  let doc ← attempt.answer
  let sealed ← requireSealIdentity expected (← verifySigned ed25519 nodeKey doc)
  let entries ← readLog cr fl file
  let prev ← succeed cr ed25519 nodeKey sealed entries.getLast?
  let line := encodeEntry fl (entryOf prev doc attempt.now)
  if !attempt.appends then throw .os
  return (appendEntry file line, sealed, entries.length + 1, lineDigest cr line)

/-- The file after a run. -/
def fileAfter (file : File) (attempt : Attempt) : File :=
  match record cr fl ed25519 nodeKey expected file attempt with
  | .ok (data, _) => some data
  | .error _ => file

def fileAfterAll (file : File) (attempts : List Attempt) : File :=
  attempts.foldl (fileAfter cr fl ed25519 nodeKey expected) file

end

end Clockchain.Operator
