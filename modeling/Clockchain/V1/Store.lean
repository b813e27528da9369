import Clockchain.V1.Edges
import Clockchain.V1.Rule

/-!
# The v1 store

`Store` of `v1.rs` over the tables of `v1.sql`, and `receipt_for` of `serving.rs`. A call that
returns an error has rolled its transaction back; `none` is a panic of the fold.
-/

namespace Clockchain.V1
open Codec
set_option autoImplicit false

inductive StoreError where
  | database | corrupt | unsupportedFoldVersion | ruleIdentity | unbound | rootMismatch | receipt
  deriving Repr, DecidableEq

/-- A `Status`, its reason spelled out. -/
structure Answer where
  state : State
  reason : String
  missing : List Hash
  deriving Repr, DecidableEq

def Answer.invalid (reason : String) : Answer := ⟨.invalid, reason, []⟩

def Status.answer (s : Status) : Answer := ⟨s.state, s.reason.text, s.missing⟩

structure Outcome where
  event : Option Hash
  inputDigest : Hash
  status : Answer
  authority : Option Effect

/-- The rows of the store under their primary keys; every table is append-only. -/
structure Tables where
  candidates : BTreeMap Bytes
  rejections : BTreeMap String
  receipts : BTreeMap (Hash × Bytes)
  ruleIdentity : Option (FoldRef × Bytes)

/-- A handle on the tables; `rule` is the boot-pinned filter. -/
structure Store where
  instanceId : Hash
  rule : Option FilterIdentity

/-- The receipt a node signs for a candidate it has just retained for the first time. -/
def receiptFor (cr : Crypto) (verify : Verify) (node : SecretKey) (instanceId : Hash)
    (filter : FilterIdentity) (event : Hash) (status : Status) (receivedAt : BitVec 64) :
    Except StoreError SignedReceipt :=
  let state := match status.state with
    | .valid => .valid
    | .pending => .pending
    | .invalid => .invalid
  let signed := SignedReceipt.sign cr verify node {
    instanceId
    nodeKey := 0
    event
    receivedAt
    encodingVersion := canonVersion
    foldVersion := filter.fold
    -- A receipt's missing set is canonical: sorted and unique.
    initialAdmissionResult := ⟨state, status.reason.text, sortedSet status.missing⟩ }
  match signed with
  | .ok r => .ok r
  | .error _ => .error .receipt

/-- What `admit_once` finds out before it writes. -/
inductive Judged where
  | rejected (reason : String)
  | candidate (signed : Decoded) (status : Status) (authority : Option Effect)

/-- What a committed admission leaves. -/
structure Recorded where
  tables : Tables
  outcome : Outcome
  receipt : Option SignedReceipt

def candidatesOf (all : BTreeMap Decoded) : Candidates := all.map fun _ s => s.toSigned

namespace Store
variable (cr : Crypto) (verify : Verify) (store : Store)

def bound (requested : Option FoldRef) : Except StoreError FilterIdentity :=
  match store.rule with
  | none => .error .unbound
  | some rule =>
    if requested.any fun r => !supportedFold cr r || r ≠ rule.fold then
      .error .unsupportedFoldVersion
    else .ok rule

def retained (row : Hash × Bytes) : Except StoreError Decoded :=
  match decode cr verify row.2 with
  | .error _ => .error .corrupt
  | .ok s =>
    if s.envelope.instanceId ≠ store.instanceId ∨ row.1 ≠ s.id then .error .corrupt else .ok s

def verifiedCandidates (t : Tables) : Except StoreError (BTreeMap Decoded) := do
  let rows ← t.candidates.toList.mapM (store.retained cr verify)
  return .ofList (rows.map fun s => (s.id, s))

/-- `admit_once` up to its verdict. -/
def judge (t : Tables) (bytes : Bytes) : ExceptT StoreError Option Judged := do
  match decode cr verify bytes with
  | .error e => return .rejected e.text
  | .ok signed =>
    if signed.envelope.instanceId ≠ store.instanceId then return .rejected "wrong_instance"
    let all ← store.verifiedCandidates cr verify t
    let analysis ← analyze cr (candidatesOf (all.insert signed.id signed))
    match analysis.admission[signed.id]? with
    | none => throw .corrupt
    | some status => return .candidate signed status analysis.authority.effects[signed.id]?

def observe (observer : Option (SecretKey × FilterIdentity)) (inserted : Bool) (id : Hash)
    (status : Status) (now : BitVec 64) : Except StoreError (Option SignedReceipt) :=
  match observer with
  | some (key, filter) =>
    if inserted then some <$> receiptFor cr verify key store.instanceId filter id status now
    else .ok none
  | none => .ok none

/-- `INSERT INTO cc_v1.receipts`; a taken digest is an error. -/
def keepReceipt (t : Tables) (event : Hash) : Option SignedReceipt → Except StoreError Tables
  | none => .ok t
  | some r =>
    let digest := cr.sha256 r.bytes
    if t.receipts.contains digest then .error .database
    else .ok { t with receipts := t.receipts.insert digest (event, r.bytes) }

/-- `admit_once` from its verdict on. -/
def record (t : Tables) (bytes : Bytes) (observer : Option (SecretKey × FilterIdentity))
    (now : BitVec 64) : Judged → Except StoreError Recorded
  | .rejected reason =>
    let digest := cr.sha256 bytes
    .ok {
      tables := { t with rejections := t.rejections.insertIfNew digest reason }
      outcome := ⟨none, digest, .invalid reason, none⟩
      receipt := none }
  | .candidate signed status authority => do
    let inserted := !t.candidates.contains signed.id
    let receipt ← store.observe cr verify observer inserted signed.id status now
    let retained := { t with candidates := t.candidates.insertIfNew signed.id bytes }
    return {
      tables := ← keepReceipt cr retained signed.id receipt
      outcome := ⟨some signed.id, cr.sha256 bytes, status.answer, authority⟩
      receipt }

/-- A receipt names the fold it was observed under. -/
def observer : Option SecretKey → Except StoreError (Option (SecretKey × FilterIdentity))
  | none => .ok none
  | some key => do return some (key, ← store.bound cr none)

/-- The transaction of `admit_observed`. -/
def admitOnce (t : Tables) (bytes : Bytes) (node : Option SecretKey) (now : BitVec 64) :
    ExceptT StoreError Option Recorded := do
  let observer ← store.observer cr node
  let judged ← store.judge cr verify t bytes
  store.record cr verify t bytes observer now judged

/-- Retain a verified node observation separately. -/
def retainReceipt (t : Tables) (bytes : Bytes) : Except StoreError Tables :=
  match SignedReceipt.decode cr verify bytes with
  | .error _ => .error .receipt
  | .ok r =>
    if r.receipt.instanceId ≠ store.instanceId then .error .receipt
    else if !t.candidates.contains r.receipt.event then .error .receipt
    else .ok { t with
      receipts := t.receipts.insertIfNew (cr.sha256 bytes) (r.receipt.event, bytes) }

end Store

end Clockchain.V1
