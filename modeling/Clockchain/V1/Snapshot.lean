import Clockchain.V1.CanonicalRows
import Clockchain.V1.Store

/-!
# Committed snapshots

`rule.rs`: semantic readiness, snapshots, export and restore, with `admit_all` of `v1.rs`.
-/

namespace Clockchain.V1
open Codec
set_option autoImplicit false

/-- A projection committed under one exact rule identity and corpus snapshot. -/
structure Snapshot where
  rule : RuleId
  corpusDigest : Hash
  commitment : Hash
  projection : Projection
  filter : FilterIdentity

def Snapshot.of (cr : Crypto) (filter : FilterIdentity) (candidates : Candidates) :
    Option Snapshot := do
  let projection ← project cr candidates
  let corpus := V1.corpusDigest cr candidates.keys
  return {
    rule := .of cr filter
    corpusDigest := corpus
    commitment :=
      viewCommitment cr filter.fold (filter.version cr) corpus (canonicalRows projection)
    projection
    filter }

/-! ## Readiness -/

inductive Semantic where
  | ready | ruleIdentityUnbound | ruleIdentityUnrecorded | unsupportedFoldVersion
  | incompatibleRuleIdentity
  deriving Repr, DecidableEq

def Semantic.text : Semantic → String
  | .ready => "ready"
  | .ruleIdentityUnbound => "rule_identity_unbound"
  | .ruleIdentityUnrecorded => "rule_identity_unrecorded"
  | .unsupportedFoldVersion => "unsupported_fold_version"
  | .incompatibleRuleIdentity => "incompatible_rule_identity"

/-- `serving` only for a bound, recorded, supported and matching rule identity. -/
structure Readiness where
  serving : Bool
  semantic : Semantic
  rule : Option RuleId
  deriving Repr, DecidableEq

namespace Store
variable (cr : Crypto) (verify : Verify) (store : Store)

def semanticReadiness (t : Tables) : Readiness :=
  let semantic := match store.rule, t.ruleIdentity with
    | none, _ => .ruleIdentityUnbound
    | some _, none => .ruleIdentityUnrecorded
    | some rule, some (stored, filterIdentity) =>
      if !supportedFold cr stored then .unsupportedFoldVersion
      else if filterIdentity ≠ rule.canonical then .incompatibleRuleIdentity
      else .ready
  ⟨semantic = .ready, semantic, store.rule.map (RuleId.of cr)⟩

def ready (t : Tables) (requested : Option FoldRef) : Except StoreError FilterIdentity := do
  let rule ← store.bound cr requested
  match (store.semanticReadiness cr t).semantic with
  | .ready => return rule
  | .unsupportedFoldVersion => throw .unsupportedFoldVersion
  | _ => throw .ruleIdentity

def folded (t : Tables) (filter : FilterIdentity) : ExceptT StoreError Option Snapshot := do
  let all ← store.verifiedCandidates cr verify t
  Snapshot.of cr filter (candidatesOf all)

/-- The snapshot of a store whose cache is off. -/
def snapshot (t : Tables) (requested : Option FoldRef) : ExceptT StoreError Option Snapshot := do
  let rule ← store.ready cr t requested
  store.folded cr verify t rule

end Store

/-! ## Export and restore -/

/-- Retained candidates plus the root they were committed under. -/
structure ExportManifest where
  encoding : BitVec 16
  rule : RuleId
  corpusDigest : Hash
  commitment : Hash
  envelopes : List Bytes
  deriving Repr, DecidableEq

/-- The tables a bulk admission leaves, and what it returns unless the fold panics. -/
abbrev Restored := Tables × Option (Except StoreError (List Outcome))

namespace Store
variable (cr : Crypto) (verify : Verify) (store : Store)

/-- `export`. -/
def exportManifest (t : Tables) (requested : Option FoldRef) :
    ExceptT StoreError Option ExportManifest := do
  let rule ← store.ready cr t requested
  let all ← store.verifiedCandidates cr verify t
  let s ← Snapshot.of cr rule (candidatesOf all)
  return {
    encoding := canonVersion
    rule := s.rule
    corpusDigest := s.corpusDigest
    commitment := s.commitment
    envelopes := all.toList.map fun entry => entry.2.bytes }

/-- Admit each envelope in order, up to the first error. Without a node no clock is read. -/
def admitAll (t : Tables) : List Bytes → Restored
  | [] => (t, some (.ok []))
  | bytes :: rest =>
    match store.admitOnce cr verify t bytes none 0 with
    | none => (t, none)
    | some (.error e) => (t, some (.error e))
    | some (.ok a) =>
      let (t, outcomes) := admitAll a.tables rest
      (t, outcomes.map fun r => r.map (a.outcome :: ·))

/-- An exported envelope of this instance. -/
def exported (bytes : Bytes) : Except StoreError Decoded :=
  match decode cr verify bytes with
  | .error _ => .error .corrupt
  | .ok s => if s.envelope.instanceId ≠ store.instanceId then .error .corrupt else .ok s

/-- The candidates whose root an exported manifest names. -/
def exportedCandidates (envelopes : List Bytes) : Except StoreError (BTreeMap Decoded) := do
  let events ← envelopes.mapM (store.exported cr verify)
  return .ofList (events.map fun s => (s.id, s))

/-- `restore_export` up to the check of the root under its own named rule. -/
def checkRoot (t : Tables) (m : ExportManifest) : ExceptT StoreError Option Unit := do
  if m.encoding ≠ canonVersion ∨ !supportedFold cr m.rule.fold then throw .unsupportedFoldVersion
  let rule ← store.ready cr t (some m.rule.fold)
  if m.rule ≠ .of cr rule then throw .ruleIdentity
  let candidates ← store.exportedCandidates cr verify m.envelopes
  let s ← Snapshot.of cr rule (candidatesOf candidates)
  if s.corpusDigest ≠ m.corpusDigest ∨ s.commitment ≠ m.commitment then throw .rootMismatch

def restoreExport (t : Tables) (m : ExportManifest) : Restored :=
  match store.checkRoot cr verify t m with
  | none => (t, none)
  | some (.error e) => (t, some (.error e))
  | some (.ok ()) => store.admitAll cr verify t m.envelopes

end Store

end Clockchain.V1
