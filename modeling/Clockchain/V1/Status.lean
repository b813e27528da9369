import Clockchain.V1.Wire

/-!
# Verdicts and their reasons

Every reason the v1 fold gives is one of a fixed set of texts, so a reason is an
enumeration here and `Reason.text` is its spelling in the source.
-/

namespace Clockchain.V1
set_option autoImplicit false

inductive Reason where
  | none
  -- subject events
  | precision | genesis | parents | subjectHeader | parentMissing | wrongSubject | ancestor
  | subjectKeyChanged | subjectMissing | decisionMissing | decisionMismatch | authorityTimeEdit
  | comparableParents | parentAuthority | issuerGrantMismatch | key | keyNotFresh
  | revocationScope | dispositionMismatch | revisionUnreachable | revisionIneligible
  | selectionTimeEdit | cycle
  -- edges and attestations
  | nonSubjectHeader | relation | pinMissing | pinSubject | pinInvalid | pinPending | pinRevision
  | pinBody | disputeCounterclaim | wrongEdge | edgeAuthor | endpointChanged | artifactKind
  | revisionMissing | targetMissing | attestationTarget | targetInvalid | targetPending
  -- authority effects
  | rootRelinquished | revokedConcurrent | canceledGrant | canceledAuthority | revokedAncestor
  -- rows
  | contested | edgeConflict
  deriving Repr, DecidableEq

def Reason.text : Reason → String
  | .none => ""
  | .precision => "precision"
  | .genesis => "genesis"
  | .parents => "parents"
  | .subjectHeader => "subject_header"
  | .parentMissing => "parent_missing"
  | .wrongSubject => "wrong_subject"
  | .ancestor => "ancestor"
  | .subjectKeyChanged => "subject_key_changed"
  | .subjectMissing => "subject_missing"
  | .decisionMissing => "decision_missing"
  | .decisionMismatch => "decision_mismatch"
  | .authorityTimeEdit => "authority_time_edit"
  | .comparableParents => "comparable_parents"
  | .parentAuthority => "parent_authority"
  | .issuerGrantMismatch => "issuer_grant_mismatch"
  | .key => "key"
  | .keyNotFresh => "key_not_fresh"
  | .revocationScope => "revocation_scope"
  | .dispositionMismatch => "disposition_mismatch"
  | .revisionUnreachable => "revision_unreachable"
  | .revisionIneligible => "revision_ineligible"
  | .selectionTimeEdit => "selection_time_edit"
  | .cycle => "cycle"
  | .nonSubjectHeader => "non_subject_header"
  | .relation => "relation"
  | .pinMissing => "pin_missing"
  | .pinSubject => "pin_subject"
  | .pinInvalid => "pin_invalid"
  | .pinPending => "pin_pending"
  | .pinRevision => "pin_revision"
  | .pinBody => "pin_body"
  | .disputeCounterclaim => "dispute_counterclaim"
  | .wrongEdge => "wrong_edge"
  | .edgeAuthor => "edge_author"
  | .endpointChanged => "endpoint_changed"
  | .artifactKind => "artifact_kind"
  | .revisionMissing => "revision_missing"
  | .targetMissing => "target_missing"
  | .attestationTarget => "attestation_target"
  | .targetInvalid => "target_invalid"
  | .targetPending => "target_pending"
  | .rootRelinquished => "root_relinquished"
  | .revokedConcurrent => "revoked_concurrent"
  | .canceledGrant => "canceled_grant"
  | .canceledAuthority => "canceled_authority"
  | .revokedAncestor => "revoked_ancestor"
  | .contested => "contested"
  | .edgeConflict => "edge_conflict"

inductive State where
  | valid | pending | invalid
  deriving Repr, DecidableEq

structure Status where
  state : State
  reason : Reason
  missing : List Hash
  deriving Repr, DecidableEq

namespace Status

def valid : Status := ⟨.valid, .none, []⟩
def invalid (reason : Reason) : Status := ⟨.invalid, reason, []⟩
def pending (reason : Reason) (missing : List Hash) : Status := ⟨.pending, reason, missing⟩

@[simp] theorem valid_state : valid.state = .valid := rfl
@[simp] theorem invalid_state (r : Reason) : (invalid r).state = .invalid := rfl
@[simp] theorem pending_state (r : Reason) (m : List Hash) : (pending r m).state = .pending := rfl
@[simp] theorem valid_reason : valid.reason = .none := rfl
@[simp] theorem invalid_reason (r : Reason) : (invalid r).reason = r := rfl
@[simp] theorem pending_reason (r : Reason) (m : List Hash) : (pending r m).reason = r := rfl

end Status

/-- `reason.is_empty()` means authority-eligible, not a selected body. -/
structure Effect where
  reason : Reason
  controllingRevokes : BTreeSet

structure Grant where
  issuedByEvent : Hash
  issuer : Option Hash
  holder : Hash
  subject : Hash
  deriving Repr, DecidableEq

structure Authority where
  grants : BTreeMap Grant
  active : BTreeSet
  tombstones : BTreeSet
  effectiveRevokes : BTreeSet
  canceled : BTreeSet
  effects : BTreeMap Effect

end Clockchain.V1
