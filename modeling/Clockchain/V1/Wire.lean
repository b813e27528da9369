import Clockchain.Codec
import Std.Data.ExtTreeMap
import Std.Data.ExtTreeSet
import Mathlib.Data.List.Basic

/-!
# The v1 event envelope

The types of `cc-core/src/v1.rs`: envelopes, payloads, decisions and the two
derived identifiers. A wire `Set` is the list it carries; `Signed` is an envelope
that came out of the decoder, so each of its sets is strictly increasing and bounded.
SHA-256 and the key check are parameters: they are not code of this repository.
-/

namespace Clockchain.V1
open Codec
set_option autoImplicit false

/-- `[u8; 32]`, ordered as its big-endian value. -/
abbrev Hash := BitVec 256

def hashBytes (h : Hash) : Bytes := beBytes 32 h.toNat

theorem hashBytes_length (h : Hash) : (hashBytes h).length = 32 := beBytes_length _ _

theorem hashBytes_injective : Function.Injective hashBytes := by
  have hpow : 2 ^ 256 = 256 ^ 32 := by decide
  exact fun g h heq => BitVec.eq_of_toNat_eq
    (beBytes_inj (hpow ▸ g.isLt) (hpow ▸ h.isLt) heq)

instance transCmpHash : Std.TransCmp (compare : Hash → Hash → Ordering) := inferInstance

instance lawfulBEqHash : LawfulBEq Hash := inferInstance

abbrev BTreeMap (α : Type) := Std.ExtTreeMap Hash α compare
abbrev BTreeSet := Std.ExtTreeSet Hash compare

def maxSet : Nat := 1024

structure SubjectKey where
  kind : String
  nameSpace : String
  value : String
  deriving Repr, DecidableEq

structure AssertedTime where
  coordinate : Hash
  precision : String
  deriving Repr, DecidableEq

structure Pin where
  subject : Hash
  basis : Hash
  revision : Hash
  body : Hash
  deriving Repr, DecidableEq

structure Pins where
  source : Pin
  target : Pin
  deriving Repr, DecidableEq

structure ParentPins where
  parent : Hash
  pins : Pins
  deriving Repr, DecidableEq

inductive Kind where
  | genesis | correction | delegate | revoke | resolve | edgeAssert | edgeReaffirm | attestation
  deriving Repr, DecidableEq

inductive DispositionKind where
  | selected | merged | notSelected
  deriving Repr, DecidableEq

inductive TargetKind where
  | event | revision
  deriving Repr, DecidableEq

structure Disposition where
  parent : Hash
  action : DispositionKind
  rationale : String
  deriving Repr, DecidableEq

inductive Value where
  | none
  | body (body : Hash)
  | grant (issuer grantee : Hash)
  | activeGrant (grant : Hash)
  | revokedGrant (grant : Hash) (cascade : Bool)
  | heads (heads : List Hash)
  | revision (revision : Hash)
  | pins (pins : Pins)
  | parentPins (pins : List ParentPins)
  deriving Repr, DecidableEq

structure Decision where
  kind : Kind
  rationale : String
  evidence : List Hash
  parents : List Hash
  old : Value
  new : Value
  deriving Repr, DecidableEq

inductive Selection where
  | revision (revision : Hash)
  | mergedBody (body : Hash)
  deriving Repr, DecidableEq

inductive Payload where
  | genesis (nonce body : Hash) (evidence : List Hash)
  | correction (body : Hash) (decision : Decision)
  | delegate (grantee issuer : Hash) (decision : Decision)
  | revoke (target : Hash) (cascade : Bool) (decision : Decision)
  | resolve (selection : Selection) (dispositions : List Disposition) (decision : Decision)
  | edgeAssert (relation : String) (pins : Pins) (decision : Decision)
  | edgeReaffirm (edge : Hash) (old : List ParentPins) (new : Pins) (decision : Decision)
  | attestation (targetKind : TargetKind) (target : Hash) (artifactKind : String) (artifact : Hash)
  deriving Repr, DecidableEq

def Payload.kind : Payload → Kind
  | .genesis .. => .genesis
  | .correction .. => .correction
  | .delegate .. => .delegate
  | .revoke .. => .revoke
  | .resolve .. => .resolve
  | .edgeAssert .. => .edgeAssert
  | .edgeReaffirm .. => .edgeReaffirm
  | .attestation .. => .attestation

def Payload.decision : Payload → Option Decision
  | .correction _ decision | .delegate _ _ decision | .revoke _ _ decision
  | .resolve _ _ decision | .edgeAssert _ _ decision | .edgeReaffirm _ _ _ decision => some decision
  | .genesis .. | .attestation .. => none

structure Envelope where
  instanceId : Hash
  author : Hash
  subject : Option Hash
  subjectKey : Option SubjectKey
  grant : Option Hash
  parents : List Hash
  assertedTime : Option AssertedTime
  payload : Payload
  deriving Repr, DecidableEq

/-! ## Wire sets -/

/-- The references of each wire set a value carries. -/
def Value.sets : Value → List (List Hash)
  | .heads refs => [refs]
  | .parentPins old => [old.map ParentPins.parent]
  | _ => []

def Decision.sets (d : Decision) : List (List Hash) :=
  d.evidence :: d.parents :: (d.old.sets ++ d.new.sets)

def Payload.sets : Payload → List (List Hash)
  | .genesis _ _ evidence => [evidence]
  | .correction _ decision | .delegate _ _ decision | .revoke _ _ decision
  | .edgeAssert _ _ decision => decision.sets
  | .resolve _ dispositions decision => dispositions.map Disposition.parent :: decision.sets
  | .edgeReaffirm _ old _ decision => old.map ParentPins.parent :: decision.sets
  | .attestation .. => []

/-- What `Set::get` enforces: strictly increasing references, at most `MAX_SET` of them. -/
def WireSet (refs : List Hash) : Prop := refs.Pairwise (· < ·) ∧ refs.length ≤ maxSet

instance (refs : List Hash) : Decidable (WireSet refs) := inferInstanceAs (Decidable (_ ∧ _))

def Envelope.Canonical (e : Envelope) : Prop := ∀ refs ∈ e.parents :: e.payload.sets, WireSet refs

instance (e : Envelope) : Decidable e.Canonical := inferInstanceAs (Decidable (∀ _ ∈ _, _))

/-- An envelope as `Signed::decode` yields it. -/
structure Signed where
  envelope : Envelope
  canonical : envelope.Canonical
  deriving DecidableEq

/-- `&BTreeMap<Hash, Signed>`: every event under its id. -/
abbrev Candidates := BTreeMap Signed

theorem Signed.parents_sorted (s : Signed) : s.envelope.parents.Pairwise (· < ·) :=
  (s.canonical _ List.mem_cons_self).1

theorem Signed.parents_nodup (s : Signed) : s.envelope.parents.Nodup :=
  s.parents_sorted.imp fun h => BitVec.ne_of_lt h

/-! ## Derived identifiers -/

/-- What the repository takes from its dependencies. -/
structure Crypto where
  sha256 : List UInt8 → Hash
  /-- `AuthorKey::from_bytes(key).is_ok()`. -/
  authorKey : Hash → Bool

def domainHash (cr : Crypto) (domain : String) (ids : List Hash) : Hash :=
  cr.sha256 (frame domain.toUTF8.toList ++ ids.flatMap hashBytes)

def rootGrant (cr : Crypto) (genesis : Hash) : Hash := domainHash cr "cc.root-grant.v1" [genesis]

def revisionId (cr : Crypto) (subject creatingEvent : Hash) : Hash :=
  domainHash cr "cc.revision.v1" [subject, creatingEvent]

end Clockchain.V1
