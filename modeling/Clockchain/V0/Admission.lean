import Clockchain.V0.Ledger

/-!
# HTTP admission of v0 events

`admission.rs` of the node: the checks a new event has to pass before it is committed, read
off the projection under the table locks that serialize the calls.
-/

namespace Clockchain.V0
open Codec
open V1 (Hash BTreeMap Crypto Verify)
set_option autoImplicit false

inductive SubjectConflict where
  | destinationChanged | sourceChanged | identityReused | edgeTargetMismatch | bindingUnavailable
  deriving Repr, DecidableEq

inductive ApiError where
  | subjectConflict (conflict : SubjectConflict)
  | unavailable (error : LedgerError)
  deriving Repr, DecidableEq

namespace Tables

/-- The rows of `moments WHERE subject = $1`. -/
def momentsOf (t : Tables) (subject : EntityId) : List MomentRow :=
  (t.moments.toList.map Prod.snd).filter fun row => row.subject = subject

/-- Whether an edge row has `subject` as an endpoint. -/
def incident (t : Tables) (subject : EntityId) : Bool :=
  t.edges.toList.any fun row => row.2.srcEntity = subject ∨ row.2.dstEntity = subject

def changedSubject (t : Tables) (subject : EntityId) : SubjectConflict :=
  if t.edges.toList.any fun row => row.2.dstEntity = subject then .destinationChanged
  else if t.edges.toList.any fun row => row.2.srcEntity = subject then .sourceChanged
  else .identityReused

def checkBirth (t : Tables) (birth : EntityBirth) : Except SubjectConflict Unit :=
  match t.entities[birth.entityId]? with
  | some prior =>
    if prior.resolutionKey ≠ birth.resolutionKey ∨ prior.canonicalName ≠ birth.canonicalName then
      .error .identityReused
    else .ok ()
  | none =>
    if !(t.momentsOf birth.entityId).isEmpty || t.incident birth.entityId then
      .error .bindingUnavailable
    else .ok ()

/-- Only the head of a chain of the same subject and body can be superseded. -/
def checkParent (t : Tables) (moment : MomentBody) (parent : Hash) : Except SubjectConflict Unit :=
  match t.moments.toList.find? fun row => row.2.headEventId = parent with
  | some (_, prior) =>
    if prior.subject = moment.subject ∧ prior.bodyHash = moment.bodyHash then .ok ()
    else .error (t.changedSubject prior.subject)
  | none => .error .bindingUnavailable

def checkMoment (events : Events) (t : Tables) (moment : MomentBody) (id : Hash)
    (supersedes : Option Hash) : Except SubjectConflict Unit := do
  if !t.entities.contains moment.subject then throw .bindingUnavailable
  let bodies := t.momentsOf moment.subject
  if bodies.any fun row => row.bodyHash ≠ moment.bodyHash then
    throw (t.changedSubject moment.subject)
  if bodies.isEmpty && t.incident moment.subject then throw .bindingUnavailable
  if let some parent := supersedes then t.checkParent moment parent
  if events.toList.any fun row => row.2.supersedes = some id then throw .bindingUnavailable

def checkEndpoint (t : Tables) (subject : EntityId) : Except SubjectConflict Unit :=
  let bodies := ((t.momentsOf subject).map MomentRow.bodyHash).dedup.length
  if !t.entities.contains subject || bodies ≠ 1 then .error .edgeTargetMismatch else .ok ()

end Tables

namespace Ledger
variable {cr : Crypto} {verify : Verify}

def check (ledger : Ledger) (s : Signed cr verify) : Except SubjectConflict Unit :=
  match s.content.body with
  | .entityCreate birth => ledger.tables.checkBirth birth
  | .moment moment =>
    ledger.tables.checkMoment ledger.events moment s.id s.content.supersedes
  | .edge edge => do
    ledger.tables.checkEndpoint edge.src
    ledger.tables.checkEndpoint edge.dst
  | .attestation _ | .vocabularyDeclare _ => .ok ()

/-- `admission::commit`; an event already stored unions without a check. -/
def admission (ledger : Ledger) (s : Signed cr verify) : Except ApiError (Appended × Ledger) :=
  let checked := if ledger.events.contains s.id then .ok () else ledger.check s
  match checked with
  | .error conflict => .error (.subjectConflict conflict)
  | .ok () =>
    match ledger.commit s with
    | .error e => .error (.unavailable e)
    | .ok committed => .ok committed

/-- The ledger after a call, whatever it returned. -/
def afterAdmission (ledger : Ledger) (s : Signed cr verify) : Ledger :=
  match ledger.admission s with
  | .ok (_, committed) => committed
  | .error _ => ledger

/-- The ledger after these calls, one at a time. -/
def afterAdmissions (ledger : Ledger) (events : List (Signed cr verify)) : Ledger :=
  events.foldl afterAdmission ledger

end Ledger

end Clockchain.V0
