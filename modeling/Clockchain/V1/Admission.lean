import Clockchain.V1.Revisions

/-!
# Admission of subject events

`classify` of `v1.rs`, up to its call of `edges::classify`. `evaluate` keeps the
order of the source's checks; its tail is split at the two points where the
source has established the parents and then the authority.
-/

namespace Clockchain.V1
open Programs
set_option autoImplicit false

def isSubject (event : Signed) : Bool :=
  match event.envelope.payload.kind with
  | .edgeAssert | .edgeReaffirm | .attestation => false
  | _ => true

/-- Whether `decision` is the record the event's own header asks for. -/
def Decision.records (d : Decision) (kind : Kind) (parents : List Hash) : Bool :=
  d.kind = kind && d.parents = parents && !d.rationale.isEmpty && !d.evidence.isEmpty

def checkMerged (dispositions : List Disposition) : Status :=
  if dispositions.any (fun d => d.action = .selected)
      || !dispositions.any (fun d => d.action = .merged) then .invalid .dispositionMismatch
  else .valid

/-- A selected parent that does not descend from the creating event. -/
def Disposition.stray (past : Candidates) (creating : Hash) (d : Disposition) : Option Bool := do
  if d.action = .selected then return !(← cone past d.parent).contains creating
  return false

def checkSelected (cr : Crypto) (past : Candidates) (view : Authority) (e : Envelope)
    (revision : Hash) (dispositions : List Disposition) : Option Status := do
  let some r := (revisions cr past)[revision]? | return .invalid .revisionUnreachable
  if (← view.effects[r.creatingEvent]?).reason ≠ .none then return .invalid .revisionIneligible
  if e.assertedTime.isSome then return .invalid .selectionTimeEdit
  if dispositions.any (fun d => d.action = .merged)
      || !dispositions.any (fun d => d.action = .selected) then
    return .invalid .dispositionMismatch
  let stray ← dispositions.anyM (Disposition.stray past r.creatingEvent)
  return if stray then .invalid .dispositionMismatch else .valid

/-- The checks of each payload, once the signing grant is known to be active. -/
def evaluatePayload (cr : Crypto) (all past : Candidates) (view : Authority) (grant parent : Hash)
    (e : Envelope) : Option Status :=
  match e.payload with
  | .correction newBody decision => do
    if decision.old ≠ .body (← body cr all parent) || decision.new ≠ .body newBody then
      return .invalid .decisionMismatch
    return .valid
  | .delegate grantee issuer decision => do
    if issuer ≠ grant then return .invalid .issuerGrantMismatch
    if !cr.authorKey grantee then return .invalid .key
    if view.grants.toList.any fun item => item.2.holder = grantee then
      return .invalid .keyNotFresh
    if decision.old ≠ .none || decision.new ≠ .grant issuer grantee then
      return .invalid .decisionMismatch
    return .valid
  | .revoke target cascade decision => do
    if !view.active.contains target then return .invalid .revocationScope
    if !(← inScope view grant target) then return .invalid .revocationScope
    if decision.old ≠ .activeGrant target || decision.new ≠ .revokedGrant target cascade then
      return .invalid .decisionMismatch
    return .valid
  | .resolve selection dispositions decision => do
    let new : Value := match selection with
      | .mergedBody b => .body b
      | .revision r => .revision r
    if decision.old ≠ .heads e.parents || decision.new ≠ new
        || dispositions.map Disposition.parent ≠ e.parents
        || dispositions.any (fun d => d.rationale.isEmpty) then
      return .invalid .decisionMismatch
    match selection with
    | .mergedBody _ => return checkMerged dispositions
    | .revision revision => checkSelected cr past view e revision dispositions
  | _ => none

/-- Whether the grant is inactive on one parent's cone. -/
def lapsed (cr : Crypto) (grant : Hash) (cone : Candidates) : Option Bool := do
  return !(← derive cr cone).active.contains grant

/-- The checks from the decision on: every parent is valid and of this subject. -/
def evaluateAuthority (cr : Crypto) (all : Candidates) (e : Envelope) : Option Status := do
  let kind := e.payload.kind
  let some d := e.payload.decision | return .invalid .decisionMissing
  if !d.records kind e.parents then return .invalid .decisionMismatch
  if (kind = .delegate || kind = .revoke) && e.assertedTime.isSome then
    return .invalid .authorityTimeEdit
  let parent ← e.parents[0]?
  let cones ← e.parents.mapM (cone all)
  if kind = .resolve && cones.any fun c => (e.parents.filter c.contains).length > 1 then
    return .invalid .comparableParents
  let past := cones.foldl (· ∪ ·) ∅
  let view ← derive cr past
  let grant ← e.grant
  if !view.active.contains grant then return .invalid .parentAuthority
  if (← view.grants[grant]?).holder ≠ e.author then return .invalid .parentAuthority
  if ← cones.anyM (lapsed cr grant) then return .invalid .parentAuthority
  evaluatePayload cr all past view grant parent e

/-- What a known parent says against an event of `subject`. -/
def parentOffence (subject : Hash) (e : Envelope) (p : Hash) (parent : Envelope) : Option Reason :=
  let parentSubject := if parent.payload.kind = .genesis then some p else parent.subject
  if parentSubject ≠ some subject then some .wrongSubject
  else if parent.subjectKey ≠ e.subjectKey then some .subjectKeyChanged
  else none

/-- The offence of the first parent, in their order, that has one. -/
def firstOffence (all : Candidates) (subject : Hash) (e : Envelope) : Option (Option Reason) := do
  let parents ← e.parents.mapM fun p => do return (p, (← all[p]?).envelope)
  return parents.findSome? fun item => parentOffence subject e item.1 item.2

/-- The checks on an event's own header. -/
def headerOffence (e : Envelope) : Option Reason :=
  let kind := e.payload.kind
  if e.assertedTime.any fun t => t.precision.isEmpty then some .precision
  else if kind = .genesis then
    if e.subject.isNone && e.grant.isNone && e.parents.isEmpty && e.subjectKey.isSome then none
    else some .genesis
  else if e.parents.isEmpty || (kind ≠ .resolve && e.parents.length ≠ 1)
      || (kind = .resolve && e.parents.length < 2) then some .parents
  else if e.subject.isNone || e.subjectKey.isNone || e.grant.isNone then some .subjectHeader
  else none

/-- The checks of `parents` and `subject`, then those of `evaluateAuthority`. -/
def evaluateParents (cr : Crypto) (all : Candidates) (out : BTreeMap Status) (e : Envelope) :
    Option Status := do
  let missing := e.parents.filter fun p => !all.contains p
  if !missing.isEmpty then return .pending .parentMissing missing
  if e.parents.any fun p => !(all[p]?).any isSubject then return .invalid .wrongSubject
  let parentStates ← e.parents.mapM fun p => out[p]?
  if parentStates.any fun s => s.state = .invalid then return .invalid .ancestor
  let subject ← e.subject
  if let some reason := ← firstOffence all subject e then return .invalid reason
  if parentStates.any fun s => s.state = .pending then return .pending .ancestor []
  let some genesis := all[subject]? | return .pending .subjectMissing [subject]
  if genesis.envelope.payload.kind ≠ .genesis then return .invalid .wrongSubject
  evaluateAuthority cr all e

def evaluate (cr : Crypto) (id : Hash) (all : Candidates) (out : BTreeMap Status) :
    Option Status := do
  let e := (← all[id]?).envelope
  if let some reason := headerOffence e then return .invalid reason
  if e.payload.kind = .genesis then return .valid
  evaluateParents cr all out e

/-- When the dependency loop may evaluate a subject event. -/
def subjectReady (candidates : Candidates) (out : BTreeMap Status) (event : Signed) : Bool :=
  event.envelope.payload.kind = .genesis
    || (parentsOf event).any (fun p => !(candidates[p]?).any isSubject)
    || (parentsOf event).all out.contains

def settleStep (cr : Crypto) (candidates : Candidates) (out : BTreeMap Status)
    (item : Hash × Signed) : Option (BTreeMap Status) := do
  let (id, event) := item
  if out.contains id || !isSubject event then return out
  if subjectReady candidates out event then
    return out.insert id (← evaluate cr id candidates out)
  return out

def fillCycles (items : List (Hash × Signed)) (out : BTreeMap Status) : BTreeMap Status :=
  items.foldl (fun out item => out.insertIfNew item.1 (.invalid .cycle)) out

def subjectItems (candidates : Candidates) : List (Hash × Signed) :=
  candidates.toList.filter fun item => isSubject item.2

def classifyRound (cr : Crypto) (candidates : Candidates) (out : BTreeMap Status) :
    Option (BTreeMap Status) := do
  let next ← candidates.toList.foldlM (settleStep cr candidates) out
  return if next.size = out.size then fillCycles (subjectItems candidates) next else next

/-- The dependency loop over subject events; an event on a cycle is invalid. -/
def classifySubjects (cr : Crypto) (candidates : Candidates) : Option (BTreeMap Status) :=
  let subjects := (subjectItems candidates).length
  loopWhile (fun out => out.size < subjects) (classifyRound cr candidates) subjects ∅

end Clockchain.V1
