import Clockchain.V1.Admission

/-!
# Edges and attestations

`edges.rs` up to `classify`: pins, reaffirmation chains and media. They read the
classified subject events and never change them.
-/

namespace Clockchain.V1
open Programs
set_option autoImplicit false

/-- Governed v1 relation names. -/
def relations : List String :=
  ["causation", "co_occurrence", "disputes", "influence", "participation"]

/-- Valid subject events with their selected revisions; edges only read these. -/
structure Subjects where
  valid : Candidates
  selected : BTreeMap Hash
  revisions : BTreeMap Revision

/-- The events `out` calls valid among the subject events. -/
def validSubjects (candidates : Candidates) (out : BTreeMap Status) : Option Candidates := do
  let kept ← candidates.toList.filterM fun item =>
    if isSubject item.2 then do return (← out[item.1]?).state = .valid else some false
  return .ofList kept

def Subjects.new (cr : Crypto) (candidates : Candidates) (out : BTreeMap Status) :
    Option Subjects := do
  let valid ← validSubjects candidates out
  return { valid, selected := ← selections cr valid, revisions := V1.revisions cr valid }

def pinsOf (event : Signed) : Option Pins :=
  match event.envelope.payload with
  | .edgeAssert _ pins _ => some pins
  | .edgeReaffirm _ _ new _ => some new
  | _ => none

def edgeOf (id : Hash) (event : Signed) : Option Hash :=
  match event.envelope.payload with
  | .edgeAssert .. => some id
  | .edgeReaffirm edge .. => some edge
  | _ => none

/-- `basis` must be a valid event of `subject` that selects exactly the pinned
revision, and that revision must bind exactly the pinned body. -/
def checkPin (pin : Pin) (all : Candidates) (out : BTreeMap Status) (s : Subjects) :
    Option Status := do
  let missing := ([pin.subject, pin.basis].filter fun r => !all.contains r).dedup
  if !missing.isEmpty then return .pending .pinMissing missing
  let basis ← all[pin.basis]?
  if (← all[pin.subject]?).envelope.payload.kind ≠ .genesis || !isSubject basis
      || subjectOf pin.basis basis ≠ pin.subject then
    return .invalid .pinSubject
  match (← out[pin.basis]?).state with
  | .invalid => return .invalid .pinInvalid
  | .pending => return .pending .pinPending []
  | .valid =>
    if (← s.selected[pin.basis]?) ≠ pin.revision then return .invalid .pinRevision
    if (← s.revisions[pin.revision]?).body ≠ pin.body then return .invalid .pinBody
    return .valid

/-- `sort` then `dedup`. -/
def sortedSet (refs : List Hash) : List Hash := (Std.ExtTreeSet.ofList refs compare).toList

def checkPins (pins : Pins) (all : Candidates) (out : BTreeMap Status) (s : Subjects) :
    Option Status := do
  let source ← checkPin pins.source all out s
  let target ← checkPin pins.target all out s
  if source.state = .invalid then return source
  if target.state = .invalid then return target
  let missing := sortedSet (source.missing ++ target.missing)
  if !missing.isEmpty then return .pending .pinMissing missing
  if source.state = .pending then return source
  if target.state = .pending then return target
  return .valid

def evaluateAssert (all : Candidates) (out : BTreeMap Status) (s : Subjects) (e : Envelope)
    (relation : String) (pins : Pins) (decision : Decision) : Option Status := do
  if !e.parents.isEmpty then return .invalid .parents
  if !decision.records .edgeAssert e.parents || decision.old ≠ .none
      || decision.new ≠ .pins pins then
    return .invalid .decisionMismatch
  if !relations.contains relation then return .invalid .relation
  let status ← checkPins pins all out s
  if status.state ≠ .valid then return status
  if relation = "disputes" then
    if pins.source.subject = pins.target.subject then return .invalid .disputeCounterclaim
    if (← all[pins.source.subject]?).envelope.author ≠ e.author then
      return .invalid .disputeCounterclaim
  return .valid

/-- Whether one of the parents descends from another. -/
def comparable (all : Candidates) (parents : List Hash) : Option Bool :=
  some (parents.length > 1 : Bool) <&&> parents.anyM fun p => do
    let cone ← cone all p
    return (parents.filter cone.contains).length > 1

/-- Whether `o` misquotes the pins of its parent. -/
def ParentPins.misquoted (all : Candidates) (o : ParentPins) : Option Bool := do
  return o.pins ≠ (← pinsOf (← all[o.parent]?))

/-- The checks of a reaffirmation once its whole history is valid. -/
def evaluateReaffirmed (all : Candidates) (out : BTreeMap Status) (s : Subjects) (e : Envelope)
    (base : Signed) (old : List ParentPins) (new : Pins) (decision : Decision) :
    Option Status := do
  if ← comparable all e.parents then return .invalid .comparableParents
  let basePins ← pinsOf base
  if new.source.subject ≠ basePins.source.subject
      || new.target.subject ≠ basePins.target.subject then
    return .invalid .endpointChanged
  if old.map ParentPins.parent ≠ e.parents then return .invalid .decisionMismatch
  if ← old.anyM (ParentPins.misquoted all) then return .invalid .decisionMismatch
  if !decision.records .edgeReaffirm e.parents || decision.old ≠ .parentPins old
      || decision.new ≠ .pins new then
    return .invalid .decisionMismatch
  checkPins new all out s

/-- Whether a parent is no event of the edge. -/
def elsewhere (all : Candidates) (edge p : Hash) : Option Bool := do
  return edgeOf p (← all[p]?) ≠ some edge

def evaluateReaffirm (all : Candidates) (out : BTreeMap Status) (s : Subjects) (e : Envelope)
    (edge : Hash) (old : List ParentPins) (new : Pins) (decision : Decision) :
    Option Status := do
  if e.parents.isEmpty then return .invalid .parents
  let history := e.parents ++ [edge]
  let missing := sortedSet (history.filter fun r => !all.contains r)
  if !missing.isEmpty then return .pending .parentMissing missing
  let base ← all[edge]?
  if base.envelope.payload.kind ≠ .edgeAssert then return .invalid .wrongEdge
  if ← e.parents.anyM (elsewhere all edge) then return .invalid .wrongEdge
  let states ← history.mapM fun p => out[p]?
  if states.any fun s => s.state = .invalid then return .invalid .ancestor
  -- Authority is the immutable original author, not endpoint ownership.
  if e.author ≠ base.envelope.author then return .invalid .edgeAuthor
  if states.any fun s => s.state = .pending then return .pending .ancestor []
  evaluateReaffirmed all out s e base old new decision

def evaluateAttestation (all : Candidates) (out : BTreeMap Status) (s : Subjects) (e : Envelope)
    (targetKind : TargetKind) (target : Hash) (artifactKind : String) : Status :=
  if !e.parents.isEmpty then .invalid .parents
  else if artifactKind.isEmpty then .invalid .artifactKind
  else match targetKind with
    | .revision =>
      if s.revisions.contains target then .valid else .pending .revisionMissing [target]
    | .event =>
      match all[target]?, out[target]? with
      | none, _ => .pending .targetMissing [target]
      | some t, status =>
        if t.envelope.payload.kind = .attestation then .invalid .attestationTarget
        else match status.map Status.state with
          | some .invalid => .invalid .targetInvalid
          | some .pending => .pending .targetPending []
          | _ => .valid

/-- `edges::evaluate`; a subject event here would be `unreachable!`. -/
def evaluateEdge (id : Hash) (all : Candidates) (out : BTreeMap Status) (s : Subjects) :
    Option Status := do
  let e := (← all[id]?).envelope
  if e.subject.isSome || e.subjectKey.isSome || e.grant.isSome || e.assertedTime.isSome then
    return .invalid .nonSubjectHeader
  match e.payload with
  | .edgeAssert relation pins decision => evaluateAssert all out s e relation pins decision
  | .edgeReaffirm edge old new decision => evaluateReaffirm all out s e edge old new decision
  | .attestation targetKind target artifactKind _ =>
    return evaluateAttestation all out s e targetKind target artifactKind
  | _ => none

/-- The events an edge event waits for. -/
def edgeDeps (event : Signed) : List Hash :=
  match event.envelope.payload with
  | .edgeReaffirm edge .. => parentsOf event ++ [edge]
  | _ => parentsOf event

def isAttestation (event : Signed) : Bool := event.envelope.payload.kind = .attestation

def edgeReady (candidates : Candidates) (out : BTreeMap Status) (event : Signed) : Bool :=
  (edgeDeps event).all fun d => out.contains d || (candidates[d]?).all isAttestation

def edgeStep (candidates : Candidates) (s : Subjects) (state : BTreeMap Status × Bool)
    (item : Hash × Signed) : Option (BTreeMap Status × Bool) := do
  let (out, changed) := state
  let (id, event) := item
  if out.contains id then return (out, changed)
  if edgeReady candidates out event then
    return (out.insert id (← evaluateEdge id candidates out s), true)
  return (out, changed)

/-- The non-subject events, without (`false`) or with only (`true`) the attestations. -/
def edgeItems (candidates : Candidates) (media : Bool) : List (Hash × Signed) :=
  candidates.toList.filter fun item => !isSubject item.2 && isAttestation item.2 = media

def classifyPass (candidates : Candidates) (s : Subjects) (out : BTreeMap Status)
    (media : Bool) : Option (BTreeMap Status) := do
  let items := edgeItems candidates media
  let (out, _) ← loopWhile (fun state => state.2)
    (fun state => items.foldlM (edgeStep candidates s) (state.1, false)) (items.length + 1)
    (out, true)
  return fillCycles items out

/-- `edges::classify`: edges after subjects, attestations after edges. -/
def classifyEdges (cr : Crypto) (candidates : Candidates) (out : BTreeMap Status) :
    Option (BTreeMap Status) := do
  let subjects ← Subjects.new cr candidates out
  [false, true].foldlM (classifyPass candidates subjects) out

/-- Branch-local admission of a candidate set. -/
def classify (cr : Crypto) (candidates : Candidates) : Option (BTreeMap Status) := do
  classifyEdges cr candidates (← classifySubjects cr candidates)

/-- Branch validity and authority effects are separate; neither selects a body head. -/
structure Analysis where
  admission : BTreeMap Status
  authority : Authority

/-- The valid subject events, as `analyze` and `project` collect them. -/
def admitted (candidates : Candidates) (admission : BTreeMap Status) : Option Candidates := do
  let kept ← candidates.toList.filterM fun item => do
    return (← admission[item.1]?).state = .valid && isSubject item.2
  return .ofList kept

def analyze (cr : Crypto) (candidates : Candidates) : Option Analysis := do
  let admission ← classify cr candidates
  let valid ← admitted candidates admission
  return { admission, authority := ← derive cr valid }

end Clockchain.V1
