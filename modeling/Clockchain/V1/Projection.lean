import Clockchain.V1.Edges

/-!
# Projection

`project` of `projection.rs` and of `edges.rs`: subject frontiers, event rows,
edge heads and media.
-/

namespace Clockchain.V1
open Programs
set_option autoImplicit false

inductive ProjectionState where
  | head | superseded | branch | pending | invalid
  deriving Repr, DecidableEq

/-- A row's state, its reason and whether it is on a frontier. -/
structure RowState where
  state : ProjectionState
  reason : Reason
  frontier : Bool
  deriving Repr, DecidableEq

structure EventReading where
  event : Hash
  envelope : Envelope
  state : ProjectionState
  reason : Reason
  missing : List Hash
  frontier : Bool
  revision : Option Hash
  controllingRevokes : BTreeSet

inductive SubjectState where
  | resolved | contested | noCurrentBody
  deriving Repr, DecidableEq

def SubjectState.text : SubjectState → String
  | .resolved => "resolved"
  | .contested => "contested"
  | .noCurrentBody => "no_current_body"

structure SubjectReading where
  subject : Hash
  frontier : BTreeSet
  state : SubjectState
  /-- No surviving authority; distinct from having no current body. -/
  frozen : Bool

inductive Side where
  | source | target
  deriving Repr, DecidableEq

def Side.text : Side → String
  | .source => "source"
  | .target => "target"

/-- Why a pin is not current at its endpoint. -/
inductive Drift where
  | subjectContested | noCurrentBody | basisNotAncestor | revisionChanged
  | revisionCreatedSinceBasis
  deriving Repr, DecidableEq

def Drift.text : Drift → String
  | .subjectContested => "subject_contested"
  | .noCurrentBody => "no_current_body"
  | .basisNotAncestor => "basis_not_ancestor"
  | .revisionChanged => "revision_changed"
  | .revisionCreatedSinceBasis => "revision_created_since_basis"

inductive EdgeStatus where
  | current | stale | endpointContested | edgeConflict
  deriving Repr, DecidableEq

def EdgeStatus.text : EdgeStatus → String
  | .current => "current"
  | .stale => "stale"
  | .endpointContested => "endpoint_contested"
  | .edgeConflict => "edge_conflict"

inductive EdgeReason where
  | edgeConflict
  | endpoint (side : Side) (drift : Drift)
  deriving Repr, DecidableEq

def EdgeReason.text : EdgeReason → String
  | .edgeConflict => "edge_conflict"
  | .endpoint side drift => side.text ++ ":" ++ drift.text

structure EdgeReading where
  edge : Hash
  author : Hash
  relation : String
  evidence : List Hash
  /-- Maximal valid events of the author-only chain; more than one conflicts. -/
  heads : BTreeSet
  pins : List Pins
  history : BTreeSet
  status : EdgeStatus
  reasons : List EdgeReason

structure MediaReading where
  attestation : Hash
  author : Hash
  targetKind : TargetKind
  target : Hash
  revision : Option Hash
  body : Option Hash
  artifactKind : String
  artifact : Hash

structure Projection where
  rows : List EventReading
  revisions : List Revision
  subjects : List SubjectReading
  authority : Authority
  edges : List EdgeReading
  media : List MediaReading

abbrev RowStates := BTreeMap RowState

/-! ## Frontiers -/

/-- `ids.iter().flat_map(|id| ancestors[id] - {id})`. -/
def strictPast (ancestors : BTreeMap BTreeSet) (ids : List Hash) : Option BTreeSet :=
  ids.foldlM (fun past id => do return past ∪ (← ancestors[id]?).erase id) ∅

/-- The intersection over `ids`, empty when there is none. -/
def commonPast (ancestors : BTreeMap BTreeSet) (ids : List Hash) : Option BTreeSet := do
  match ← ids.mapM fun id => ancestors[id]? with
  | [] => return ∅
  | past :: pasts => return pasts.foldl (· ∩ ·) past

/-- The state of an event among the heads of its subject or edge. -/
def contention (heads common : BTreeSet) (conflict : Reason) (id : Hash) :
    ProjectionState × Reason :=
  if heads.size = 1 && heads.contains id then (.head, .none)
  else if heads.size > 1 && (heads.contains id || !common.contains id) then (.branch, conflict)
  else (.superseded, .none)

/-- The events of one subject. -/
def eventsOf (valid : Candidates) (subject : Hash) : BTreeSet :=
  .ofList ((valid.toList.filter fun item => subjectOf item.1 item.2 = subject).map Prod.fst)

def eligibleOf (authority : Authority) (ids : BTreeSet) : Option BTreeSet := do
  return .ofList (← ids.toList.filterM fun id => do
    return (← authority.effects[id]?).reason = .none)

/-- The maximal eligible events that no eligible event or effective revoke consumes. -/
def frontierOf (authority : Authority) (ancestors : BTreeMap BTreeSet) (ids : BTreeSet) :
    Option BTreeSet := do
  let eligible ← eligibleOf authority ids
  let consumed ← strictPast ancestors
    (eligible.toList ++ (authority.effectiveRevokes ∩ ids).toList)
  return eligible \ consumed

def rowState (authority : Authority) (frontier common : BTreeSet) (id : Hash) :
    Option RowState := do
  let reason := (← authority.effects[id]?).reason
  let (state, reason) :=
    if reason = .rootRelinquished then (ProjectionState.superseded, reason)
    else if reason ≠ .none then (.branch, reason)
    else contention frontier common .contested id
  return ⟨state, reason, frontier.contains id⟩

def subjectReading (authority : Authority) (subject : Hash) (frontier : BTreeSet) :
    Option SubjectReading := do
  let state := match frontier.size with
    | 0 => .noCurrentBody
    | 1 => .resolved
    | _ => .contested
  let alive ← authority.active.toList.anyM fun g => do
    return (← authority.grants[g]?).subject = subject
  return { subject, frontier, state, frozen := !alive }

def projectSubject (valid : Candidates) (authority : Authority) (ancestors : BTreeMap BTreeSet)
    (state : List SubjectReading × RowStates) (item : Hash × Signed) :
    Option (List SubjectReading × RowStates) := do
  let (subjects, states) := state
  let (subject, event) := item
  if event.envelope.payload.kind ≠ .genesis then return (subjects, states)
  let ids := eventsOf valid subject
  let frontier ← frontierOf authority ancestors ids
  let common ← commonPast ancestors frontier.toList
  let states ← ids.toList.foldlM (fun states id => do
    return states.insert id (← rowState authority frontier common id)) states
  return (subjects ++ [← subjectReading authority subject frontier], states)

/-! ## Edges -/

/-- Whether a valid event creates a revision after the first. -/
def creates (s : Subjects) (id : Hash) : Option Bool := do
  return match (← s.valid[id]?).envelope.payload with
    | .correction .. | .resolve (.mergedBody _) _ _ => true
    | _ => false

/-- Pin status against the current subject reading. -/
def endpoint (pin : Pin) (subjects : BTreeMap SubjectReading) (s : Subjects)
    (ancestors : BTreeMap BTreeSet) : Option (Option Drift) := do
  let reading ← subjects[pin.subject]?
  match reading.state with
  | .contested => return some .subjectContested
  | .noCurrentBody => return some .noCurrentBody
  | .resolved =>
    let head ← reading.frontier.toList.head?
    let past ← ancestors[head]?
    if !past.contains pin.basis then return some .basisNotAncestor
    if (← s.selected[head]?) ≠ pin.revision then return some .revisionChanged
    let created ← (past \ (← ancestors[pin.basis]?)).toList.anyM (creates s)
    return if created then some .revisionCreatedSinceBasis else none

def coneKeys (all : Candidates) (head : Hash) : Option BTreeSet := do
  return .ofList (← cone all head).keys

/-- An event with its reflexive past. -/
def pastOf (all : Candidates) (id : Hash) : Option (Hash × BTreeSet) := do
  return (id, ← coneKeys all id)

/-- The valid events of an edge. -/
def historyOf (candidates : Candidates) (admission : BTreeMap Status) (edge : Hash) :
    Option BTreeSet := do
  let kept ← candidates.toList.filterM fun item =>
    (do return (← admission[item.1]?).state = .valid) <&&> some (edgeOf item.1 item.2 = some edge)
  return .ofList (kept.map Prod.fst)

def edgeDrifts (pins : Pins) (readings : BTreeMap SubjectReading) (s : Subjects)
    (ancestors : BTreeMap BTreeSet) : Option (List (Side × Drift)) := do
  let source ← endpoint pins.source readings s ancestors
  let target ← endpoint pins.target readings s ancestors
  return source.toList.map (fun d => (.source, d)) ++ target.toList.map (fun d => (.target, d))

def edgeStatus (found : List (Side × Drift)) : EdgeStatus :=
  if found.isEmpty then .current
  else if found.any fun d => d.2 = .subjectContested then .endpointContested
  else .stale

def edgeRow (heads common : BTreeSet) (id : Hash) : RowState :=
  let (state, reason) := contention heads common .edgeConflict id
  ⟨state, reason, heads.contains id⟩

/-- The pins at a head. -/
def pinsAt (candidates : Candidates) (head : Hash) : Option Pins := do
  pinsOf (← candidates[head]?)

/-- The status of an edge and its reasons, from the pins at its first head. -/
def edgeStanding (heads : BTreeSet) (pins : List Pins) (s : Subjects)
    (readings : BTreeMap SubjectReading) (ancestors : BTreeMap BTreeSet) :
    Option (EdgeStatus × List EdgeReason) :=
  if heads.size > 1 then some (.edgeConflict, [.edgeConflict])
  else do
    let found ← edgeDrifts (← pins[0]?) readings s ancestors
    return (edgeStatus found, found.map fun d => .endpoint d.1 d.2)

def projectEdge (candidates : Candidates) (admission : BTreeMap Status) (s : Subjects)
    (readings : BTreeMap SubjectReading) (ancestors : BTreeMap BTreeSet)
    (state : List EdgeReading × RowStates) (item : Hash × Signed) :
    Option (List EdgeReading × RowStates) := do
  let (edges, rows) := state
  let (id, event) := item
  let .edgeAssert relation _ decision := event.envelope.payload | return (edges, rows)
  if (← admission[id]?).state ≠ .valid then return (edges, rows)
  let history ← historyOf candidates admission id
  let cones : BTreeMap BTreeSet :=
    .ofList (← history.toList.mapM (pastOf candidates))
  let consumed ← strictPast cones history.toList
  let heads := history \ consumed
  let common ← commonPast cones heads.toList
  let rows := history.toList.foldl (fun rows c => rows.insert c (edgeRow heads common c)) rows
  let pins ← heads.toList.mapM (pinsAt candidates)
  let (status, reasons) ← edgeStanding heads pins s readings ancestors
  let reading : EdgeReading :=
    { edge := id, author := event.envelope.author, relation := relation,
      evidence := decision.evidence, heads, pins, history, status, reasons }
  return (edges ++ [reading], rows)

def mediaRevision (cr : Crypto) (s : Subjects) (targetKind : TargetKind) (target : Hash) :
    Option Hash :=
  match targetKind with
  | .revision => some target
  | .event => do
    let r := revisionId cr (subjectOf target (← s.valid[target]?)) target
    if s.revisions.contains r then some r else none

/-- The body an attested revision binds. -/
def mediaBody (s : Subjects) : Option Hash → Option (Option Hash)
  | none => some none
  | some r => do return some (← s.revisions[r]?).body

def projectMedia (cr : Crypto) (admission : BTreeMap Status) (s : Subjects)
    (state : List MediaReading × RowStates) (item : Hash × Signed) :
    Option (List MediaReading × RowStates) := do
  let (media, rows) := state
  let (id, event) := item
  let .attestation targetKind target artifactKind artifact := event.envelope.payload
    | return (media, rows)
  if (← admission[id]?).state ≠ .valid then return (media, rows)
  let rows := rows.insert id ⟨.head, .none, false⟩
  let revision := mediaRevision cr s targetKind target
  let body ← mediaBody s revision
  let reading : MediaReading :=
    { attestation := id, author := event.envelope.author, targetKind, target, revision, body,
      artifactKind, artifact }
  return (media ++ [reading], rows)

/-- `edges::project`. -/
def projectEdges (cr : Crypto) (candidates : Candidates) (admission : BTreeMap Status)
    (subjects : List SubjectReading) (ancestors : BTreeMap BTreeSet) :
    Option (List EdgeReading × List MediaReading × RowStates) := do
  let s ← Subjects.new cr candidates admission
  let readings : BTreeMap SubjectReading := .ofList (subjects.map fun r => (r.subject, r))
  let (edges, rows) ← candidates.toList.foldlM
    (projectEdge candidates admission s readings ancestors) ([], ∅)
  let (media, rows) ← candidates.toList.foldlM (projectMedia cr admission s) ([], rows)
  return (edges, media, rows)

/-! ## Rows -/

def eventReading (admission : BTreeMap Status) (authority : Authority) (selected : BTreeMap Hash)
    (states : RowStates) (item : Hash × Signed) : Option EventReading := do
  let (id, event) := item
  let s ← admission[id]?
  let row := states[id]?.getD
    ⟨if s.state = .invalid then .invalid else .pending, s.reason, false⟩
  return {
    event := id
    envelope := event.envelope
    state := row.state
    reason := row.reason
    missing := s.missing
    frontier := row.frontier
    revision := selected[id]?
    controllingRevokes := (authority.effects[id]?.map Effect.controllingRevokes).getD ∅ }

def project (cr : Crypto) (candidates : Candidates) : Option Projection := do
  let { admission, authority } ← analyze cr candidates
  let valid ← admitted candidates admission
  let selected ← selections cr valid
  let ancestors : BTreeMap BTreeSet :=
    .ofList (← valid.keys.mapM (pastOf valid))
  let (subjects, states) ← valid.toList.foldlM (projectSubject valid authority ancestors) ([], ∅)
  let (edges, media, edgeStates) ← projectEdges cr candidates admission subjects ancestors
  let rows ← candidates.toList.mapM
    (eventReading admission authority selected (states ∪ edgeStates))
  let revisions := (V1.revisions cr valid).toList.map Prod.snd
  return { rows, revisions, subjects, authority, edges, media }

end Clockchain.V1
