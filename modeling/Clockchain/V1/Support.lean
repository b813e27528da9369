import Clockchain.Search
import Clockchain.V1.Projection
import Mathlib.Data.List.Destutter

/-!
# Support graph

`support_graph` of `edges.rs`: the neighbors that current, trusted, non-dispute edges
give, and the excluded edges with every reason.
-/

namespace Clockchain.V1
open Programs
set_option autoImplicit false

structure Neighbor where
  subject : Hash
  edge : Hash
  relation : String
  deriving Repr, DecidableEq

/-- The derived order: subject, then edge, then relation. -/
def Neighbor.cmp : Neighbor → Neighbor → Ordering :=
  compareLex (compareOn subject) (compareLex (compareOn edge) (compareOn relation))

instance : Std.TransCmp Neighbor.cmp :=
  inferInstanceAs (Std.TransCmp (compareLex _ (compareLex _ _)))

abbrev Neighbors := BTreeMap (Std.ExtTreeSet Neighbor Neighbor.cmp)

/-- Whether the current revision of a subject is visible at an `as_of`. -/
inductive Visibility where
  | subjectUnknown | subject (state : SubjectState) | visible | assertedTimeUnknown | afterAsOf
  deriving Repr, DecidableEq

def Visibility.text : Visibility → String
  | .subjectUnknown => "subject_unknown"
  | .subject state => state.text
  | .visible => "visible"
  | .assertedTimeUnknown => "asserted_time_unknown"
  | .afterAsOf => "after_as_of"

/-- Why an edge is withheld from support. -/
inductive ExclusionReason where
  | status (status : EdgeStatus)
  | edge (reason : EdgeReason)
  | disputesNotSupport
  | untrustedEdgeAuthor
  | untrustedOrigin (side : Side)
  | pendingRow (reason : Reason)
  | invalidRow (reason : Reason)
  | asOf (reason : Visibility)
  deriving Repr, DecidableEq

def ExclusionReason.text : ExclusionReason → String
  | .status standing => standing.text
  | .edge reason => reason.text
  | .disputesNotSupport => "disputes_not_support"
  | .untrustedEdgeAuthor => "untrusted_edge_author"
  | .untrustedOrigin side => side.text ++ ":untrusted_origin"
  | .pendingRow reason => "pending:" ++ reason.text
  | .invalidRow reason => "invalid:" ++ reason.text
  | .asOf reason => "as_of:" ++ reason.text

/-- An edge withheld from support, with every reason; not a claim of falsity. -/
structure Exclusion where
  edge : Hash
  /-- The assertion itself, or a pending or invalid reaffirmation. -/
  event : Hash
  source : Hash
  target : Hash
  reasons : List ExclusionReason
  deriving Repr, DecidableEq

/-- A subject's state, that its creator is outside the curator set, or why its current
revision is not visible. -/
inductive SupportState where
  | subject (state : SubjectState)
  | untrustedOrigin
  | hidden (reason : Visibility)
  deriving Repr, DecidableEq

def SupportState.text : SupportState → String
  | .subject state => state.text
  | .untrustedOrigin => "untrusted_origin"
  | .hidden reason => reason.text

structure SupportGraph where
  neighbors : Neighbors
  excluded : List Exclusion
  subjects : BTreeMap SupportState

def supportState (authors : BTreeMap Hash) (curators : BTreeSet) (r : SubjectReading) :
    Option (Hash × SupportState) := do
  if curators.contains (← authors[r.subject]?) then return (r.subject, .subject r.state)
  else return (r.subject, .untrustedOrigin)

def untrusted (authors : BTreeMap Hash) (curators : BTreeSet) (side : Side) (subject : Hash) :
    Option (List ExclusionReason) := do
  if curators.contains (← authors[subject]?) then return []
  else return [.untrustedOrigin side]

/-- What keeps an edge that is not current out of support. -/
def statusReasons (e : EdgeReading) : List ExclusionReason :=
  if e.status ≠ .current then
    .status e.status :: (e.reasons.filter fun r => r.text ≠ e.status.text).map .edge
  else []

def addNeighbor (neighbors : Neighbors) (at' : Hash) (n : Neighbor) : Neighbors :=
  neighbors.insert at' ((neighbors[at']?.getD ∅).insert n)

def supportEdge (authors : BTreeMap Hash) (curators : BTreeSet)
    (graph : Neighbors × List Exclusion) (e : EdgeReading) :
    Option (Neighbors × List Exclusion) := do
  let (neighbors, excluded) := graph
  let pins ← e.pins[0]?
  let source := pins.source.subject
  let target := pins.target.subject
  let reasons := statusReasons e
    ++ (if e.relation = "disputes" then [.disputesNotSupport] else [])
    ++ (if curators.contains e.author then [] else [.untrustedEdgeAuthor])
    ++ (← untrusted authors curators .source source)
    ++ (← untrusted authors curators .target target)
  if reasons.isEmpty then
    let neighbors := addNeighbor neighbors source ⟨target, e.edge, e.relation⟩
    return (addNeighbor neighbors target ⟨source, e.edge, e.relation⟩, excluded)
  return (neighbors, excluded ++ [⟨e.edge, e.edge, source, target, reasons⟩])

/-- The exclusion of a pending or invalid edge event. -/
def rowExclusion (r : EventReading) : Option Exclusion := do
  let reason ← match r.state with
    | .pending => some (ExclusionReason.pendingRow r.reason)
    | .invalid => some (ExclusionReason.invalidRow r.reason)
    | _ => none
  let (edge, pins) ← match r.envelope.payload with
    | .edgeAssert _ pins _ => some (r.event, pins)
    | .edgeReaffirm edge _ new _ => some (edge, new)
    | _ => none
  return ⟨edge, r.event, pins.source.subject, pins.target.subject, [reason]⟩

def Exclusion.le (a b : Exclusion) : Bool := a.edge < b.edge || a.edge = b.edge && a.event ≤ b.event

def supportGraph (p : Projection) (curators : BTreeSet) : Option SupportGraph := do
  let authors : BTreeMap Hash := .ofList (p.rows.map fun r => (r.event, r.envelope.author))
  let subjects ← p.subjects.mapM (supportState authors curators)
  let (neighbors, excluded) ← p.edges.foldlM (supportEdge authors curators) (∅, [])
  let excluded := (excluded ++ p.rows.filterMap rowExclusion).mergeSort Exclusion.le
  return { neighbors, excluded, subjects := .ofList subjects }

/-! ## Queries -/

inductive SupportCode where
  | subjectUnknown
  | subject (state : SupportState)
  | sameSubject
  | noCurrentSupportPath
  | excludedEdge (reason : ExclusionReason)
  deriving Repr, DecidableEq

def SupportCode.text : SupportCode → String
  | .subjectUnknown => "subject_unknown"
  | .subject (.subject .contested) => "subject_contested"
  | .subject (.subject .noCurrentBody) => "subject_no_current_body"
  | .subject other => other.text
  | .sameSubject => "same_subject"
  | .noCurrentSupportPath => "no_current_support_path"
  | .excludedEdge reason => "excluded_edge:" ++ reason.text

structure SupportReason where
  code : SupportCode
  subject : Option Hash
  edge : Option Hash
  deriving Repr, DecidableEq

/-- Deliberately two-valued; excluded edges at either queried subject stay visible in both. -/
inductive Support where
  | supported (path : List Hash) (excluded : List SupportReason)
  | unsupported (reasons : List SupportReason)
  deriving Repr, DecidableEq

namespace SupportGraph

/-- The neighbor read: excluded edges are absent, not merely labeled. -/
def neighborsAt (g : SupportGraph) (subject : Hash) : List Neighbor :=
  (g.neighbors[subject]?.getD ∅).toList

/-- Why a queried subject cannot be supported. -/
def objection (g : SupportGraph) (subject : Hash) : Option SupportReason :=
  match g.subjects[subject]? with
  | none => some ⟨.subjectUnknown, some subject, none⟩
  | some (.subject .resolved) => none
  | some other => some ⟨.subject other, some subject, none⟩

/-- The exclusions at the queried subjects. -/
def excludedAt (g : SupportGraph) (source target : Hash) : List SupportReason :=
  (g.excluded.filter fun x => [source, target].any fun s => s = x.source || s = x.target).flatMap
    fun x => x.reasons.map fun r => ⟨.excludedEdge r, none, some x.event⟩

def next (g : SupportGraph) (subject : Hash) : List (Hash × Hash) :=
  (g.neighborsAt subject).map fun n => (n.subject, n.edge)

/-- `query`: a shortest path of at most `maxHops` edges. -/
def query (g : SupportGraph) (source target : Hash) (maxHops : Nat) : Option Support := do
  let reasons := [source, target].filterMap g.objection
  let reasons := if reasons.isEmpty && source = target then
    [⟨.sameSubject, some source, none⟩] else reasons
  let excluded := g.excludedAt source target
  if reasons.isEmpty then
    match Search.search g.next target maxHops
        ((∅ : BTreeMap (Option (Hash × Hash))).insert source none) [source] with
    | some previous =>
      return .supported (← Search.trace previous maxHops target []).reverse excluded
    | none => return .unsupported (⟨.noCurrentSupportPath, none, none⟩ :: excluded)
  return .unsupported (reasons ++ excluded)

end SupportGraph

/-! ## Reads at an `as_of` -/

/-- `Snapshot::visibility`: it filters what is visible after the whole fold, and never
changes authority, frontier or precedence. -/
def visibility (p : Projection) (subject : Hash) (asOf : Option Hash) :
    Option (Visibility × Option Revision) := do
  let some s := p.subjects.find? fun s => s.subject = subject | return (.subjectUnknown, none)
  if s.state ≠ .resolved then return (.subject s.state, none)
  let head ← s.frontier.toList.head?
  let id := (← p.rows.find? fun r => r.event = head).revision
  let revision := p.revisions.find? fun r => some r.id = id
  let state := match asOf, revision.bind Revision.assertedTime with
    | none, _ => .visible
    | some _, none => .assertedTimeUnknown
    | some q, some t => if t.coordinate > q then .afterAsOf else .visible
  return (state, revision)

/-- Withholds a neighbor of a hidden subject, from the other end too. -/
def hideEdge (p : Projection) (reason : Visibility) (g : SupportGraph) (n : Neighbor) :
    Option SupportGraph := do
  let e ← p.edges.find? fun e => e.edge = n.edge
  let pins ← e.pins[0]?
  return { g with
    neighbors := g.neighbors.modify n.subject fun ms => ms.filter fun m => m.edge ≠ n.edge
    excluded := g.excluded ++ [⟨n.edge, n.edge, pins.source.subject, pins.target.subject,
      [.asOf reason]⟩] }

def hideSubject (p : Projection) (g : SupportGraph) (item : Hash × Visibility) :
    Option SupportGraph :=
  let (subject, reason) := item
  (g.neighborsAt subject).foldlM (hideEdge p reason) { g with
    subjects := g.subjects.insert subject (.hidden reason)
    neighbors := g.neighbors.erase subject }

/-- The resolved subjects whose current revision is not visible. -/
def hiddenAt (p : Projection) (g : SupportGraph) (asOf : Option Hash) :
    Option (List (Hash × Visibility)) := do
  let resolved := g.subjects.toList.filter fun item => item.2 = .subject .resolved
  let seen ← resolved.mapM fun item => do return (item.1, (← visibility p item.1 asOf).1)
  return seen.filter fun item => item.2 ≠ .visible

/-- `Snapshot::support`: the support graph at `as_of`. -/
def supportAt (p : Projection) (curators : BTreeSet) (asOf : Option Hash) :
    Option SupportGraph := do
  let g ← supportGraph p curators
  let g ← (← hiddenAt p g asOf).foldlM (hideSubject p) g
  return { g with
    neighbors := g.neighbors.filter fun _ ns => !ns.isEmpty
    excluded := (g.excluded.mergeSort Exclusion.le).destutter (· ≠ ·) }

/-- `Snapshot::verdict`. -/
def verdict (p : Projection) (curators : BTreeSet) (maxHops : Nat) (source target : Hash)
    (asOf : Option Hash) : Option Support := do
  (← supportAt p curators asOf).query source target maxHops

end Clockchain.V1
