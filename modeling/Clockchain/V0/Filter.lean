import Clockchain.V0.View

/-!
# The feasibility filter

`reach.rs` and `filter.rs` of `cc-filter`: bounded reachability over the neighbour relation
of a view, and the product of indicators that judges a query.
-/

namespace Clockchain.V0
open V1 (Hash BTreeMap BTreeSet)
set_option autoImplicit false

abbrev EntitySet := Std.ExtTreeSet EntityId i64Cmp

/-! ## Verdicts -/

structure WalkStep where
  entity : EntityId
  via : Hash
  deriving Repr, DecidableEq

structure PhiSupport where
  hops : Nat
  witness : List WalkStep
  deriving Repr, DecidableEq

def PhiSupport.reflexive : PhiSupport := ⟨0, []⟩

inductive AbsenceWitness where
  | noRecordedStart (entity : EntityId)
  | beforeRecordedStart (entity : EntityId) (start : Tick)
  | claimTypeUnrecorded (claim : ClaimType)
  | noEvidencedWalk (source target : EntityId) (within : Nat)
  deriving Repr, DecidableEq

inductive ContraryWitness where
  | afterRecordedCessation (entity : EntityId) (ceased : Tick) (derivedFrom : List Hash)
  | claimTypeOutsideValidity (claim : ClaimType) (bandEnd : Tick) (derivedFrom : List Hash)
  deriving Repr, DecidableEq

inductive Verdict where
  | supported (support : PhiSupport)
  | unsupported (because : List AbsenceWitness)
  | contradicted (by_ : ContraryWitness)
  deriving Repr, DecidableEq

inductive VerdictKind where
  | supported | unsupported | contradicted
  deriving Repr, DecidableEq

def Verdict.kind : Verdict → VerdictKind
  | .supported _ => .supported
  | .unsupported _ => .unsupported
  | .contradicted _ => .contradicted

def Verdict.support : Verdict → Option PhiSupport
  | .supported support => some support
  | _ => none

structure Judgment where
  verdict : Verdict
  filterVersion : Hash
  corpusDigest : Hash
  deriving Repr, DecidableEq

structure ConsensusProjection where
  kind : VerdictKind
  support : Option PhiSupport
  filterVersion : Hash
  deriving Repr, DecidableEq

def Judgment.consensusProjection (j : Judgment) : ConsensusProjection :=
  ⟨j.verdict.kind, j.verdict.support, j.filterVersion⟩

structure Certificate where
  judgment : Judgment
  consulted : BTreeSet
  absences : List AbsenceWitness
  contradictions : List ContraryWitness

inductive QueryError where
  | hopBoundExceedsGoverned (requested governed : Nat)
  | queryTimeIsSentinel
  deriving Repr, DecidableEq

/-- `panicked` is the `expect` of `combine`. -/
inductive FilterError where
  | view (e : ViewError)
  | malformed (e : QueryError)
  | panicked
  deriving Repr, DecidableEq

/-! ## Reachability -/

/-- `sort_unstable` and `dedup`. -/
def canonicalEdges (edges : List Edge) : List Edge := (Edge.sort edges).dedup

/-- The labels of a search and the entities labelled last. -/
structure Labels where
  dist : EntityMap Nat
  frontier : EntitySet

def Labels.start (entity : EntityId) : Labels := ⟨(∅ : EntityMap Nat).insert entity 0, {entity}⟩

/-- Only a vacant entity is labelled. -/
def Labels.label (depth : Nat) (labels : Labels) (edge : Edge) : Labels :=
  if labels.dist.contains edge.other then labels
  else ⟨labels.dist.insert edge.other depth, labels.frontier.insert edge.other⟩

/-- One level of the search. -/
def expand (v : CorpusView) (labels : Labels) (depth : Nat) (asOf : Tick) :
    Except ViewError Labels := do
  let level := labels.frontier.toList
  let fetched ← v.neighborsMany level asOf
  return level.foldl
    (fun found e => (canonicalEdges (fetched.getD e [])).foldl (.label depth) found)
    { labels with frontier := ∅ }

structure Search where
  forward : Labels
  backward : Labels
  depthF : Nat
  depthB : Nat

def Search.start (source target : EntityId) : Search := ⟨.start source, .start target, 0, 0⟩

/-- The side with the smaller frontier goes on. -/
def Search.expand (v : CorpusView) (s : Search) (asOf : Tick) : Except ViewError Search := do
  if s.forward.frontier.size ≤ s.backward.frontier.size then
    let forward ← V0.expand v s.forward (s.depthF + 1) asOf
    return { s with forward, depthF := s.depthF + 1 }
  else
    let backward ← V0.expand v s.backward (s.depthB + 1) asOf
    return { s with backward, depthB := s.depthB + 1 }

/-- The least sum over the entities both sides have labelled. -/
def Search.met (s : Search) : Option Nat :=
  (s.forward.dist.toList.filterMap fun p => s.backward.dist[p.1]?.map (p.2 + ·)).min?

/-- The loop of `shortest_distance`; a round takes one of `kHops - (depthF + depthB)`. -/
def Search.run (v : CorpusView) (kHops : Nat) (asOf : Tick) :
    Nat → Search → Except ViewError (Option Nat)
  | 0, _ => .ok none
  | rounds + 1, s =>
    if s.forward.frontier.isEmpty || s.backward.frontier.isEmpty then .ok none
    else do
      let s ← s.expand v asOf
      match s.met with
      | some d => return if d ≤ kHops then some d else none
      | none => Search.run v kHops asOf rounds s

def shortestDistance (v : CorpusView) (source target : EntityId) (kHops : Nat) (asOf : Tick) :
    Except ViewError (Option Nat) :=
  Search.run v kHops asOf kHops (.start source target)

/-- `backward_labels`, from `level` on. -/
def backwardLabels (v : CorpusView) (asOf : Tick) : Nat → Nat → Labels → Except ViewError Labels
  | 0, _, labels => .ok labels
  | rounds + 1, level, labels =>
    if labels.frontier.isEmpty then .ok labels
    else do
      let labels ← expand v labels level asOf
      backwardLabels v asOf rounds (level + 1) labels

def inconsistentLabels : ViewError :=
  .decode "backward distance labels are inconsistent with the neighbour relation"

/-- `greedy_lex_min_walk`, with `remaining` steps to go. -/
def greedyWalk (v : CorpusView) (back : EntityMap Nat) (asOf : Tick) :
    Nat → EntityId → Except ViewError (List WalkStep)
  | 0, _ => .ok []
  | remaining + 1, cur => do
    let edges ← v.neighbors cur asOf
    match (canonicalEdges edges).find? fun e => back[e.other]? = some remaining with
    | none => throw inconsistentLabels
    | some step =>
      let steps ← greedyWalk v back asOf remaining step.other
      return ⟨step.other, step.via⟩ :: steps

inductive Reachability where
  | within (support : PhiSupport)
  | none (witness : AbsenceWitness)
  deriving Repr, DecidableEq

def knownK (v : CorpusView) (source target : EntityId) (k : Nat) (asOf : Tick) :
    Except ViewError Reachability := do
  if source = target then return .within .reflexive
  let unreachable := Reachability.none (.noEvidencedWalk source target k)
  if k = 0 then return unreachable
  match ← shortestDistance v source target k asOf with
  | none => return unreachable
  | some d =>
    let back ← backwardLabels v asOf d 1 (.start target)
    let witness ← greedyWalk v back.dist asOf d source
    return .within ⟨d, witness⟩

/-! ## The product -/

structure FeasibilityQuery where
  subjects : EntityId × EntityId
  tQ : Tick
  claim : ClaimType
  k : Nat
  deriving Repr, DecidableEq

inductive FactorOutcome where
  | holds
  | absent (witness : AbsenceWitness)
  | contrary (witness : ContraryWitness)
  deriving Repr, DecidableEq

/-- What the code reads of its governed parameters, and the version that names them. -/
structure Filter where
  kMax : Nat
  version : Hash

/-- Contrary evidence comes before silence. -/
def windowFactor (w : Windowed) (tQ : Tick) (f : EntityId) : FactorOutcome :=
  let started := match w.start with
    | .unknown => FactorOutcome.absent (.noRecordedStart f)
    | .known s => if tQ.slt s then .absent (.beforeRecordedStart f s) else .holds
  match w.finish with
  | .knownClosed e =>
    if e.slt tQ then .contrary (.afterRecordedCessation f e w.derivedFrom) else started
  | _ => started

def admissFactor (a : Admitted) (c : ClaimType) : FactorOutcome :=
  match a with
  | .valid _ => .holds
  | .unrecorded => .absent (.claimTypeUnrecorded c)
  | .outsideValidity bandEnd derivedFrom =>
    .contrary (.claimTypeOutsideValidity c bandEnd derivedFrom)

def admittedProvenance : Admitted → List Hash
  | .valid derivedFrom => derivedFrom
  | .unrecorded => []
  | .outsideValidity _ derivedFrom => derivedFrom

/-- A vanished factor as a verdict. -/
def FactorOutcome.rejects : FactorOutcome → Option Verdict
  | .holds => none
  | .absent w => some (.unsupported [w])
  | .contrary w => some (.contradicted w)

namespace Filter

def judge (f : Filter) (v : CorpusView) (verdict : Verdict) : Judgment :=
  ⟨verdict, f.version, v.corpusDigest⟩

def checkQuery (f : Filter) (q : FeasibilityQuery) : Except QueryError Unit :=
  if q.k > f.kMax then .error (.hopBoundExceedsGoverned q.k f.kMax)
  else if q.tQ = sentinel then .error .queryTimeIsSentinel
  else .ok ()

/-- `feasibility`: the first vanished factor decides. -/
def feasibility (f : Filter) (v : CorpusView) (q : FeasibilityQuery) :
    Except FilterError Judgment := do
  (f.checkQuery q).mapError .malformed
  let first ← (v.window q.subjects.1 q.tQ).mapError .view
  if let some verdict := (windowFactor first q.tQ q.subjects.1).rejects then
    return f.judge v verdict
  let second ← (v.window q.subjects.2 q.tQ).mapError .view
  if let some verdict := (windowFactor second q.tQ q.subjects.2).rejects then
    return f.judge v verdict
  let admitted ← (v.admissibility q.claim q.tQ).mapError .view
  if let some verdict := (admissFactor admitted q.claim).rejects then
    return f.judge v verdict
  match ← (knownK v q.subjects.1 q.subjects.2 q.k q.tQ).mapError .view with
  | .within support => return f.judge v (.supported support)
  | .none w => return f.judge v (.unsupported [w])

end Filter

def FactorOutcome.absence : FactorOutcome → Option AbsenceWitness
  | .absent w => some w
  | _ => none

def FactorOutcome.contradiction : FactorOutcome → Option ContraryWitness
  | .contrary w => some w
  | _ => none

/-- `combine`: the kind is that of the first outcome that does not hold. -/
def combine (outcomes : List FactorOutcome) (support : Option PhiSupport) :
    Except FilterError Verdict :=
  match outcomes.find? (· ≠ .holds) with
  | some (.contrary by_) => .ok (.contradicted by_)
  | some _ => .ok (.unsupported (outcomes.filterMap FactorOutcome.absence))
  | none =>
    match support with
    | some support => .ok (.supported support)
    | none => .error .panicked

/-- `certify`: every factor is evaluated. -/
def Filter.certify (f : Filter) (v : CorpusView) (q : FeasibilityQuery) :
    Except FilterError Certificate := do
  (f.checkQuery q).mapError .malformed
  let first ← (v.window q.subjects.1 q.tQ).mapError .view
  let second ← (v.window q.subjects.2 q.tQ).mapError .view
  let admitted ← (v.admissibility q.claim q.tQ).mapError .view
  let reach ← (knownK v q.subjects.1 q.subjects.2 q.k q.tQ).mapError .view
  let cheap := [windowFactor first q.tQ q.subjects.1, windowFactor second q.tQ q.subjects.2,
    admissFactor admitted q.claim]
  let consulted := first.derivedFrom ++ second.derivedFrom ++ admittedProvenance admitted
  let outcomes := cheap ++ [match reach with
    | .within _ => .holds
    | .none w => .absent w]
  let support := match reach with
    | .within s => some s
    | .none _ => none
  let walked := ((support.map PhiSupport.witness).getD []).map WalkStep.via
  let verdict ← combine outcomes support
  return {
    judgment := f.judge v verdict
    consulted := .ofList (consulted ++ walked) compare
    absences := outcomes.filterMap FactorOutcome.absence
    contradictions := outcomes.filterMap FactorOutcome.contradiction }

end Clockchain.V0
