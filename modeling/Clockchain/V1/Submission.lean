import Clockchain.Json
import Clockchain.V1.Publisher
import Clockchain.V1.Rule

/-!
# Submitting an authority event

`cc-publisher/src/v1/authority_node.rs`: `submit` compares a signed Delegate or Revoke with the
context the node serves, posts it, and reads back what the node then says of it. What the node
replies is an input here; `debug` is Rust's `{:?}` of a string.
-/

namespace Clockchain.V1.Publisher
set_option autoImplicit false

/-- The v1 `/health` document, as far as a submission reads it. -/
structure Health where
  ledger : String
  posture : String
  semantic : String
  instanceId : Hash
  fold : FoldRef
  filterVersion : Hash
  curators : List Hash
  maxHops : BitVec 16

namespace Health
variable (cr : Crypto) (h : Health)

/-- The node runs exactly the fold of this build. -/
def foldMatches : Bool := supportedFold cr h.fold

/-- The reported filter version is the governed identity of the reported curators and bound. -/
def filterConsistent : Bool :=
  match FilterIdentity.governed cr h.curators h.maxHops with
  | .ok f => f.version cr = h.filterVersion
  | .error _ => false

/-- Node states in which no write is attempted. -/
def writable (debug : String → String) : Except String Unit := do
  if h.ledger ≠ "v1" then throw (s!"node reports ledger {debug h.ledger}, not " ++ "\"v1\"")
  if h.posture = "frozen" then throw "node posture is frozen; it refuses writes"
  if h.semantic ≠ "ready" then
    throw (s!"node semantic readiness is {debug h.semantic}, not " ++ "\"ready\"")

end Health

/-- Every grant, in any status, whose lineage strictly contains `grant`. -/
def Context.descendants (ctx : Context) (grant : Hash) : List GrantRow :=
  ctx.grants.filter fun g => g.grant ≠ grant && g.lineage.contains grant

/-- What `grant`, `parent` and `operation` return, once `fromSigned` has checked that they do. -/
structure Act where
  grant : Hash
  parent : Hash
  operation : Operation
  deriving Repr, DecidableEq

def AuthorityEvent.act (ev : AuthorityEvent) : Option Act := do
  return ⟨← ev.grant, ← ev.parent, ← ev.operation⟩

/-! ## The checks -/

structure Trust where
  instanceId : Bool
  fold : Bool
  filter : Bool
  rootIsCurator : Bool
  grantActiveAndHeld : Bool
  parentCurrent : Bool
  /-- Delegate: the grantee holds no grant on the subject. Revoke: the target is active and in
  the signing grant's issuer scope. -/
  operation : Bool
  deriving Repr, DecidableEq

/-- The node identity checks, which apply to any event, and the authority checks, which apply
before admission only. -/
structure Failures where
  identity : List String
  authority : List String
  deriving Repr, DecidableEq

def failing (ok : Bool) (message : String) : List String := if ok then [] else [message]

section
variable (ctx : Context)

def holds (author : Hash) (g : GrantRow) : Bool := g.status = .active && g.holder = author

def signerMessage (grant author : Hash) : String :=
  match ctx.grant grant with
  | none => s!"signing grant {hex grant} is not a grant on subject {hex ctx.subject}"
  | some g =>
    if g.holder ≠ author then
      s!"signing grant {hex g.grant} is held by {hex g.holder}, not the author {hex author}"
    else s!"signing grant {hex g.grant} held by {hex g.holder} is {g.status.text} on the node"

def shownEvent (e : EventRow) : String :=
  let state := Snapshot.context.stateName e.state
  s!"{hex e.event} ({kindName e.kind}, {state})"

def parentMessage (parent : Hash) : String :=
  let past := ctx.past parent
  let outside := (ctx.events.filter fun e => !past.contains e.event).map shownEvent
  let frozen := if ctx.frozen then ", frozen" else ""
  s!"parent {hex parent} is not the subject's sole head (frontier: [{hexes ctx.frontier}]{frozen})"
    ++ if (ctx.event parent).isSome then
      "; events outside its past, which covered grants' acts lose: [" ++ ", ".intercalate outside ++
        "]"
    else "; the parent is not an event of this subject on the node"

def targetMessage (target : Hash) : String :=
  let status := ((ctx.grant target).map fun t => t.status.text).getD "not a grant on this subject"
  s!"revoke target {hex target} is {status}"

def scopeMessage (grant target : Hash) : String :=
  s!"revoke target {hex target} is not a strict issuer descendant of the signing grant " ++
    s!"{hex grant} (authority.revoke_scope=strict_issuer_descendant_or_root_self)"

def operationCheck (grant : Hash) : Operation → Bool × List String
  | .delegate grantee _ =>
    match ctx.grants.find? fun g => g.holder = grantee with
    | none => (true, [])
    | some g => (false, [s!"grantee {hex grantee} already holds grant {hex g.grant} " ++
        s!"({g.status.text}); a delegate key must be fresh"])
  | .revoke target _ =>
    let active := (ctx.grant target).any fun t => t.status = .active
    let scope := inScope ctx grant target
    (active && scope,
      failing active (targetMessage ctx target) ++ failing scope (scopeMessage grant target))

/-- Run every check on `ev` against the node's view; one message for each failure. -/
def checkEvent (cr : Crypto) (h : Health) (ev : AuthorityEvent) (act : Act) : Trust × Failures :=
  let instanceId := decide (h.instanceId = ev.envelope.instanceId)
  let fold := h.foldMatches cr
  let filter := h.filterConsistent cr
  let root := h.curators.contains ctx.rootHolder
  let held := (ctx.grant act.grant).any (holds ev.envelope.author)
  let current := decide (ctx.frontier = [act.parent]) && !ctx.frozen
  let operation := operationCheck ctx act.grant act.operation
  (⟨instanceId, fold, filter, root, held, current, operation.1⟩,
    ⟨failing instanceId (s!"instance mismatch: node {hex h.instanceId} != envelope " ++
          hex ev.envelope.instanceId)
        ++ failing fold (s!"fold_version mismatch: node {h.fold.version.toNat}/" ++
          s!"{hex h.fold.manifest} != this build {(foldV1 cr).version.toNat}/" ++
          hex (foldV1 cr).manifest)
        ++ failing filter (s!"node filter_version {hex h.filterVersion} is not this build's " ++
          "governed identity for its curators and max_hops"),
      failing root
          s!"subject root holder {hex ctx.rootHolder} is not in the node's curator set"
        ++ failing held (signerMessage ctx act.grant ev.envelope.author)
        ++ failing current (parentMessage ctx act.parent)
        ++ operation.2⟩)

end

/-! ## Reading back -/

inductive Shown where
  | delegate (newGrant : GrantRow)
  | revoke (target : GrantRow) (cascade : Bool) (descendants : List GrantRow)
    (relinquishedRoot : Bool)
  deriving Repr, DecidableEq

/-- What is read back, without the corpus digest and the commitment it is read at. -/
structure Readback where
  eventState : ProjectionState
  eventEffect : Reason
  frontier : List Hash
  eventIsHead : Bool
  subjectState : SubjectState
  frozen : Bool
  activeGrants : List Hash
  operation : Shown
  deriving Repr, DecidableEq

section
variable (cr : Crypto) (debug : String → String) (ctx : Context) (ev : AuthorityEvent) (act : Act)

/-- The root key revokes the root grant. -/
def relinquishes : Bool :=
  match act.operation with
  | .revoke target _ => target = act.grant && target = rootGrant cr ctx.subject
  | .delegate .. => false

/-- The grant change the event signs; `fresh` asks that it holds now. -/
def readOperation (fresh : Bool) : Operation → Except String Shown
  | .delegate grantee issuer => do
    let some g := ctx.grant ev.id | throw "readback: node lists no grant for this Delegate"
    if !(g.holder = grantee && g.issuer = some issuer) then
      throw (s!"readback: node grant {hex g.grant} is not held by the grantee under the signing " ++
        "grant")
    if !(!fresh || g.status = .active) then
      throw s!"readback: new grant {hex g.grant} is {g.status.text}"
    return .delegate g
  | .revoke target cascade => do
    let some t := ctx.grant target | throw "readback: node no longer lists the target grant"
    if !(!fresh || t.status = .tombstoned) then
      throw s!"readback: target grant {hex target} is {t.status.text}, not tombstoned"
    let below := ctx.descendants target
    if cascade && fresh then
      if let some g := below.find? fun g => g.status ≠ .tombstoned then
        throw (s!"readback: cascade revoke left grant {hex g.grant} below the target " ++
          g.status.text)
    return .revoke t cascade below (relinquishes cr ctx act)

/-- After admission the node must show the event valid and authority-eligible and, for a fresh
admission, the grant change it signs. -/
def readback (fresh : Bool) : Except String Readback := do
  let some row := ctx.event ev.id
    | throw "readback: node does not retain the event after admission"
  if row.state = .invalid || row.state = .pending then
    throw (s!"readback: event is {Snapshot.context.stateName row.state} " ++
      s!"({debug row.reason.text}), not a valid subject event")
  if !(!fresh || row.effect = .none ||
      (relinquishes cr ctx act && row.effect = .rootRelinquished)) then
    throw s!"readback: event is suppressed: {row.effect.text}"
  let operation ← readOperation cr ctx ev act fresh act.operation
  return {
    eventState := row.state
    eventEffect := row.effect
    frontier := ctx.frontier
    eventIsHead := ctx.frontier.contains ev.id
    subjectState := ctx.state
    frozen := ctx.frozen
    activeGrants := (ctx.grants.filter fun g => g.status = .active).map GrantRow.grant
    operation }

end

/-! ## Submission -/

structure Reply where
  created : Bool
  status : String
  event : Option Hash
  inputDigest : Hash
  state : String
  reason : String

/-- `outcome.to_json`. -/
def Reply.json (r : Reply) : Json.Value :=
  .obj [("event", (r.event.map fun id => Json.Value.str (hex id)).getD .null),
    ("input_digest", .str (hex r.inputDigest)), ("reason", .str r.reason), ("state", .str r.state)]

inductive Admittance where
  | alreadyAdmitted
  | admitted (reply : Reply)

structure Receipt where
  trust : Trust
  overridden : List String
  admission : Admittance
  readback : Readback

section
variable (cr : Crypto) (debug : String → String) (h : Health) (before : Context)
variable (ev : AuthorityEvent)

/-- What a submission refuses before it writes: the warnings it overrides otherwise. -/
def precheck (act : Act) (allowUntrusted : Bool) : Except String (Trust × List String) := do
  h.writable debug
  let (trust, failures) := checkEvent before cr h ev act
  let fresh := (before.event ev.id).isNone
  if fresh then
    if (before.event act.parent).isNone then
      throw (s!"refusing to submit; nothing was written: parent {hex act.parent} is not an " ++
        s!"event of subject {hex before.subject} on the node")
    let grants := act.grant :: (match act.operation with
      | .revoke target _ => [target]
      | .delegate .. => [])
    (issuedInPast before act.parent grants).mapError fun e =>
      s!"refusing to submit; nothing was written: {e}"
  let warnings := failures.identity ++ if fresh then failures.authority else []
  if !warnings.isEmpty && !allowUntrusted then
    throw ("refusing to submit; nothing was written:\n  - " ++ "\n  - ".intercalate warnings)
  return (trust, warnings)

/-- The node must have admitted exactly this envelope as valid. -/
def acknowledged (reply : Reply) : Except String Unit := do
  if !(reply.created && reply.state = "valid") then
    throw (s!"node did not admit the envelope as valid: HTTP {reply.status}, state " ++
      s!"{debug reply.state}, reason {debug reply.reason}")
  if !(reply.event = some ev.id && reply.inputDigest = cr.sha256 ev.signed.bytes) then
    let outcome := String.ofList (Json.write reply.json)
    throw s!"node acknowledged a different envelope: {outcome}"

/-- A retained event is reported, never posted again. `post` is the node's reply to the envelope,
`after` the context it then serves. -/
def submit (act : Act) (allowUntrusted : Bool) (post : Reply) (after : Context) :
    Except String Receipt := do
  let (trust, overridden) ← precheck cr debug h before ev act allowUntrusted
  let admission ← match before.event ev.id with
    | some row => do
      if row.state = .invalid || row.state = .pending then
        throw (s!"node retains this envelope as {Snapshot.context.stateName row.state} " ++
          s!"({row.reason.text}); it was not admitted")
      pure Admittance.alreadyAdmitted
    | none => do
      acknowledged cr debug ev post
      pure (Admittance.admitted post)
  let readback ← readback cr debug after ev act (before.event ev.id).isNone
  return { trust, overridden, admission, readback }

end

end Clockchain.V1.Publisher
