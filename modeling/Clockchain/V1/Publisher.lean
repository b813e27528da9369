import Clockchain.V1.Projection
import Clockchain.V1.Receipt
import Clockchain.Words

/-!
# Authority events of the publisher

`cc-publisher/src/v1/authority.rs`: the grants file of one subject, and the checks that
`delegate` and `revoke` make on it before they sign. `Snapshot.context` is that of
`authority_node.rs`, over the parts of a node's snapshot it reads.
-/

namespace Clockchain.V1

/-- `Signed::sign`. -/
def Decoded.sign (cr : Crypto) (verify : Verify) (key : SecretKey) (envelope : Envelope) :
    Except WireError Decoded := do
  let bytes ← { envelope with author := key.author }.preimage
  decode cr verify (bytes ++ key.signMessage bytes)

end Clockchain.V1

namespace Clockchain.V1.Publisher
set_option autoImplicit false

/-! ## Texts -/

/-- `hex::encode`. -/
def hex (h : Hash) : String :=
  .ofList ((Codec.beBytes 32 h.toNat).flatMap fun b =>
    [Nat.digitChar (b.toNat / 16), Nat.digitChar (b.toNat % 16)])

def hexes (hs : List Hash) : String := ", ".intercalate (hs.map hex)

/-- `{:04X}`. -/
def codePoint (c : Char) : String :=
  let digits := (Nat.toDigits 16 c.toNat).map Char.toUpper
  .ofList (List.replicate (4 - digits.length) '0' ++ digits)

/-- `char::is_control`. -/
def isControl (c : Char) : Bool := c.toNat < 0x20 || (0x7F ≤ c.toNat && c.toNat < 0xA0)

/-- `char::is_whitespace`. -/
def isWhitespace (c : Char) : Bool :=
  (9 ≤ c.toNat && c.toNat ≤ 13) || (0x2000 ≤ c.toNat && c.toNat ≤ 0x200A) ||
    [0x20, 0x85, 0xA0, 0x1680, 0x2028, 0x2029, 0x202F, 0x205F, 0x3000].contains c.toNat

/-- `str::trim`. -/
def trim (s : String) : String := .ofList (Words.strip isWhitespace s.toList)

/-- The characters that render as nothing or reorder text. -/
def invisible : List (Nat × Nat) :=
  [(0xAD, 0xAD), (0x34F, 0x34F), (0x61C, 0x61C), (0x115F, 0x115F), (0x1160, 0x1160),
    (0x17B4, 0x17B4), (0x17B5, 0x17B5), (0x180B, 0x180F), (0x200B, 0x200F), (0x202A, 0x202E),
    (0x2060, 0x206F), (0x3164, 0x3164), (0xFE00, 0xFE0F), (0xFEFF, 0xFEFF), (0xFFA0, 0xFFA0),
    (0xFFF9, 0xFFFB), (0x1BCA0, 0x1BCA3), (0x1D173, 0x1D17A), (0xE0000, 0xE0FFF)]

def isInvisible (c : Char) : Bool := invisible.any fun r => r.1 ≤ c.toNat && c.toNat ≤ r.2

def maxKeyField : Nat := 1024

def validateKeyField (field s : String) : Except String Unit := do
  if s.isEmpty then throw s!"{field} must not be empty"
  if s.utf8ByteSize > maxKeyField then throw s!"{field} exceeds {maxKeyField} bytes"
  if s.toList.any isControl then throw s!"{field} must not contain control characters"
  if let some c := s.toList.find? isInvisible then
    throw s!"{field} must not contain invisible or bidirectional characters (found U+{codePoint c})"
  if trim s ≠ s then throw s!"{field} must not start or end with whitespace"

/-- Evidence hashes as a canonical set, duplicates refused. -/
def evidenceSet (evidence : List Hash) : Except String (List Hash) := do
  let evidence := evidence.insertionSort (· ≤ ·)
  if let some w := (evidence.zip evidence.tail).find? fun w => w.1 = w.2 then
    throw s!"duplicate evidence hash {hex w.1}"
  if evidence.length > maxSet then throw s!"at most {maxSet} evidence hashes"
  return evidence

def validateRationale (s : String) : Except String Unit := validateKeyField "rationale" s

/-! ## The grants file -/

inductive GrantStatus where
  | active | tombstoned | canceled
  deriving Repr, DecidableEq

def GrantStatus.text : GrantStatus → String
  | .active => "active"
  | .tombstoned => "tombstoned"
  | .canceled => "canceled"

structure GrantRow where
  grant : Hash
  status : GrantStatus
  holder : Hash
  /-- `none` for the root grant. -/
  issuer : Option Hash
  issuedByEvent : Hash
  /-- The issuers from the root grant down to and including this grant. -/
  lineage : List Hash
  deriving Repr, DecidableEq

structure EventRow where
  event : Hash
  kind : Kind
  author : Hash
  grant : Option Hash
  parents : List Hash
  state : ProjectionState
  reason : Reason
  effect : Reason
  deriving Repr, DecidableEq

/-- A subject's authority as one node served it; the corpus digest and the commitment, which no
check reads, are left out. -/
structure Context where
  /-- `health.instance`. -/
  instanceId : Hash
  subject : Hash
  subjectKey : SubjectKey
  state : SubjectState
  frozen : Bool
  frontier : List Hash
  rootHolder : Hash
  /-- Root first, then by depth and id. -/
  grants : List GrantRow
  events : List EventRow
  deriving Repr, DecidableEq

namespace Context
variable (ctx : Context)

def grant (id : Hash) : Option GrantRow := ctx.grants.find? fun g => g.grant = id

def event (id : Hash) : Option EventRow := ctx.events.find? fun e => e.event = id

/-- The `todo` stack of `past`, its top first; `fuel` bounds its turns. -/
def pastFrom : Nat → List Hash → List Hash → List Hash
  | 0, _, seen => seen
  | _ + 1, [], seen => seen
  | fuel + 1, id :: todo, seen =>
    if seen.contains id then pastFrom fuel todo seen
    else
      let parents := ((ctx.event id).map EventRow.parents).getD []
      pastFrom fuel (parents.reverse ++ todo) (id :: seen)

def pastFuel : Nat := 1 + (ctx.events.map fun e => e.parents.length).sum

/-- The reflexive causal past of `id` among the events of the subject. -/
def past (id : Hash) : List Hash := (ctx.pastFrom ctx.pastFuel [id] []).insertionSort (· ≤ ·)

/-- The sole current head, which a new Delegate or Revoke extends. -/
def soleHead : Except String Hash := do
  if ctx.frozen then throw s!"subject {hex ctx.subject} is frozen: no grant on it survives"
  match ctx.frontier with
  | [head] => return head
  | [] => throw s!"subject {hex ctx.subject} has no current head"
  | heads => throw (s!"subject {hex ctx.subject} has {heads.length} heads ({hexes heads}); " ++
      "it needs a Resolve before an authority event")

/-- The one active grant `author` holds on the subject. -/
def signingGrant (author : Hash) : Except String GrantRow := do
  let held := ctx.grants.filter fun g => g.holder = author
  match held.filter fun g => g.status = .active with
  | [g] => return g
  | [] =>
    match held.head? with
    | some g => throw (s!"refusing to sign: key {hex author} held grant {hex g.grant} on " ++
        s!"subject {hex ctx.subject}, but it is {g.status.text}")
    | none => throw (s!"refusing to sign: key {hex author} holds no grant on subject " ++
        s!"{hex ctx.subject}")
  | many => throw (s!"refusing to sign: key {hex author} holds {many.length} active grants on " ++
      s!"subject {hex ctx.subject}")

/-- Whether a row follows its issuer. -/
def checkGrant (root g : GrantRow) : Except String Unit := do
  match g.issuer with
  | none => if g.grant ≠ root.grant then throw "a second root grant is listed"
  | some issuer =>
    if g.grant ≠ g.issuedByEvent then
      throw s!"delegated grant {hex g.grant} is not its Delegate event id"
    let some parent := ctx.grant issuer | throw s!"issuer {hex issuer} is not listed"
    if g.lineage ≠ parent.lineage ++ [g.grant] then
      throw s!"grant {hex g.grant} lineage does not follow its issuer"

def check (cr : Crypto) : Except String Unit := do
  let some root := ctx.grant (rootGrant cr ctx.subject)
    | throw "the subject's root grant is not listed"
  if !(root.issuer.isNone && root.holder = ctx.rootHolder && root.issuedByEvent = ctx.subject
      && root.lineage = [root.grant]) then throw "root grant entry is inconsistent"
  ctx.grants.forM (ctx.checkGrant root)
  ctx.frontier.forM fun f =>
    if (ctx.event f).isNone then throw s!"frontier event {hex f} is not listed" else return

end Context

/-! ## Reading a snapshot -/

/-- The parts of one `GET /v1/snapshot` that `context` reads. -/
structure Snapshot where
  rows : List EventReading
  subjects : List SubjectReading
  grants : List (Hash × Grant)
  active : BTreeSet
  tombstones : BTreeSet
  canceled : BTreeSet
  /-- The authority effects that give a reason. -/
  effects : BTreeMap Reason

def Snapshot.of (p : Projection) : Snapshot where
  rows := p.rows
  subjects := p.subjects
  grants := p.authority.grants.toList
  active := p.authority.active
  tombstones := p.authority.tombstones
  canceled := p.authority.canceled
  effects := p.authority.effects.filterMap fun _ effect =>
    if effect.reason = .none then none else some effect.reason

namespace Snapshot
variable (s : Snapshot)

def status (id : Hash) : GrantStatus :=
  if s.active.contains id then .active
  else if s.tombstones.contains id then .tombstoned
  else .canceled

def lineageOf (rows : List GrantRow) (id : Hash) (g : Grant) : Option (List Hash) :=
  match g.issuer with
  | none => some [id]
  | some i => (rows.find? fun x => x.grant = i).map fun p => p.lineage ++ [id]

/-- One item of `todo.retain`: a grant whose issuer has a row gets its own. -/
def retainStep (state : List GrantRow × List (Hash × Grant)) (item : Hash × Grant) :
    List GrantRow × List (Hash × Grant) :=
  let (id, g) := item
  match lineageOf state.1 id g with
  | none => (state.1, state.2 ++ [item])
  | some lineage =>
    (state.1 ++ [⟨id, s.status id, g.holder, g.issuer, g.issuedByEvent, lineage⟩], state.2)

/-- Parents before children; each round must place a grant. -/
def grantRows (subject : Hash) : Nat → List GrantRow → List (Hash × Grant) →
    Except String (List GrantRow)
  | _, rows, [] => .ok rows
  | 0, _, _ :: _ => throw s!"node grants on subject {hex subject} do not chain to its root"
  | fuel + 1, rows, item :: todo =>
    let (rows', todo') := (item :: todo).foldl s.retainStep (rows, [])
    if todo'.length < (item :: todo).length then grantRows subject fuel rows' todo'
    else throw s!"node grants on subject {hex subject} do not chain to its root"

def eventRow (r : EventReading) : EventRow where
  event := r.event
  kind := r.envelope.payload.kind
  author := r.envelope.author
  grant := r.envelope.grant
  parents := r.envelope.parents
  state := r.state
  reason := r.reason
  effect := s.effects[r.event]?.getD .none

def rowBefore (a b : GrantRow) : Bool :=
  a.lineage.length < b.lineage.length || (a.lineage.length = b.lineage.length && a.grant ≤ b.grant)

def isSubjectRow (subject : Hash) (r : EventReading) : Bool :=
  r.envelope.subject.getD r.event = subject &&
    match r.envelope.payload.kind with
    | .edgeAssert | .edgeReaffirm | .attestation => false
    | _ => true

/-- One subject's authority, as a grants file. -/
def context (cr : Crypto) (instanceId subject : Hash) : Except String Context := do
  let some genesis := s.rows.find? fun r => r.event = subject
    | throw s!"node does not know subject {hex subject}"
  if genesis.envelope.payload.kind ≠ .genesis then throw s!"{hex subject} is not a Genesis event"
  if genesis.state = .invalid || genesis.state = .pending then
    throw s!"subject Genesis {hex subject} is {stateName genesis.state}"
  let some reading := s.subjects.find? fun r => r.subject = subject
    | throw s!"node has no reading of subject {hex subject}"
  let todo := s.grants.filter fun item => item.2.subject = subject
  let grants ← s.grantRows subject todo.length [] todo
  let some subjectKey := genesis.envelope.subjectKey | throw "Genesis lacks a subject key"
  let ctx : Context := {
    instanceId, subject, subjectKey
    state := reading.state
    frozen := reading.frozen
    frontier := reading.frontier.toList
    rootHolder := genesis.envelope.author
    grants := grants.insertionSort fun a b => rowBefore a b
    events := (s.rows.filter (isSubjectRow subject)).map s.eventRow }
  ctx.check cr
  return ctx
where
  stateName : ProjectionState → String
    | .head => "head"
    | .superseded => "superseded"
    | .branch => "branch"
    | .pending => "pending"
    | .invalid => "invalid"

end Snapshot

/-! ## Signing -/

/-- The subject header an authority event is signed under. -/
structure Header where
  instanceId : Hash
  subject : Hash
  subjectKey : SubjectKey
  /-- The grant the signer holds: `grant` in the envelope, and a Delegate's `issuer`. -/
  grant : Hash
  parent : Hash
  deriving Repr, DecidableEq

def Header.fromContext (ctx : Context) (grant parent : Hash) : Header :=
  ⟨ctx.instanceId, ctx.subject, ctx.subjectKey, grant, parent⟩

def Header.envelope (h : Header) (payload : Payload) : Envelope where
  instanceId := h.instanceId
  author := 0
  subject := some h.subject
  subjectKey := some h.subjectKey
  grant := some h.grant
  parents := [h.parent]
  assertedTime := none
  payload := payload

inductive Operation where
  | delegate (grantee issuer : Hash)
  | revoke (target : Hash) (cascade : Bool)
  deriving Repr, DecidableEq

def operation : Payload → Option Operation
  | .delegate grantee issuer _ => some (.delegate grantee issuer)
  | .revoke target cascade _ => some (.revoke target cascade)
  | _ => none

def kindName : Kind → String
  | .genesis => "genesis"
  | .correction => "correction"
  | .delegate => "delegate"
  | .revoke => "revoke"
  | .resolve => "resolve"
  | .edgeAssert => "edge_assert"
  | .edgeReaffirm => "edge_reaffirm"
  | .attestation => "attestation"

/-- A signed Delegate or Revoke that passed `fromSigned`. -/
structure AuthorityEvent where
  signed : Decoded
  deriving DecidableEq

namespace AuthorityEvent
variable (ev : AuthorityEvent)

def id : Hash := ev.signed.id
def envelope : Envelope := ev.signed.envelope
def grant : Option Hash := ev.envelope.grant
def parent : Option Hash := ev.envelope.parents[0]?
def operation : Option Operation := Publisher.operation ev.envelope.payload

/-- The header and decision checks that need no parent chain. -/
def fromSigned (cr : Crypto) (signed : Decoded) : Except String AuthorityEvent := do
  let e := signed.envelope
  let some op := Publisher.operation e.payload
    | throw s!"envelope is a {kindName e.payload.kind}, not a delegate or revoke"
  if !(e.subject.isSome && e.subjectKey.isSome && e.grant.isSome) then
    throw "authority event lacks its subject, subject key or grant header"
  if e.parents.length ≠ 1 then throw "authority event needs exactly one parent"
  if e.assertedTime.isSome then throw "authority events never carry an asserted time"
  let some d := e.payload.decision | throw "authority event lacks its decision"
  if !(d.kind = e.payload.kind && d.parents = e.parents && !d.evidence.isEmpty) then
    throw "decision kind, parents or evidence do not match the envelope"
  validateRationale d.rationale
  match op with
  | .delegate grantee issuer =>
    if some issuer ≠ e.grant then throw "Delegate issuer is not the signing grant"
    if !cr.authorKey grantee then throw "Delegate grantee is not a valid Ed25519 public key"
    if grantee = e.author then throw "a key cannot delegate to itself"
    if !(d.old = .none && d.new = .grant issuer grantee) then
      throw "Delegate decision does not restate the grant"
  | .revoke target cascade =>
    if !(d.old = .activeGrant target && d.new = .revokedGrant target cascade) then
      throw "Revoke decision does not restate the target and cascade flag"
  return ⟨signed⟩

end AuthorityEvent

def sign (cr : Crypto) (verify : Verify) (key : SecretKey) (envelope : Envelope) :
    Except String AuthorityEvent := do
  let signed ← (Decoded.sign cr verify key envelope).mapError fun e => s!"v1 encoding: {e.text}"
  AuthorityEvent.fromSigned cr signed

def decision (kind : Kind) (rationale : String) (evidence : List Hash) (parent : Hash) :
    Except String Decision := do
  validateRationale rationale
  if evidence.isEmpty then throw "at least one --evidence hash is required"
  return ⟨kind, rationale, ← evidenceSet evidence, [parent], .none, .none⟩

def delegateOn (cr : Crypto) (verify : Verify) (key : SecretKey) (header : Header)
    (existingHolders : List Hash) (grantee : Hash) (rationale : String) (evidence : List Hash) :
    Except String AuthorityEvent := do
  if !cr.authorKey grantee then throw s!"--grantee {hex grantee} is not a valid Ed25519 public key"
  if existingHolders.contains grantee then
    throw (s!"--grantee {hex grantee} already holds a grant on subject {hex header.subject}; " ++
      "a delegate key must be fresh")
  let issuer := header.grant
  let d ← decision .delegate rationale evidence header.parent
  sign cr verify key
    (header.envelope (.delegate grantee issuer { d with new := .grant issuer grantee }))

/-- Sign a Delegate from the key's grant to `grantee`, on the sole head. -/
def delegate (cr : Crypto) (verify : Verify) (key : SecretKey) (ctx : Context) (grantee : Hash)
    (rationale : String) (evidence : List Hash) : Except String AuthorityEvent := do
  let signing ← ctx.signingGrant key.author
  let parent ← ctx.soleHead
  if let some g := ctx.grants.find? fun g => g.holder = grantee then
    throw (s!"--grantee {hex grantee} already held grant {hex g.grant} ({g.status.text}) on " ++
      "this subject; a delegate key must be fresh")
  delegateOn cr verify key (.fromContext ctx signing.grant parent)
    (ctx.grants.map GrantRow.holder) grantee rationale evidence

structure RevokeChoice where
  target : Hash
  cascade : Bool
  /-- Required to revoke the root grant with the root key. -/
  relinquishRoot : Bool
  /-- Defaults to the sole head. -/
  parent : Option Hash
  deriving Repr, DecidableEq

/-- `target` is a strict issuer descendant of `signer`, or both are the root grant. -/
def inScope (ctx : Context) (signer target : Hash) : Bool :=
  match ctx.grant target with
  | none => false
  | some t => if signer = target then t.issuer.isNone else t.lineage.dropLast.contains signer

/-- Each grant must have been issued in the past of `parent`. -/
def issuedInPast (ctx : Context) (parent : Hash) (grants : List Hash) : Except String Unit :=
  grants.forM fun g => do
    let some row := ctx.grant g | throw s!"grant {hex g} is not on this subject"
    if !(ctx.past parent).contains row.issuedByEvent then
      throw (s!"grant {hex g} was issued by event {hex row.issuedByEvent}, which is not in the " ++
        s!"past of parent {hex parent}; the node would refuse this event")

/-- The parent a Revoke extends: the sole head, or a chosen eligible event. -/
def revokeParent (ctx : Context) (parent : Option Hash) : Except String Hash := do
  match parent with
  | none => ctx.soleHead
  | some p =>
    if ctx.frozen then throw "subject is frozen: no grant on it survives"
    let some e := ctx.event p | throw s!"--parent {hex p} is not an event of this subject"
    if e.state = .invalid || e.state = .pending then
      throw (s!"--parent {hex p} is {Snapshot.context.stateName e.state} ({e.reason.text}), " ++
        "not a valid subject event")
    if e.effect ≠ .none then
      throw s!"--parent {hex p} is suppressed ({e.effect.text}); choose an eligible event"
    return p

/-- Sign a Revoke with the key's grant, after the scope and cascade checks. -/
def revoke (cr : Crypto) (verify : Verify) (key : SecretKey) (ctx : Context) (choice : RevokeChoice)
    (rationale : String) (evidence : List Hash) : Except String AuthorityEvent := do
  let signing ← ctx.signingGrant key.author
  let signer := signing.grant
  let some target := ctx.grant choice.target
    | throw s!"--target {hex choice.target} is not a grant on subject {hex ctx.subject}"
  if target.status ≠ .active then
    throw s!"--target {hex target.grant} is {target.status.text}, not active"
  if !inScope ctx signer target.grant then
    throw (s!"refusing to sign: --target {hex target.grant} is not a strict issuer descendant " ++
      s!"of this key's grant {hex signer} " ++
      "(authority.revoke_scope=strict_issuer_descendant_or_root_self)")
  let relinquishing := target.grant = signer
  if relinquishing ≠ choice.relinquishRoot then
    throw (if relinquishing then
        "revoking the root grant with the root key relinquishes the subject " ++
          "for good; pass --relinquish-root to sign it"
      else "--relinquish-root applies only when the root key revokes the root grant")
  let parent ← revokeParent ctx choice.parent
  issuedInPast ctx parent [signer, target.grant]
  let d ← decision .revoke rationale evidence parent
  sign cr verify key ((Header.fromContext ctx signer parent).envelope
    (.revoke target.grant choice.cascade
      { d with
        old := .activeGrant target.grant
        new := .revokedGrant target.grant choice.cascade }))

end Clockchain.V1.Publisher
