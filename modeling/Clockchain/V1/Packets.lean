import Clockchain.V1.Snapshot
import Clockchain.V1.Submission

/-!
# Content packets

`Context` of `cc-publisher/src/v1/entry_context.rs`, a packet as `submit-packet` reads it, and
`submit_unredacted` of `entry_submit.rs`, one request at a time, beside the other clients of the
node. A `Packet` here is one that was loaded under the approved digest.
-/

namespace Clockchain.V1.Publisher.Entry
open Codec
set_option autoImplicit false

/-! ## The context -/

/-- A verified corpus and its projection under this build's fold. -/
structure Context where
  instanceId : Hash
  corpusDigest : Hash
  events : BTreeMap Decoded
  projection : Projection

namespace Context
section
variable (cr : Crypto) (verify : Verify) (instanceId : Hash)

def addEnvelope (i : Nat) (bytes : Bytes) (events : BTreeMap Decoded) :
    Except String (BTreeMap Decoded) :=
  match decode cr verify bytes with
  | .error e => .error s!"export envelope {i}: {e.text}"
  | .ok signed =>
    if signed.envelope.instanceId ≠ instanceId then
      .error s!"export envelope {i} belongs to another instance"
    else if events.contains signed.id then .error s!"export envelope {i} is a duplicate"
    else .ok (events.insert signed.id signed)

def addEnvelopes : Nat → List Bytes → BTreeMap Decoded → Except String (BTreeMap Decoded)
  | _, [], events => .ok events
  | i, bytes :: rest, events => do
    addEnvelopes (i + 1) rest (← addEnvelope cr verify instanceId i bytes events)

/-- Verify an export against `instanceId`. -/
def fromExport (m : ExportManifest) : ExceptT String Option Context := do
  if !supportedFold cr m.rule.fold then throw "export fold differs from this build's fold_v1()"
  let events ← addEnvelopes cr verify instanceId 0 m.envelopes ∅
  if V1.corpusDigest cr events.keys ≠ m.corpusDigest then
    throw "export corpus digest does not match its envelopes"
  let projection ← project cr (candidatesOf events)
  return ⟨instanceId, m.corpusDigest, events, projection⟩

end

/-- `{:?}` of a state. -/
def stateName : State → String
  | .valid => "Valid"
  | .pending => "Pending"
  | .invalid => "Invalid"

/-- Each event must be valid; a missing status is a panic. -/
def allValid (status : BTreeMap Status) : List Decoded → ExceptT String Option Unit
  | [] => pure ()
  | s :: rest => do
    let st ← (status[s.id]? : Option Status)
    if st.state ≠ .valid then
      throw (s!"cc_ledger::v1 classifies {kindName s.envelope.payload.kind} event {hex s.id} as " ++
        s!"{stateName st.state} ({st.reason.text})")
    allValid status rest

def withEvents (events : BTreeMap Decoded) (new : List Decoded) : BTreeMap Decoded :=
  new.foldl (fun all s => all.insert s.id s) events

/-- The node's branch-local admission over this corpus plus `new`. -/
def selfCheck (cr : Crypto) (ctx : Context) (new : List Decoded) : ExceptT String Option Unit := do
  if new.any fun s => s.envelope.instanceId ≠ ctx.instanceId then
    throw "event belongs to another instance than the context"
  let status ← classify cr (candidatesOf (withEvents ctx.events new))
  allValid status new

end Context

/-! ## Packets -/

structure Packet (cr : Crypto) (verify : Verify) where
  instanceId : Hash
  author : Hash
  /-- The corpus digest of the context the events were checked against. -/
  context : Hash
  /-- In submission order. -/
  events : List Decoded
  bodies : BTreeMap Bytes
  signed : ∀ e ∈ events, decode cr verify e.bytes = .ok e

namespace Packet
variable {cr : Crypto} {verify : Verify} (p : Packet cr verify)

def ids : List Hash := p.events.map Decoded.id

/-- The ids that are not the packet's own. -/
def outside (ids : List Hash) : List Hash := ids.filter fun id => !p.ids.contains id

/-- The events of the packet that `events` lacks. -/
def pending (events : BTreeMap Decoded) : List Decoded :=
  p.events.filter fun e => !events.contains e.id

/-- What the node says of itself must suit the packet. -/
def suits (debug : String → String) (h : Health) : Except String Unit := do
  h.writable debug
  let refusals :=
    failing (h.instanceId = p.instanceId) "node instance differs from the packet's"
      ++ failing (h.curators.contains p.author) "packet author is not in the node's curator set"
      ++ failing (h.filterConsistent cr)
        "node filter_version is inconsistent with its curators and max_hops"
  if !refusals.isEmpty then
    throw ("refusing to submit; nothing was written: " ++ "; ".intercalate refusals)

end Packet

/-- The context with the packet's own events removed. -/
def withoutPacket {cr : Crypto} {verify : Verify} (ctx : Context) (p : Packet cr verify) : Hash :=
  corpusDigest cr (p.outside ctx.events.keys)

/-! ## A run of `submit-packet` -/

/-- What of a node a submission reads and writes. -/
structure Site where
  tables : Tables
  bodies : BTreeMap Bytes

/-- How far a run has come; `stopped` is a run cut off, or one whose request the node failed. -/
inductive Phase where
  | approved
  | fetched (ctx : Context)
  | matched (ctx : Context)
  | posting (ctx : Context) (bodies : List Bytes) (events : List Decoded)
  | submitted
  | failed (message : String)
  | stopped

structure Run (cr : Crypto) (verify : Verify) where
  packet : Packet cr verify
  phase : Phase

def Site.putBody (cr : Crypto) (site : Site) (body : Bytes) : Site :=
  { site with bodies := site.bodies.insertIfNew (cr.sha256 body) body }

section
variable (cr : Crypto) (e : Decoded)

def answerName : State → String
  | .valid => "valid"
  | .pending => "pending"
  | .invalid => "invalid"

/-- The HTTP status of an admission. -/
def httpStatus : State → Nat
  | .valid => 201
  | .pending => 202
  | .invalid => 422

def outcomeJson (o : Outcome) : Json.Value :=
  .obj [("event", .str (hex e.id)), ("http_status", .num (httpStatus o.status.state)),
    ("kind", .str (kindName e.envelope.payload.kind)), ("reason", .str o.status.reason),
    ("state", .str (answerName o.status.state))]

/-- The node must have admitted exactly this event, as valid. -/
def acknowledged (o : Outcome) : Except String Unit :=
  if o.status.state = .valid ∧ o.event = some e.id ∧ o.inputDigest = cr.sha256 e.bytes then .ok ()
  else
    let outcome := String.ofList (Json.write (outcomeJson e o))
    .error s!"node did not admit {hex e.id} as valid: {outcome}"

/-- The event is retained and valid in the snapshot. -/
def readBack (rows : List EventReading) : Except String Unit :=
  match rows.find? fun r => r.event = e.id with
  | none => .error s!"readback: snapshot lacks {hex e.id}"
  | some row =>
    if row.state = .invalid ∨ row.state = .pending then
      .error s!"readback: {hex e.id} is {Snapshot.context.stateName row.state}"
    else .ok ()

end

/-- One envelope is posted; the run goes on once it is admitted as valid. -/
def Site.post (cr : Crypto) (verify : Verify) (store : Store) (node : Option SecretKey)
    (site : Site) (ctx : Context) (e : Decoded) (rest : List Decoded) (now : BitVec 64) :
    Site × Phase :=
  match store.admitOnce cr verify site.tables e.bytes node now with
  | none | some (.error _) => (site, .stopped)
  | some (.ok a) =>
    ({ site with tables := a.tables }, match acknowledged cr e a.outcome with
      | .error m => .failed m
      | .ok () => .posting ctx [] rest)

namespace Run
section
variable {cr : Crypto} {verify : Verify} (debug : String → String) (store : Store)
variable (node : Option SecretKey) (site : Site) (r : Run cr verify)

/-- Read `/health` and the export, and verify it. -/
def fetch (h : Health) : Phase :=
  if !h.foldMatches cr then .failed "node fold_version differs from this build's fold_v1()"
  else match store.exportManifest cr verify site.tables none with
    | none | some (.error _) => .stopped
    | some (.ok m) =>
      match Context.fromExport cr verify h.instanceId m with
      | none => .stopped
      | some (.error e) => .failed s!"GET /v1/export: {e}"
      | some (.ok ctx) =>
        match r.packet.suits debug h with
        | .error e => .failed e
        | .ok () => .fetched ctx

/-- Nothing but this packet's own events was admitted since its context. -/
def compare (ctx : Context) : Phase :=
  if withoutPacket ctx r.packet = r.packet.context then .matched ctx
  else .failed ("refusing to submit; nothing was written: the node's corpus changed since the " ++
    s!"packet's context {hex r.packet.context} was taken; fetch a new context, rebuild and review "
    ++ "again")

/-- The node's own admission rule, offline, over its corpus as it was read. -/
def check (ctx : Context) : Phase :=
  match ctx.selfCheck cr (r.packet.pending ctx.events) with
  | none => .stopped
  | some (.error e) => .failed e
  | some (.ok ()) => .posting ctx r.packet.bodies.values r.packet.events

def finish : Phase :=
  match store.snapshot cr verify site.tables none with
  | none | some (.error _) => .stopped
  | some (.ok s) =>
    match r.packet.events.forM fun e => readBack e s.projection.rows with
    | .error m => .failed m
    | .ok () => .submitted

/-- The next request of a run, or its next check of what it has read. -/
def step (h : Health) (now : BitVec 64) : Site × Phase :=
  match r.phase with
  | .approved => (site, r.fetch debug store site h)
  | .fetched ctx => (site, r.compare ctx)
  | .matched ctx => (site, r.check ctx)
  | .posting ctx (b :: bodies) events => (site.putBody cr b, .posting ctx bodies events)
  | .posting ctx [] (e :: events) =>
    site.post cr verify store node ctx e events now
  | .posting _ [] [] => (site, r.finish store site)
  | .submitted => (site, .submitted)
  | .failed m => (site, .failed m)
  | .stopped => (site, .stopped)

end
end Run

/-! ## Runs beside each other -/

structure System (cr : Crypto) (verify : Verify) where
  site : Site
  runs : List (Run cr verify)

/-- A run starts, takes a step, at which the node reports `h`, or is cut off; any other client
posts an envelope or puts a body. -/
inductive Move (cr : Crypto) (verify : Verify) where
  | start (p : Packet cr verify)
  | step (i : Nat) (h : Health) (now : BitVec 64)
  | stop (i : Nat)
  | submit (bytes : Bytes) (now : BitVec 64)
  | put (body : Bytes)

namespace System
variable {cr : Crypto} {verify : Verify} (debug : String → String) (store : Store)
variable (node : Option SecretKey)

def move (sys : System cr verify) : Move cr verify → System cr verify
  | .start p => { sys with runs := sys.runs ++ [⟨p, .approved⟩] }
  | .step i h now =>
    match sys.runs[i]? with
    | none => sys
    | some r =>
      let (site, phase) := r.step debug store node sys.site h now
      ⟨site, sys.runs.set i { r with phase }⟩
  | .stop i =>
    match sys.runs[i]? with
    | none => sys
    | some r => { sys with runs := sys.runs.set i { r with phase := .stopped } }
  | .submit bytes now =>
    match store.admitOnce cr verify sys.site.tables bytes node now with
    | none | some (.error _) => sys
    | some (.ok a) => { sys with site := { sys.site with tables := a.tables } }
  | .put body => { sys with site := sys.site.putBody cr body }

def run (sys : System cr verify) (moves : List (Move cr verify)) : System cr verify :=
  moves.foldl (move debug store node) sys

end System

end Clockchain.V1.Publisher.Entry
