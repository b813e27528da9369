import Clockchain.Gateway.Cache
import Clockchain.V1.Publisher
import Clockchain.V1.Rule

/-!
# Reads through the gateway

`cc-gateway/src/lib.rs`: corpus reads and the digest probe they share, each a task that makes one
access to the clock, the cache, the probe or the node a step; and of `cc-node/src/serve_v1.rs`
what these read of the node.
-/

namespace Clockchain.Gateway
open Codec (utf8)
open Json (Value)
open V1 (Hash BTreeMap Crypto)
set_option autoImplicit false

/-! ## The node -/

/-- The admitted events, in their order, and the retained bodies. -/
structure Node where
  corpus : List Hash
  bodies : BTreeMap Codec.Bytes

/-- A read route, with the query as sent. -/
inductive Route where
  | snapshot (query : Codec.Bytes)
  | subject (id : Codec.Bytes) (query : Codec.Bytes)
  | prose (revision : Codec.Bytes) (query : Codec.Bytes)
  | support (query : Codec.Bytes)
  deriving Repr, DecidableEq

/-- The revision whose prose is read. -/
def Route.revision : Route → Option Codec.Bytes
  | .prose revision _ => some revision
  | _ => none

/-- The route of a path, as the node's router tells it. -/
def Route.of (path : String) : Option Route :=
  let query := ((utf8 path).dropWhile (· ≠ 0x3f)).drop 1
  match ((utf8 path).takeWhile (· ≠ 0x3f)).splitOn 0x2f with
  | [root, version, name] =>
    if [root, version, name] = ["", "v1", "snapshot"].map utf8 then some (.snapshot query)
    else if [root, version, name] = ["", "v1", "support"].map utf8 then some (.support query)
    else none
  | [root, version, name, id] =>
    if [root, version, name] = ["", "v1", "subjects"].map utf8 then some (.subject id query)
    else none
  | [root, version, name, revision, leaf] =>
    if [root, version, name, leaf] = ["", "v1", "revisions", "prose"].map utf8 then
      some (.prose revision query)
    else none
  | _ => none

/-- What the handlers read of a fold of the corpus: the names every read carries, the fields of
the routes beside prose, or their refusals, and the revisions with their bodies. -/
structure Folds where
  rule : Value
  commitment : List Hash → Hash
  read : List Hash → Route → Except (Nat × String) (Nat × List (String × Value))
  revision : List Hash → Hash → Option (Hash × Value)

/-- A status and a JSON body. -/
abbrev Reply := Nat × Value

def refusal (status : Nat) (error : String) : Reply := (status, .obj [("error", .str error)])

section
variable (cr : Crypto) (folds : Folds)

def Node.digest (n : Node) : String :=
  V1.Publisher.hex (V1.corpusDigest cr (n.corpus.mergeSort (· ≤ ·)))

def Node.named (n : Node) : List (String × Value) := [
  ("commitment", .str (V1.Publisher.hex (folds.commitment n.corpus))),
  ("corpus_digest", .str (n.digest cr)),
  ("rule", folds.rule)]

def hexDigit (b : UInt8) : Option Nat :=
  if 0x30 ≤ b ∧ b ≤ 0x39 then some (b.toNat - 48)
  else if 0x61 ≤ b ∧ b ≤ 0x66 then some (b.toNat - 87)
  else none

/-- Exactly 64 lowercase hex characters. -/
def hex32 (s : Codec.Bytes) : Option Hash :=
  match s.mapM hexDigit with
  | none => none
  | some digits =>
    if s.length = 64 then some (BitVec.ofNat 256 (digits.foldl (fun n d => 16 * n + d) 0))
    else none

/-- `prose_of`. -/
def Node.proseOf (n : Node) (id : Hash) : Except (Nat × String) (List (String × Value)) :=
  match folds.revision n.corpus id with
  | none => .error (404, "revision_unknown")
  | some (body, revision) =>
    let found (availability : String) (prose : Value) : List (String × Value) :=
      [("availability", .str availability), ("prose", prose), ("revision", revision)]
    match n.bodies[body]? with
    | none => .ok (found "unavailable" .null)
    | some bytes =>
      if cr.sha256 bytes ≠ body then .error (503, "body_verification_failed")
      else match String.fromUTF8? ⟨bytes.toArray⟩ with
        | some s => .ok (found "available" (.str s))
        | none => .ok (found "not_utf8" .null)

def Node.prose (n : Node) (revision query : Codec.Bytes) : Reply :=
  if query.any (· ≠ 0x26) then refusal 400 "invalid_query"
  else match hex32 revision with
    | none => refusal 400 "invalid_revision_id"
    | some id =>
      match n.proseOf cr folds id with
      | .ok fields => (200, .obj (n.named cr folds ++ fields))
      | .error (status, error) => refusal status error

def Node.reply (n : Node) (path : String) : Reply :=
  match Route.of path with
  | none => refusal 404 "no_such_route"
  | some (.prose revision query) => n.prose cr folds revision query
  | some route =>
    match folds.read n.corpus route with
    | .ok (status, fields) => (status, .obj (n.named cr folds ++ fields))
    | .error (status, error) => refusal status error

end

/-! ## Answers -/

inductive Failure where
  | unavailable | badGateway
  deriving Repr, DecidableEq

/-- One node answer, already stripped. -/
structure Answer where
  status : Nat
  body : Value
  digest : Option String

def probePath : String := "/v1/subjects/" ++ String.ofList (List.replicate 64 '0')

def answers : List Nat := [200, 400, 404, 409]
def cacheable : List Nat := [200, 404]

def wellFormed (d : String) : Bool :=
  d.utf8ByteSize = 64 && (utf8 d).all fun b => (hexDigit b).isSome

/-- Without the top-level `instance`, and the digest that the rest names. -/
def strip : Value → Option (Value × Option String)
  | .obj members =>
    let rest := members.filter fun m => m.1 ≠ "instance"
    some (.obj rest, match rest.lookup "corpus_digest" with
      | some (.str d) => if wellFormed d then some d else none
      | _ => none)
  | _ => none

/-- What `fetch` makes of a reply. -/
def received (maxBody : Nat) (reply : Reply) : Except Failure Answer :=
  if reply.1 = 503 then .error .unavailable
  else if reply.1 ∉ answers then .error .badGateway
  else if maxBody < size reply.2 then .error .badGateway
  else match strip reply.2 with
    | none => .error .badGateway
    | some (body, digest) => .ok ⟨reply.1, body, digest⟩

/-! ## Tasks -/

abbrev Outcome := Except Failure String

/-- Who makes a node read: a request, that arrived then, or a probe, that started then. -/
inductive Caller where
  | request (key : String) (arrived : Nat)
  | probe (started : Nat)

def Caller.path : Caller → String
  | .request key _ => key
  | .probe _ => probePath

/-- A request or a probe, named by what it does next. A waiting request knows its probe by the
place among the tasks; a probe has `sent` its outcome to those that wait. -/
inductive Task where
  | clock (key : String)
  | look (key : String) (arrived : Nat)
  | join (key : String) (arrived : Nat)
  | wait (key : String) (arrived : Nat) (probe : Nat)
  | get (key : String) (arrived : Nat) (digest : String)
  | send (caller : Caller)
  | awaiting (caller : Caller) (requested : Nat)
  | got (caller : Caller) (requested : Nat) (reply : Except Failure Reply)
  | put (key : String) (arrived : Nat) (answer : Answer)
  | record (started : Nat) (outcome : Outcome)
  | tell
  | sent
  | served (key : String) (arrived : Nat) (status : Nat) (body : Value)
  | failed (key : String) (failure : Failure)
  | stopped

/-- `Probe`, with the probe in flight by its place among the tasks. -/
structure Probe where
  last : Option (Nat × Outcome)
  inflight : Option Nat

/-- The node and the gateway. `past` are the states the node has been in, at which moments of the
gateway's clock, the present one first. -/
structure System where
  now : Nat
  node : Node
  cache : Cache Value
  maxBody : Nat
  probe : Probe
  tasks : List Task
  past : List (Nat × Node)

def System.start (node : Node) (freshness maxBytes maxBody : Nat) : System :=
  ⟨0, node, .new freshness maxBytes, maxBody, ⟨none, none⟩, [], [(0, node)]⟩

/-- A request comes in, time passes, the node admits an event or retains a body, a task makes its
next step or goes away, a reply does not arrive. Between the two readings of the clock in a `step`
that starts a probe `delay` passes. -/
inductive Move where
  | request (key : String)
  | tick (delay : Nat)
  | arrive (event : Hash)
  | retain (hash : Hash) (bytes : Codec.Bytes)
  | step (i : Nat) (delay : Nat)
  | fail (i : Nat) (failure : Failure)
  | stop (i : Nat)

namespace System
variable (cr : Crypto) (folds : Folds)

def taken (key : String) (arrived : Nat) : Outcome → Task
  | .ok d => .get key arrived d
  | .error f => .failed key f

/-- The probe in flight, a digest that is fresh by now, or a new probe. -/
def begin (sys : System) (i delay : Nat) (key : String) (arrived : Nat) : System :=
  match sys.probe.inflight with
  | some probe => { sys with tasks := sys.tasks.set i (.wait key arrived probe) }
  | none =>
    match sys.cache.freshDigest sys.now with
    | some d => { sys with tasks := sys.tasks.set i (.get key arrived d) }
    | none => { sys with
        now := sys.now + delay
        probe := { sys.probe with inflight := some sys.tasks.length }
        tasks := sys.tasks.set i (.wait key arrived sys.tasks.length) ++
          [.send (.probe (sys.now + delay))] }

/-- The outcome of a probe that started since the request arrived, or one to wait for. -/
def joined (sys : System) (i delay : Nat) (key : String) (arrived : Nat) : System :=
  match sys.probe.last with
  | some (started, outcome) =>
    if arrived ≤ started then
      { sys with tasks := sys.tasks.set i (taken key arrived outcome) }
    else sys.begin i delay key arrived
  | none => sys.begin i delay key arrived

def returned : Caller → Except Failure Answer → Task
  | .request key arrived, .ok a => .put key arrived a
  | .request key _, .error f => .failed key f
  | .probe started, .ok ⟨status, _, some d⟩ =>
    .record started (if status ∈ cacheable then .ok d else .error .badGateway)
  | .probe started, .ok _ => .record started (.error .badGateway)
  | .probe started, .error f => .record started (.error f)

/-- What `fetch` observes before it returns. -/
def observed (cache : Cache Value) (requested : Nat) : Except Failure Answer → Cache Value
  | .ok ⟨_, _, some d⟩ => cache.observe d requested
  | _ => cache

/-- The entry that is put for an answer. -/
def kept (cache : Cache Value) (key : String) (a : Answer) : Cache Value :=
  match a.digest with
  | some d => if a.status ∈ cacheable then cache.put d key ⟨a.status, a.body⟩ else cache
  | none => cache

/-- The next step of the task at `i`. -/
def stepTask (sys : System) (i delay : Nat) : Task → System
  | .clock key => { sys with tasks := sys.tasks.set i (.look key sys.now) }
  | .look key arrived =>
    match sys.cache.freshDigest arrived with
    | some d => { sys with tasks := sys.tasks.set i (.get key arrived d) }
    | none => { sys with tasks := sys.tasks.set i (.join key arrived) }
  | .join key arrived => sys.joined i delay key arrived
  | .wait key arrived probe =>
    match sys.tasks[probe]? with
    | some .sent => { sys with tasks := sys.tasks.set i (.join key arrived) }
    | some .stopped | none => { sys with
        probe := { sys.probe with inflight := none }
        tasks := sys.tasks.set i (.failed key .badGateway) }
    | some _ => sys
  | .get key arrived digest =>
    match sys.cache.get digest key with
    | (some e, cache) => { sys with
        cache
        tasks := sys.tasks.set i (.served key arrived e.status e.body) }
    | (none, cache) => { sys with cache, tasks := sys.tasks.set i (.send (.request key arrived)) }
  | .send caller => { sys with tasks := sys.tasks.set i (.awaiting caller sys.now) }
  | .awaiting caller requested => { sys with
      tasks := sys.tasks.set i (.got caller requested (.ok (sys.node.reply cr folds caller.path))) }
  | .got caller requested reply =>
    let result := reply.bind (received sys.maxBody)
    { sys with
      cache := observed sys.cache requested result
      tasks := sys.tasks.set i (returned caller result) }
  | .put key arrived a => { sys with
      cache := kept sys.cache key a
      tasks := sys.tasks.set i (.served key arrived a.status a.body) }
  | .record started outcome => { sys with
      probe := ⟨some (started, outcome), none⟩
      tasks := sys.tasks.set i .tell }
  | .tell => { sys with tasks := sys.tasks.set i .sent }
  | .sent | .served .. | .failed .. | .stopped => sys

/-- What a task that goes away leaves: a sent outcome and a response stay. -/
def left : Task → Task
  | .sent => .sent
  | .served key arrived status body => .served key arrived status body
  | .failed key failure => .failed key failure
  | _ => .stopped

def act (sys : System) : Move → System
  | .request key => { sys with tasks := sys.tasks ++ [.clock key] }
  | .tick delay => { sys with now := sys.now + delay }
  | .arrive event => { sys with node := { sys.node with corpus := sys.node.corpus ++ [event] } }
  | .retain hash bytes => { sys with
      node := { sys.node with bodies := sys.node.bodies.insertIfNew hash bytes } }
  | .step i delay =>
    match sys.tasks[i]? with
    | some t => sys.stepTask cr folds i delay t
    | none => sys
  | .fail i failure =>
    match sys.tasks[i]? with
    | some (.awaiting caller requested) =>
      { sys with tasks := sys.tasks.set i (.got caller requested (.error failure)) }
    | _ => sys
  | .stop i =>
    match sys.tasks[i]? with
    | some t => { sys with tasks := sys.tasks.set i (left t) }
    | none => sys

/-- A move, and the present noted. -/
def move (sys : System) (m : Move) : System :=
  let next := sys.act cr folds m
  { next with past := (next.now, next.node) :: next.past }

def run (sys : System) (moves : List Move) : System := moves.foldl (move cr folds) sys

end System

end Clockchain.Gateway
