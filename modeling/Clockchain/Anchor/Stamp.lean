import Clockchain.Anchor.Store

/-!
# Anchoring a root

`record_stamp`, `confirm_anchor` and `upgrade_anchor` of `cc-anchor/src/store.rs`, each a task
that makes one statement of the database, or one commit of the ledger, a step. A task can be
stopped after any of its steps.
-/

namespace Clockchain.Anchor
open Codec V0
open V1 (Hash BTreeMap Crypto Verify)
set_option autoImplicit false

/-! ## Proofs -/

/-- The errors of `ots.rs`; `calendar` is a failed round trip. -/
inductive OtsError where
  | calendar
  | malformed (text : String)
  | unsupportedOp (op : UInt8)
  | wrongDigest (expected found : Hash)
  deriving Repr, DecidableEq

namespace OtsProof

def headerMagic : Bytes :=
  0 :: "OpenTimestamps".toUTF8.data.toList ++ [0, 0] ++ "Proof".toUTF8.data.toList ++
    [0, 0xbf, 0x89, 0xe2, 0xe8, 0x84, 0xe8, 0x92, 0x94]

def majorVersion : Nat := 1
def opSha256 : UInt8 := 8

/-- `Reader::take`. -/
def take (n : Nat) (bytes : Bytes) : Except OtsError (Bytes × Bytes) :=
  if n > bytes.length then .error (.malformed "truncated")
  else .ok (bytes.take n, bytes.drop n)

/-- `Reader::varuint`, with `value` read and the next seven bits at `shift`. -/
def varuint (value shift : Nat) : Bytes → Except OtsError (Nat × Bytes)
  | [] => .error (.malformed "truncated")
  | b :: rest =>
    if 64 ≤ shift then .error (.malformed "varuint too wide")
    else
      let value := value ||| (((b.toNat % 128) <<< shift) % 2 ^ 64)
      if b.toNat < 128 then .ok (value, rest) else varuint value (shift + 7) rest

/-- The digest a proof is about. -/
def digest (proof : Bytes) : Except OtsError Hash := do
  let (magic, rest) ← take headerMagic.length proof
  if magic ≠ headerMagic then throw (.malformed "not an OpenTimestamps file")
  let (version, rest) ← varuint 0 0 rest
  if version ≠ majorVersion then throw (.malformed "unsupported .ots major version")
  let (op, rest) ← take 1 rest
  if op ≠ [opSha256] then throw (.malformed "file digest is not SHA-256")
  let (digest, _) ← take 32 rest
  return BitVec.ofNat 256 (beNat digest)

def commitsTo (proof : Bytes) (expected : Hash) : Except OtsError Unit := do
  let found ← digest proof
  if found ≠ expected then throw (.wrongDigest expected found)

end OtsProof

/-! ## The anchors table -/

inductive AnchorStatus where
  | pending | confirmed
  deriving Repr, DecidableEq

def AnchorStatus.toU8 : AnchorStatus → UInt8
  | .pending => 0
  | .confirmed => 1

structure AnchorRow where
  status : AnchorStatus
  otsBlobHash : Hash
  calendarUrl : String
  blockHeight : Option (BitVec 64)
  txid : Option Bytes
  momentId : Hash
  deriving Repr, DecidableEq

/-- The database, with the rows of `anchors` by `root_id` and of `anchor_proofs` by
`blob_hash`. -/
structure Db where
  store : Store
  anchors : BTreeMap AnchorRow
  proofs : BTreeMap Bytes

structure AnchorRecord where
  root : MerkleRoot
  status : AnchorStatus
  otsBlobHash : Hash
  calendarUrl : String
  blockHeight : Option (BitVec 64)
  moment : Hash
  deriving Repr, DecidableEq

inductive StampError where
  | db
  | anchor (e : AnchorError)
  | ledger (e : LedgerError)
  | ots (e : OtsError)
  | unknownRoot (root : MerkleRoot)
  | anchorState (root : Hash) (detail : String)
  deriving Repr, DecidableEq

namespace Db

def rootById (db : Db) (root : MerkleRoot) : Except StampError RootPublication :=
  match db.store.roots.find? fun row => row.rootId = root.bytes with
  | none => .error (.unknownRoot root)
  | some row =>
    match db.store.publication row with
    | .error e => .error (.anchor e)
    | .ok p => .ok p

/-- `row_to_anchor`. -/
def record (root : MerkleRoot) (row : AnchorRow) : AnchorRecord :=
  ⟨root, row.status, row.otsBlobHash, row.calendarUrl, row.blockHeight, row.momentId⟩

def anchorFor (db : Db) (root : MerkleRoot) : Option AnchorRecord :=
  db.anchors[root.bytes]?.map (record root)

def loadProof (sha256 : Bytes → Hash) (db : Db) (blob : Hash) : Except StampError Bytes :=
  match db.proofs[blob]? with
  | none => .error (.anchorState blob "no stored proof under that content address")
  | some bytes =>
    match OtsProof.digest bytes with
    | .error e => .error (.ots e)
    | .ok _ =>
      if sha256 bytes ≠ blob then
        .error (.anchorState blob "stored proof does not hash to its own key")
      else .ok bytes

/-- `anchor_proofs_bounded`. -/
def proofFits (bytes : Bytes) : Bool := 1 ≤ bytes.length && bytes.length ≤ 65536

def insertProof (sha256 : Bytes → Hash) (db : Db) (bytes : Bytes) : Except StampError Db :=
  if proofFits bytes then .ok { db with proofs := db.proofs.insertIfNew (sha256 bytes) bytes }
  else .error .db

def insertAnchor (db : Db) (root : MerkleRoot) (row : AnchorRow) : Except StampError Db :=
  if db.anchors.contains root.bytes then .error .db
  else .ok { db with anchors := db.anchors.insert root.bytes row }

/-- The update of `confirm_anchor`; `anchors_confirmed_has_height` refuses a height that is
negative as an `i64`. -/
def confirmRow (db : Db) (root : MerkleRoot) (height : BitVec 64) (txid : Option Bytes)
    (moment : Hash) : Except StampError Db :=
  match db.anchors[root.bytes]? with
  | none => .ok db
  | some row =>
    if height.toNat < 2 ^ 63 then
      .ok { db with anchors := db.anchors.insert root.bytes { row with
        status := .confirmed
        blockHeight := some height
        txid := txid
        momentId := moment } }
    else .error .db

end Db

/-! ## Moments -/

/-- What an anchor moment of a root records. -/
structure Entry where
  root : MerkleRoot
  status : AnchorStatus
  otsBlobHash : Hash
  calendarUrl : String
  blockHeight : Option (BitVec 64)
  moment : Hash
  deriving Repr, DecidableEq

def anchorBodyHash (cr : Crypto) (root : MerkleRoot) (epoch : Nat) (status : AnchorStatus)
    (blob : Hash) (calendar : String) (height : Option (BitVec 64)) (txid : Option Bytes) : Hash :=
  cr.sha256 <| framed "cc.anchor.stamp.v0".toUTF8.data.toList ++ asBytes root.bytes ++
    beBytes 8 epoch ++ [status.toU8] ++ asBytes blob ++ framed calendar.toUTF8.data.toList ++
    (match height with
      | none => [0]
      | some n => 1 :: beBytes 8 n.toNat) ++
    framed (txid.getD [])

/-- `anchor_moment` before it is signed. -/
def anchorMoment (cr : Crypto) (author : Hash) (root : MerkleRoot) (epoch : Nat)
    (status : AnchorStatus) (blob : Hash) (calendar : String) (height : Option (BitVec 64))
    (txid : Option Bytes) (supersedes : Option Hash) (now : Tick) : EventContent where
  eventTime := now
  recordTime := now
  author := author
  supersedes := supersedes
  body := .moment ⟨nodeZero, anchorBodyHash cr root epoch status blob calendar height txid⟩

/-! ## Calls and tasks -/

section
variable (cr : Crypto) (verify : Verify)

structure StampCall where
  key : SecretKey cr verify
  root : MerkleRoot
  proof : Bytes
  calendarUrl : String
  now : Tick

structure ConfirmCall where
  key : SecretKey cr verify
  root : MerkleRoot
  blockHeight : BitVec 64
  txid : Option Bytes
  now : Tick

structure UpgradeCall where
  key : SecretKey cr verify
  root : MerkleRoot
  now : Tick

end

/-- `stillPending` and `confirmed` are what `upgrade_anchor` returns. -/
inductive Outcome where
  | recorded (record : AnchorRecord)
  | confirmed (record : AnchorRecord)
  | stillPending (record : AnchorRecord)
  deriving Repr, DecidableEq

/-- What the calendars of a pending proof answer: the height of the first block one of them
names. -/
abbrev Reply := Except OtsError (Option (BitVec 64))

/-- A running call, named by the statement it makes next. `upgrade` tells the calls of
`confirm_anchor` that `upgrade_anchor` makes; `stopped` is a call that went away, as after a
panic. -/
inductive Task (cr : Crypto) (verify : Verify) where
  | stampBegin (c : StampCall cr verify)
  | stampCheck (c : StampCall cr verify) (published : RootPublication)
  | stampProof (c : StampCall cr verify) (published : RootPublication)
  | stampCommit (c : StampCall cr verify) (published : RootPublication)
  | stampInsert (c : StampCall cr verify) (entry : Entry)
  | stampRead (c : StampCall cr verify)
  | confirmBegin (upgrade : Bool) (c : ConfirmCall cr verify)
  | confirmCheck (upgrade : Bool) (c : ConfirmCall cr verify) (published : RootPublication)
  | confirmCommit (upgrade : Bool) (c : ConfirmCall cr verify) (published : RootPublication)
    (pending : AnchorRecord)
  | confirmUpdate (upgrade : Bool) (c : ConfirmCall cr verify) (entry : Entry)
  | confirmRead (upgrade : Bool) (c : ConfirmCall cr verify)
  | upgradeBegin (c : UpgradeCall cr verify)
  | upgradeLoad (c : UpgradeCall cr verify) (record : AnchorRecord)
  | upgradeAsk (c : UpgradeCall cr verify) (record : AnchorRecord)
  | done (result : Except StampError Outcome)
  | stopped

variable {cr : Crypto} {verify : Verify}

def StampCall.moment (c : StampCall cr verify) (p : RootPublication) :
    Except CoreError (Signed cr verify) :=
  Signed.sign c.key (anchorMoment cr c.key.author p.root p.height .pending (cr.sha256 c.proof)
    c.calendarUrl none none none c.now)

def ConfirmCall.moment (c : ConfirmCall cr verify) (p : RootPublication) (pending : AnchorRecord) :
    Except CoreError (Signed cr verify) :=
  Signed.sign c.key (anchorMoment cr c.key.author p.root p.height .confirmed pending.otsBlobHash
    pending.calendarUrl (some c.blockHeight) c.txid (some pending.moment) c.now)

namespace Task

def fail (e : StampError) : Task cr verify := .done (.error e)

/-- `cc_ledger::commit` of a moment: what the task does next. -/
def commit (db : Db) (moment : Except CoreError (Signed cr verify))
    (next : Signed cr verify → Task cr verify) : Db × Task cr verify :=
  match moment with
  | .error _ => (db, .stopped)
  | .ok s =>
    match db.store.ledger.commit s with
    | .error e => (db, fail (.ledger e))
    | .ok (_, ledger) => ({ db with store := { db.store with ledger } }, next s)

def stampEntry (c : StampCall cr verify) (s : Signed cr verify) : Entry where
  root := c.root
  status := .pending
  otsBlobHash := cr.sha256 c.proof
  calendarUrl := c.calendarUrl
  blockHeight := none
  moment := s.id

def confirmEntry (c : ConfirmCall cr verify) (pending : AnchorRecord) (s : Signed cr verify) :
    Entry where
  root := c.root
  status := .confirmed
  otsBlobHash := pending.otsBlobHash
  calendarUrl := pending.calendarUrl
  blockHeight := some c.blockHeight
  moment := s.id

/-- The next step of a task; `reply` is what the calendars answer it. -/
def step (db : Db) (reply : Reply) : Task cr verify → Db × Task cr verify
  | .stampBegin c =>
    match OtsProof.commitsTo c.proof c.root.bytes with
    | .error e => (db, fail (.ots e))
    | .ok _ =>
      match db.rootById c.root with
      | .error e => (db, fail e)
      | .ok p => (db, .stampCheck c p)
  | .stampCheck c p =>
    if (db.anchorFor c.root).isSome then (db, fail (.anchorState c.root.bytes
      "already stamped; a second stamp would replace settled evidence"))
    else (db, .stampProof c p)
  | .stampProof c p =>
    match db.insertProof cr.sha256 c.proof with
    | .error e => (db, fail e)
    | .ok db => (db, .stampCommit c p)
  | .stampCommit c p => commit db (c.moment p) fun s => .stampInsert c (stampEntry c s)
  | .stampInsert c e =>
    match db.insertAnchor c.root
        ⟨.pending, e.otsBlobHash, c.calendarUrl, none, none, e.moment⟩ with
    | .error e => (db, fail e)
    | .ok db => (db, .stampRead c)
  | .stampRead c =>
    match db.anchorFor c.root with
    | none => (db, fail (.anchorState c.root.bytes
        "the anchor row vanished immediately after being written"))
    | some r => (db, .done (.ok (.recorded r)))
  | .confirmBegin upgrade c =>
    match db.rootById c.root with
    | .error e => (db, fail e)
    | .ok p => (db, .confirmCheck upgrade c p)
  | .confirmCheck upgrade c p =>
    match db.anchorFor c.root with
    | none => (db, fail (.anchorState c.root.bytes "no stamp to confirm"))
    | some pending =>
      if pending.status = .confirmed then (db, fail (.anchorState c.root.bytes
        "already confirmed; settlement is recorded once"))
      else (db, .confirmCommit upgrade c p pending)
  | .confirmCommit upgrade c p pending =>
    commit db (c.moment p pending) fun s => .confirmUpdate upgrade c (confirmEntry c pending s)
  | .confirmUpdate upgrade c e =>
    match db.confirmRow c.root c.blockHeight c.txid e.moment with
    | .error e => (db, fail e)
    | .ok db => (db, .confirmRead upgrade c)
  | .confirmRead upgrade c =>
    match db.anchorFor c.root with
    | none => (db, fail (.anchorState c.root.bytes
        "the anchor row vanished immediately after being confirmed"))
    | some r => (db, .done (.ok (if upgrade then .confirmed r else .recorded r)))
  | .upgradeBegin c =>
    match db.anchorFor c.root with
    | none => (db, fail (.anchorState c.root.bytes "no stamp to upgrade"))
    | some r => if r.status = .confirmed then (db, .done (.ok (.confirmed r)))
      else (db, .upgradeLoad c r)
  | .upgradeLoad c r =>
    match db.loadProof cr.sha256 r.otsBlobHash with
    | .error e => (db, fail e)
    | .ok _ => (db, .upgradeAsk c r)
  | .upgradeAsk c r =>
    match reply with
    | .error e => (db, fail (.ots e))
    | .ok none => (db, .done (.ok (.stillPending r)))
    | .ok (some height) => (db, .confirmBegin true ⟨c.key, c.root, height, none, c.now⟩)
  | .done result => (db, .done result)
  | .stopped => (db, .stopped)

/-- The moment a task has just committed, when its next statement writes the row. -/
def entry : Task cr verify → Option Entry
  | .stampInsert _ e => some e
  | .confirmUpdate _ _ e => some e
  | _ => none

end Task

/-! ## Interleavings -/

/-- The database and the calls on it. `committed` are the moments the calls have handed to the
ledger, `appended` those the ledger did not have, and `written` those the row has shown. -/
structure System (cr : Crypto) (verify : Verify) where
  db : Db
  tasks : List (Task cr verify)
  committed : List Entry
  appended : List Entry
  written : List Entry

inductive Call (cr : Crypto) (verify : Verify) where
  | stamp (c : StampCall cr verify)
  | confirm (c : ConfirmCall cr verify)
  | upgrade (c : UpgradeCall cr verify)

def Call.task : Call cr verify → Task cr verify
  | .stamp c => .stampBegin c
  | .confirm c => .confirmBegin false c
  | .upgrade c => .upgradeBegin c

/-- A call begins, a task makes a step, or it stops. -/
inductive Move (cr : Crypto) (verify : Verify) where
  | call (c : Call cr verify)
  | step (i : Nat) (reply : Reply)
  | stop (i : Nat)

namespace System

def start (db : Db) : System cr verify := ⟨db, [], [], [], []⟩

/-- The records of a step from `t` in `sys` to `t'`. -/
def note (sys : System cr verify) (t t' : Task cr verify) : System cr verify :=
  match t'.entry, t.entry with
  | some e, _ => { sys with
      committed := e :: sys.committed
      appended := if sys.db.store.ledger.events.contains e.moment then sys.appended
        else e :: sys.appended }
  | none, some e =>
    match t' with
    | .stampRead _ | .confirmRead .. => { sys with written := e :: sys.written }
    | _ => sys
  | none, none => sys

def move (sys : System cr verify) : Move cr verify → System cr verify
  | .call c => { sys with tasks := sys.tasks ++ [c.task] }
  | .step i reply =>
    match sys.tasks[i]? with
    | none => sys
    | some t =>
      let next := t.step sys.db reply
      { sys.note t next.2 with db := next.1, tasks := sys.tasks.set i next.2 }
  | .stop i => { sys with tasks := sys.tasks.set i .stopped }

def run (sys : System cr verify) (moves : List (Move cr verify)) : System cr verify :=
  moves.foldl move sys

end System

end Clockchain.Anchor
