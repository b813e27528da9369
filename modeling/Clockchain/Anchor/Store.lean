import Clockchain.Anchor.Consistency
import Clockchain.V0.Ledger
import Mathlib.Data.List.Nodup

/-!
# The root stream

The commitment log, the published roots and what is read back of them: the transactions of
`publish_root`, `prove_event` and `verify_root_chain` of `cc-anchor/src/store.rs`. A table is the
list of its rows in the order they were inserted.
-/

namespace Clockchain.Anchor
open Codec V0
open V1 (Hash Crypto Verify)
set_option autoImplicit false

structure LogRow where
  seq : Nat
  eventId : Hash
  epoch : Nat
  deriving Repr, DecidableEq

structure RootRow where
  rootId : Hash
  height : Nat
  treeSize : Nat
  prevRoot : Option Hash
  consistency : Option Bytes
  momentId : Option Hash
  deriving Repr, DecidableEq

structure Store where
  ledger : Ledger
  log : List LogRow
  roots : List RootRow

def Store.empty : Store := ⟨.empty, [], []⟩

/-- `malformedPath` is the variant of `ProofError` that a stored path raises; `sliceIndex` is
the panic of a slice out of range. -/
inductive AnchorError where
  | db
  | ledger (e : LedgerError)
  | proof (e : ProofError)
  | malformedPath (length : Nat)
  | rootStreamLost (leaves : Nat)
  | notCommitted (event : Hash)
  | logCorrupt (expected found : Int)
  | rootMismatch (height : Nat) (recorded : Hash)
  | consistencyBroken (height : Nat)
  | sliceIndex
  deriving Repr, DecidableEq

structure RootPublication where
  height : Nat
  root : MerkleRoot
  treeSize : Nat
  prevRoot : Option MerkleRoot
  consistency : Option ConsistencyProof
  moment : Option Hash
  deriving Repr, DecidableEq

inductive RootOutcome where
  | published (publication : RootPublication)
  | unchanged (root : MerkleRoot) (height : Nat)
  deriving Repr, DecidableEq

/-! ## Rows -/

def flatten (path : List Hash) : Bytes := path.flatMap fun h => beBytes 32 h.toNat

/-- `chunks_exact(32)`, the first `n` of them. -/
def chunks : Nat → Bytes → List Hash
  | 0, _ => []
  | n + 1, bytes => BitVec.ofNat 256 (beNat (bytes.take 32)) :: chunks n (bytes.drop 32)

def unflatten (bytes : Bytes) : Except AnchorError (List Hash) :=
  if bytes.length % 32 ≠ 0 then .error (.malformedPath bytes.length)
  else .ok (chunks (bytes.length / 32) bytes)

namespace Store

/-- The row of a root and its predecessor's leaf count: `ROOT_COLUMNS` and
`row_to_publication`. -/
def publication (st : Store) (row : RootRow) : Except AnchorError RootPublication := do
  let prevSize := (st.roots.find? fun p => row.prevRoot = some p.rootId).map RootRow.treeSize
  let consistency ← match row.consistency, prevSize with
    | some path, some prevSize => do
      pure (some (⟨prevSize, row.treeSize, ← unflatten path⟩ : ConsistencyProof))
    | none, _ => pure none
    | some _, none => throw (.consistencyBroken row.height)
  return {
    height := row.height
    root := ⟨row.rootId⟩
    treeSize := row.treeSize
    prevRoot := row.prevRoot.map MerkleRoot.mk
    consistency
    moment := row.momentId }

/-- `ORDER BY r.height DESC LIMIT 1`. -/
def latestRoot (st : Store) : Except AnchorError (Option RootPublication) :=
  match st.roots.argmax RootRow.height with
  | none => .ok none
  | some row => some <$> st.publication row

/-- `rows_to_leaves`, with `i` rows behind. -/
def rowsToLeaves (sha256 : Bytes → Hash) : Nat → List LogRow → Except AnchorError (List LeafHash)
  | _, [] => .ok []
  | i, row :: rows =>
    if row.seq ≠ i then .error (.logCorrupt i row.seq)
    else (leafHash sha256 row.eventId :: ·) <$> rowsToLeaves sha256 (i + 1) rows

def loadLeaves (sha256 : Bytes → Hash) (st : Store) : Except AnchorError (List LeafHash) :=
  rowsToLeaves sha256 0 (st.log.mergeSort fun a b => a.seq ≤ b.seq)

/-! ## Publishing -/

/-- The events no epoch has sealed, `ORDER BY e.event_id`. -/
def unsealed (st : Store) : List Hash :=
  (st.ledger.events.toList.map Prod.fst).filter fun id => id ∉ st.log.map LogRow.eventId

/-- `COALESCE(MAX(seq) + 1, 0)`. -/
def nextSeq (st : Store) : Nat := ((st.log.map LogRow.seq).max?.map (· + 1)).getD 0

/-- The rows of one seal. -/
def sealRows (nextSeq height : Nat) (ids : List Hash) : List LogRow :=
  ids.mapIdx fun i id => ⟨nextSeq + i, id, height⟩

/-- `prove_consistency` from the last root, if there is one. -/
def consistencyFrom (sha256 : Bytes → Hash) (leaves : List LeafHash) :
    Option RootPublication → Except AnchorError (Option ConsistencyProof)
  | none => .ok none
  | some prev =>
    match proveConsistency sha256 leaves prev.treeSize with
    | .ok proof => .ok (some proof)
    | .error e => .error (.proof e)

/-- `publish_root` once the log is appended to: `root_id` is the primary key. -/
def insertRoot (sha256 : Bytes → Hash) (st : Store) (prev : Option RootPublication) (height : Nat) :
    Except AnchorError (RootPublication × Store) := do
  let leaves ← st.loadLeaves sha256
  let root := merkleRoot sha256 leaves
  let consistency ← consistencyFrom sha256 leaves prev
  let prevRoot := prev.map RootPublication.root
  let row : RootRow := {
    rootId := root.bytes
    height
    treeSize := leaves.length
    prevRoot := prevRoot.map MerkleRoot.bytes
    consistency := consistency.map fun c => flatten c.path
    momentId := none }
  if st.roots.any fun old => old.rootId = root.bytes then .error .db
  else .ok (⟨height, root, leaves.length, prevRoot, consistency, none⟩,
    { st with roots := st.roots ++ [row] })

/-- The transaction of `publish_root`. -/
def sealEpoch (sha256 : Bytes → Hash) (st : Store) : Except AnchorError (RootOutcome × Store) := do
  let prev ← st.latestRoot
  let committed := st.log.length
  if st.nextSeq ≠ committed then .error (.logCorrupt committed (st.nextSeq - 1 : Int))
  else if prev.isNone && 0 < committed then .error (.rootStreamLost committed)
  else
    let height := prev.elim 0 fun p => p.height + 1
    let added := sealRows st.nextSeq height st.unsealed
    if added.isEmpty then
      match prev with
      | some p => .ok (.unchanged p.root p.height, st)
      | none => .ok (.unchanged (merkleRoot sha256 []) 0, st)
    else
      let (p, st) ← insertRoot sha256 { st with log := st.log ++ added } prev height
      .ok (.published p, st)

end Store

def RootRow.point (moment : Hash) (root : MerkleRoot) (row : RootRow) : RootRow :=
  if row.rootId = root.bytes then { row with momentId := some moment } else row

/-- `UPDATE roots SET moment_id = $1 WHERE root_id = $2`. -/
def Store.setMoment (st : Store) (moment : Hash) (root : MerkleRoot) : Store :=
  { st with roots := st.roots.map (RootRow.point moment root) }

def nodeZero : EntityId := 0

def framed (x : Bytes) : Bytes := frame x

/-! ## Proofs and audits -/

structure EventInclusion where
  event : Hash
  leaf : LeafHash
  root : MerkleRoot
  height : Nat
  proof : InclusionProof
  deriving Repr, DecidableEq

def EventInclusion.verify (sha256 : Bytes → Hash) (e : EventInclusion) : Bool :=
  e.proof.verify sha256 e.leaf e.root

structure ChainAudit where
  rootsChecked : Nat
  proofsVerified : Nat
  leaves : Nat
  unrecorded : Nat
  deriving Repr, DecidableEq

namespace Store
variable (sha256 : Bytes → Hash)

/-- `prove_event`: against the earliest root that commits to the event. -/
def proveEvent (st : Store) (event : Hash) : Except AnchorError EventInclusion := do
  match st.log.find? fun row => row.eventId = event with
  | none => throw (.notCommitted event)
  | some entry =>
    match (st.roots.filter fun row => entry.seq < row.treeSize).argmin RootRow.height with
    | none => throw (.notCommitted event)
    | some row =>
      let published ← st.publication row
      let leaves ← st.loadLeaves sha256
      if leaves.length < published.treeSize then throw .sliceIndex
      let front := leaves.take published.treeSize
      match proveInclusion sha256 front entry.seq, front[entry.seq]? with
      | .error e, _ => throw (.proof e)
      | .ok _, none => throw .sliceIndex
      | .ok proof, some leaf => return ⟨event, leaf, published.root, published.height, proof⟩

/-- The loop of `verify_root_chain`. -/
def auditRows (st : Store) (leaves : List LeafHash) :
    List RootRow → Option RootPublication → ChainAudit → Except AnchorError ChainAudit
  | [], _, audit => .ok audit
  | row :: rows, prev, audit => do
    let published ← st.publication row
    if leaves.length < published.treeSize then
      throw (.rootMismatch published.height published.root.bytes)
    if merkleRoot sha256 (leaves.take published.treeSize) ≠ published.root then
      throw (.rootMismatch published.height published.root.bytes)
    let audit := { audit with
      rootsChecked := audit.rootsChecked + 1
      unrecorded := audit.unrecorded + if published.moment.isNone then 1 else 0 }
    match prev with
    | none => auditRows st leaves rows (some published) audit
    | some prev =>
      if published.consistency.any fun proof => proof.verify sha256 prev.root published.root then
        auditRows st leaves rows (some published)
          { audit with proofsVerified := audit.proofsVerified + 1 }
      else throw (.consistencyBroken published.height)

/-- `verify_root_chain`. -/
def verifyRootChain (st : Store) : Except AnchorError ChainAudit := do
  let leaves ← st.loadLeaves sha256
  auditRows sha256 st leaves (st.roots.mergeSort fun a b => a.height ≤ b.height) none
    ⟨0, 0, leaves.length, 0⟩

end Store

end Clockchain.Anchor
