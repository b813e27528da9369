import Clockchain.V1.Snapshot

/-!
# The snapshot cache

`serving.rs`: cache keys, the one-entry cache of a process, and the calls of `snapshot` and
`admit_observed` as their steps. Each step reads or writes the tables or one cache once, so any
interleaving of the steps of any number of calls is a run.
-/

namespace Clockchain.V1
open Codec
set_option autoImplicit false

/-- What a cached snapshot is keyed by. -/
structure CacheKey where
  rule : RuleId
  corpusDigest : Hash
  content : Hash
  deriving Repr, DecidableEq

/-- Ids and digests of the retained bytes, one after the other. -/
def contentOf (rows : List (Hash × Hash)) : Bytes :=
  rows.flatMap fun row => hashBytes row.1 ++ hashBytes row.2

def keyOf (cr : Crypto) (filter : FilterIdentity) (rows : List (Hash × Hash)) : CacheKey where
  rule := .of cr filter
  corpusDigest := corpusDigest cr (Std.ExtTreeSet.ofList (rows.map Prod.fst) compare).toList
  content := cr.sha256 (contentOf rows)

/-- The ids of the retained rows and the digests the database computes of them. -/
def probeRows (cr : Crypto) (t : Tables) : List (Hash × Hash) :=
  t.candidates.toList.map fun row => (row.1, cr.sha256 row.2)

def probe (cr : Crypto) (filter : FilterIdentity) (t : Tables) : CacheKey :=
  keyOf cr filter (probeRows cr t)

def foldedRows (cr : Crypto) (all : BTreeMap Decoded) : List (Hash × Hash) :=
  all.toList.map fun entry => (entry.1, cr.sha256 entry.2.bytes)

/-- `Inner`: one entry, the latest committed snapshot. -/
structure Cache where
  generation : BitVec 64
  entry : Option (CacheKey × Snapshot)

namespace Cache

def invalidate (c : Cache) : Cache := ⟨c.generation + 1, none⟩

def lookup (c : Cache) (key : CacheKey) : Option Snapshot :=
  match c.entry with
  | some (cached, s) => if cached = key then some s else none
  | none => none

/-- A fold that started under an older generation is not stored. -/
def fill (c : Cache) (generation : BitVec 64) (key : CacheKey) (s : Snapshot) : Cache :=
  if c.generation = generation then { c with entry := some (key, s) } else c

end Cache

/-! ## Calls -/

/-- A `Store` handle: clones share a cache, `uncached` has none. -/
structure Handle (P : Type) where
  rule : Option FilterIdentity
  cache : Option P

/-- Both `bind` and `open` refuse a filter this build does not govern. -/
def Handle.Opened {P : Type} (cr : Crypto) (h : Handle P) : Prop :=
  ∀ filter ∈ h.rule, filter.isGoverned cr = true

inductive Stage (P : Type) where
  | begun
  | ready (filter : FilterIdentity) (cache : P)
  | entered (filter : FilterIdentity) (cache : P) (generation : BitVec 64)
  | probed (filter : FilterIdentity) (cache : P) (generation : BitVec 64) (key : CacheKey)
  -- from here on without a slot if the cache is off
  | missed (filter : FilterIdentity) (slot : Option (P × BitVec 64))
  | verified (filter : FilterIdentity) (slot : Option (P × BitVec 64)) (all : BTreeMap Decoded)
  | folded (filter : FilterIdentity) (slot : Option (P × BitVec 64)) (all : BTreeMap Decoded)
    (s : Snapshot)
  | returned (result : Except StoreError Snapshot)
  | panicked

inductive AdmitStage where
  | begun
  | committed (result : Except StoreError (Outcome × Option SignedReceipt))
  | returned (result : Except StoreError (Outcome × Option SignedReceipt))
  | panicked

inductive Call (P : Type) where
  | idle
  | snapshot (handle : Handle P) (requested : Option FoldRef) (stage : Stage P)
  | admission (handle : Handle P) (bytes : Bytes) (node : Option SecretKey) (now : BitVec 64)
    (stage : AdmitStage)

/-- The store, the caches of its processes `P`, and the calls `ι` made on it. -/
structure System (P ι : Type) where
  tables : Tables
  caches : P → Cache
  calls : ι → Call P

section
variable {P : Type} [DecidableEq P] (cr : Crypto) (verify : Verify) (instanceId : Hash)

def Handle.store (h : Handle P) : Store := ⟨instanceId, h.rule⟩

def fillSlot (caches : P → Cache) (slot : Option (P × BitVec 64)) (key : CacheKey) (s : Snapshot) :
    P → Cache :=
  match slot with
  | none => caches
  | some (c, generation) => Function.update caches c ((caches c).fill generation key s)

def Stage.advance (t : Tables) (caches : P → Cache) (h : Handle P) (requested : Option FoldRef) :
    Stage P → (P → Cache) × Stage P
  | .begun => match (h.store instanceId).ready cr t requested, h.cache with
    | .error e, _ => (caches, .returned (.error e))
    | .ok filter, none => (caches, .missed filter none)
    | .ok filter, some c => (caches, .ready filter c)
  | .ready filter c => (caches, .entered filter c (caches c).generation)
  | .entered filter c generation =>
    (caches, .probed filter c generation (probe cr filter t))
  | .probed filter c generation key => match (caches c).lookup key with
    | some s => (caches, .returned (.ok s))
    | none => (caches, .missed filter (some (c, generation)))
  | .missed filter slot => match (h.store instanceId).verifiedCandidates cr verify t with
    | .error e => (caches, .returned (.error e))
    | .ok all => (caches, .verified filter slot all)
  | .verified filter slot all => match Snapshot.of cr filter (candidatesOf all) with
    | none => (caches, .panicked)
    | some s => (caches, .folded filter slot all s)
  | .folded filter slot all s =>
    (fillSlot caches slot (keyOf cr filter (foldedRows cr all)) s, .returned (.ok s))
  | .returned result => (caches, .returned result)
  | .panicked => (caches, .panicked)

/-- What every admission does to the cache of its handle, whatever its outcome. -/
def invalidateSlot (caches : P → Cache) : Option P → P → Cache
  | none => caches
  | some c => Function.update caches c (caches c).invalidate

/-- One step of `admit_observed`: the transaction commits or not, then the cache is invalidated. -/
def AdmitStage.advance (t : Tables) (caches : P → Cache) (h : Handle P) (bytes : Bytes)
    (node : Option SecretKey) (now : BitVec 64) : AdmitStage → Tables × (P → Cache) × AdmitStage
  | .begun => match (h.store instanceId).admitOnce cr verify t bytes node now with
    | none => (t, caches, .panicked)
    | some (.error e) => (t, caches, .committed (.error e))
    | some (.ok a) => (a.tables, caches, .committed (.ok (a.outcome, a.receipt)))
  | .committed result => (t, invalidateSlot caches h.cache, .returned result)
  | .returned result => (t, caches, .returned result)
  | .panicked => (t, caches, .panicked)

variable {ι : Type} [DecidableEq ι]

def System.advance (s : System P ι) (i : ι) : System P ι :=
  match s.calls i with
  | .idle => s
  | .snapshot h requested stage =>
    let (caches, stage) := stage.advance cr verify instanceId s.tables s.caches h requested
    { s with caches, calls := Function.update s.calls i (.snapshot h requested stage) }
  | .admission h bytes node now stage =>
    let (tables, caches, stage) :=
      stage.advance cr verify instanceId s.tables s.caches h bytes node now
    ⟨tables, caches, Function.update s.calls i (.admission h bytes node now stage)⟩

/-- A call begins, or one that has begun takes its next step. -/
inductive System.Step (s : System P ι) : System P ι → Prop where
  | snapshot (i : ι) (h : Handle P) (requested : Option FoldRef) : s.calls i = .idle →
      h.Opened cr → Step s { s with
        calls := Function.update s.calls i (.snapshot h requested .begun) }
  | admission (i : ι) (h : Handle P) (bytes : Bytes) (node : Option SecretKey) (now : BitVec 64) :
      s.calls i = .idle → h.Opened cr → Step s { s with
        calls := Function.update s.calls i (.admission h bytes node now .begun) }
  | advance (i : ι) : Step s (System.advance cr verify instanceId s i)

/-- No call has begun and nothing is cached; the tables are any tables. -/
structure System.Initial (s : System P ι) : Prop where
  idle : ∀ i, s.calls i = .idle
  empty : ∀ c, (s.caches c).entry = none

/-- Any number of calls, their steps interleaved in any way. -/
structure System.Run (σ : Nat → System P ι) : Prop where
  initial : (σ 0).Initial
  step : ∀ n, System.Step cr verify instanceId (σ n) (σ (n + 1))

end

end Clockchain.V1
