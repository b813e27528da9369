import Clockchain.Frames
import Clockchain.Queues
import Clockchain.V0.Reach
import Clockchain.V0.Ticks

/-!
# Snapshots

`SnapshotCorpus` of `cc-filter/src/snapshot.rs`: records are folded into ordered indexes, the
digest is taken over their canonical fields, and the evidence view reads them at a coordinate.
-/

namespace Clockchain.V0
open Codec
open V1 (Hash hashBytes)
set_option autoImplicit false

/-! ## Records -/

inductive Ruling where
  | valid
  | outsideValidity (bandEnd : Tick)
  deriving Repr, DecidableEq

inductive Record where
  | coOccurrence (a b : EntityId) (at_ : Tick) (via : Hash)
  | window (entity : EntityId) (recordedAt : Tick) (via : Hash) (start : WindowStart)
      (finish : WindowEnd)
  | admissibility (claim : ClaimType) (recordedAt : Tick) (via : Hash) (ruling : Ruling)
  deriving Repr, DecidableEq

inductive SnapshotError where
  | selfCoOccurrence (entity : EntityId)
  | contradictoryRecord (recordedAt : Tick) (via : Hash)
  deriving Repr, DecidableEq

/-! ## Keys -/

/-- The order of tuples, by a key that shows all their fields. -/
def keyCmp {α κ : Type} [LinearOrder κ] (key : α → κ) (a b : α) : Ordering :=
  compare (key a) (key b)

section
variable {α κ : Type} [LinearOrder κ] {key : α → κ}

instance transCmpKey : Std.TransCmp (keyCmp key) where
  eq_swap := @fun _ _ => @Std.OrientedCmp.eq_swap _ (compare : κ → κ → Ordering) _ _ _
  isLE_trans := @fun _ _ _ => @Std.TransCmp.isLE_trans _ (compare : κ → κ → Ordering) _ _ _ _

theorem lawfulEqCmp_key (h : Function.Injective key) : Std.LawfulEqCmp (keyCmp key) where
  eq_of_compare heq := h (Std.LawfulEqCmp.eq_of_compare heq)

end

/-- An edge of the record set, the lesser entity first. -/
structure Pair where
  lo : EntityId
  hi : EntityId
  at_ : Tick
  via : Hash
  deriving Repr, DecidableEq

def Pair.key (p : Pair) : Int ×ₗ Int ×ₗ Int ×ₗ Nat :=
  toLex (p.lo.toInt, toLex (p.hi.toInt, toLex (p.at_.toInt, p.via.toNat)))

/-- A neighbour, with the coordinate last. -/
structure Neighbour where
  other : EntityId
  via : Hash
  at_ : Tick
  deriving Repr, DecidableEq

def Neighbour.key (n : Neighbour) : Int ×ₗ Nat ×ₗ Int :=
  toLex (n.other.toInt, toLex (n.via.toNat, n.at_.toInt))

/-- A piece of evidence: when it was recorded, and its event. -/
abbrev Evidence := Tick × Hash

def evidenceKey (e : Evidence) : Int ×ₗ Nat := toLex (e.1.toInt, e.2.toNat)

theorem Pair.key_injective : Function.Injective Pair.key := by
  rintro ⟨lo, hi, at_, via⟩ ⟨lo', hi', at', via'⟩ h
  obtain ⟨hlo, h⟩ := Prod.mk.inj (toLex_inj.mp h)
  obtain ⟨hhi, h⟩ := Prod.mk.inj (toLex_inj.mp h)
  obtain ⟨hat, hvia⟩ := Prod.mk.inj (toLex_inj.mp h)
  obtain rfl : lo = lo' := BitVec.toInt_inj.mp hlo
  obtain rfl : hi = hi' := BitVec.toInt_inj.mp hhi
  obtain rfl : at_ = at' := BitVec.toInt_inj.mp hat
  obtain rfl : via = via' := BitVec.toNat_inj.mp hvia
  rfl

theorem Neighbour.key_injective : Function.Injective Neighbour.key := by
  rintro ⟨other, via, at_⟩ ⟨other', via', at'⟩ h
  obtain ⟨hother, h⟩ := Prod.mk.inj (toLex_inj.mp h)
  obtain ⟨hvia, hat⟩ := Prod.mk.inj (toLex_inj.mp h)
  obtain rfl : other = other' := BitVec.toInt_inj.mp hother
  obtain rfl : via = via' := BitVec.toNat_inj.mp hvia
  obtain rfl : at_ = at' := BitVec.toInt_inj.mp hat
  rfl

theorem evidenceKey_injective : Function.Injective evidenceKey := by
  rintro ⟨recordedAt, via⟩ ⟨recordedAt', via'⟩ h
  obtain ⟨hat, hvia⟩ := Prod.mk.inj (toLex_inj.mp h)
  obtain rfl : recordedAt = recordedAt' := BitVec.toInt_inj.mp hat
  obtain rfl : via = via' := BitVec.toNat_inj.mp hvia
  rfl

instance transCmpPair : Std.TransCmp (keyCmp Pair.key) := transCmpKey
instance transCmpNeighbour : Std.TransCmp (keyCmp Neighbour.key) := transCmpKey
instance transCmpEvidence : Std.TransCmp (keyCmp evidenceKey) := transCmpKey
instance lawfulPair : Std.LawfulEqCmp (keyCmp Pair.key) := lawfulEqCmp_key Pair.key_injective
instance lawfulNeighbour : Std.LawfulEqCmp (keyCmp Neighbour.key) :=
  lawfulEqCmp_key Neighbour.key_injective
instance lawfulEvidence : Std.LawfulEqCmp (keyCmp evidenceKey) :=
  lawfulEqCmp_key evidenceKey_injective

abbrev PairSet := Std.ExtTreeSet Pair (keyCmp Pair.key)
abbrev NeighbourSet := Std.ExtTreeSet Neighbour (keyCmp Neighbour.key)
abbrev EvidenceMap (β : Type) := Std.ExtTreeMap Evidence β (keyCmp evidenceKey)

/-! ## The projection -/

/-- The collections of a corpus. -/
structure Indexes where
  cooccurrence : PairSet
  adjacency : EntityMap NeighbourSet
  windows : EntityMap (EvidenceMap (WindowStart × WindowEnd))
  admissibility : ClaimTypeMap (EvidenceMap Ruling)

def Indexes.empty : Indexes := ⟨∅, ∅, ∅, ∅⟩

section Evidence
variable {κ β : Type} {cmp : κ → κ → Ordering} [Std.TransCmp cmp]

/-- `entry(k).or_default().insert((recorded_at, via), value)`, and the check of what was there. -/
def record [DecidableEq β] (index : Std.ExtTreeMap κ (EvidenceMap β) cmp) (k : κ)
    (recordedAt : Tick) (via : Hash) (value : β) :
    Except SnapshotError (Std.ExtTreeMap κ (EvidenceMap β) cmp) :=
  let perKey := index.getD k ∅
  let index := index.insert k (perKey.insert (recordedAt, via) value)
  match perKey[(recordedAt, via)]? with
  | some prev => if prev ≠ value then .error (.contradictoryRecord recordedAt via) else .ok index
  | none => .ok index

end Evidence

/-- `entry(entity).or_default().insert(neighbour)`. -/
def link (adjacency : EntityMap NeighbourSet) (entity : EntityId) (n : Neighbour) :
    EntityMap NeighbourSet :=
  adjacency.insert entity ((adjacency.getD entity ∅).insert n)

def Indexes.add (s : Indexes) : Record → Except SnapshotError Indexes
  | .coOccurrence a b at_ via =>
    if a = b then .error (.selfCoOccurrence a)
    else
      let lo := if a.slt b then a else b
      let hi := if a.slt b then b else a
      .ok { s with
        cooccurrence := s.cooccurrence.insert ⟨lo, hi, at_, via⟩
        adjacency := link (link s.adjacency lo ⟨hi, via, at_⟩) hi ⟨lo, via, at_⟩ }
  | .window entity recordedAt via start finish => do
    let windows ← record s.windows entity recordedAt via (start, finish)
    return { s with windows }
  | .admissibility claim recordedAt via ruling => do
    let admissibility ← record s.admissibility claim recordedAt via ruling
    return { s with admissibility }

/-! ## The digest -/

def tickField (t : Tick) : Bytes := t.toCanonBytes

def entityField (entity : EntityId) : Bytes := beBytes 8 entity.toNat

def startFields : WindowStart → List Bytes
  | .unknown => [[0]]
  | .known t => [[1], tickField t]

def endFields : WindowEnd → List Bytes
  | .knownOpen => [[0]]
  | .unknownClosure => [[1]]
  | .knownClosed t => [[2], tickField t]

def rulingFields : Ruling → List Bytes
  | .valid => [[0]]
  | .outsideValidity bandEnd => [[1], tickField bandEnd]

def pairFields (p : Pair) : List Bytes :=
  [entityField p.lo, entityField p.hi, tickField p.at_, hashBytes p.via]

/-- The entries of a nested index in order. -/
def rows {κ β : Type} {cmp : κ → κ → Ordering} [Std.TransCmp cmp]
    (index : Std.ExtTreeMap κ (EvidenceMap β) cmp) : List (κ × Evidence × β) :=
  index.toList.flatMap fun p => p.2.toList.map fun q => (p.1, q.1, q.2)

def windowFields (row : EntityId × Evidence × (WindowStart × WindowEnd)) : List Bytes :=
  [entityField row.1, tickField row.2.1.1, hashBytes row.2.1.2] ++
    startFields row.2.2.1 ++ endFields row.2.2.2

def claimFields (row : ClaimType × Evidence × Ruling) : List Bytes :=
  [beBytes 4 row.1.toNat, tickField row.2.1.1, hashBytes row.2.1.2] ++ rulingFields row.2.2

/-- The fields that `digest_of` frames. -/
def Indexes.fields (s : Indexes) : List Bytes :=
  "cc.filter.snapshot.v0".toUTF8.data.toList :: "cooccurrence".toUTF8.data.toList ::
    s.cooccurrence.toList.flatMap pairFields ++
  "windows".toUTF8.data.toList :: (rows s.windows).flatMap windowFields ++
  "admissibility".toUTF8.data.toList :: (rows s.admissibility).flatMap claimFields

/-- The bytes that are hashed. The `expect` of `framed` is on the length of one field, and none of
these has more than 32 bytes. -/
def Indexes.preimage (s : Indexes) : Bytes := s.fields.flatMap frame

structure SnapshotCorpus extends Indexes where
  digest : Hash

def fromRecords (cr : V1.Crypto) (records : List Record) :
    Except SnapshotError SnapshotCorpus := do
  let s ← records.foldlM Indexes.add .empty
  return ⟨s, cr.sha256 s.preimage⟩

def Indexes.records (s : Indexes) : List Record :=
  s.cooccurrence.toList.map (fun p => .coOccurrence p.lo p.hi p.at_ p.via) ++
  (rows s.windows).map (fun row => .window row.1 row.2.1.1 row.2.1.2 row.2.2.1 row.2.2.2) ++
  (rows s.admissibility).map fun row => .admissibility row.1 row.2.1.1 row.2.1.2 row.2.2

end Clockchain.V0
