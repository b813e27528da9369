import Clockchain.V0.Ledger

/-!
# The evidence view

The `CorpusView` seam of `cc-filter/src/view.rs` and `PgCorpusView`, the queries of
`cc-node/src/view.rs` that implement it over the projection tables.
-/

namespace Clockchain.V0
open Codec
open V1 (Hash BTreeMap)
set_option autoImplicit false

inductive ViewError where
  | backend (what : String)
  | decode (what : String)
  deriving Repr, DecidableEq

structure Edge where
  other : EntityId
  via : Hash
  deriving Repr, DecidableEq

/-- The derived order: `other`, then `via`. -/
def Edge.order (e : Edge) : Int ×ₗ Nat := toLex (e.other.toInt, e.via.toNat)

def Edge.sort (edges : List Edge) : List Edge :=
  edges.mergeSort fun a b => a.order ≤ b.order

structure Windowed where
  start : WindowStart
  finish : WindowEnd
  derivedFrom : List Hash
  deriving Repr, DecidableEq

def Windowed.unrecorded : Windowed := ⟨.unknown, .unknownClosure, []⟩

inductive Admitted where
  | valid (derivedFrom : List Hash)
  | unrecorded
  | outsideValidity (bandEnd : Tick) (derivedFrom : List Hash)
  deriving Repr, DecidableEq

abbrev ClaimType := BitVec 32

/-- The trait; `asOf` is the second argument of every read. -/
structure CorpusView where
  neighbors : EntityId → Tick → Except ViewError (List Edge)
  neighborsMany : List EntityId → Tick → Except ViewError (EntityMap (List Edge))
  window : EntityId → Tick → Except ViewError Windowed
  admissibility : ClaimType → Tick → Except ViewError Admitted
  corpusDigest : Hash

/-! ## The queries -/

/-- `neighbors_at`. -/
def Tables.neighborsAt (t : Tables) (entity : EntityId) (asOf : Tick) : List Edge :=
  let bound := asOf.toCanon
  let outgoing := t.edges.toList.filterMap fun row =>
    if row.2.srcEntity = entity ∧ row.2.eventTime ≤ bound then some ⟨row.2.dstEntity, row.1⟩
    else none
  let incoming := t.edges.toList.filterMap fun row =>
    if row.2.dstEntity = entity ∧ row.2.eventTime ≤ bound then some ⟨row.2.srcEntity, row.1⟩
    else none
  Edge.sort (outgoing ++ incoming)

/-- The rows of the query of `neighbors_many_at`, the anchor first. -/
def Tables.neighborRows (t : Tables) (entities : List EntityId) (asOf : Tick) :
    List (EntityId × Edge) :=
  let bound := asOf.toCanon
  let outgoing := t.edges.toList.filterMap fun row =>
    if row.2.srcEntity ∈ entities ∧ row.2.eventTime ≤ bound then
      some (row.2.srcEntity, ⟨row.2.dstEntity, row.1⟩)
    else none
  let incoming := t.edges.toList.filterMap fun row =>
    if row.2.dstEntity ∈ entities ∧ row.2.eventTime ≤ bound then
      some (row.2.dstEntity, ⟨row.2.srcEntity, row.1⟩)
    else none
  outgoing ++ incoming

/-- `out.entry(anchor).or_default().push(edge)`. -/
def push (out : EntityMap (List Edge)) (row : EntityId × Edge) : EntityMap (List Edge) :=
  out.insert row.1 (out.getD row.1 [] ++ [row.2])

/-- `decode_window`, on the discriminants and widths the table admits. -/
def EntityRow.decodeWindow (row : EntityRow) : Windowed where
  start := match row.startState with
    | .known => .known (.ofCanon row.windowStart)
    | .unknown => .unknown
  finish := match row.closureState with
    | .knownOpen => .knownOpen
    | .knownClosed => .knownClosed (.ofCanon row.windowEnd)
    | .unknownClosure => .unknownClosure
  derivedFrom := [row.birthEvent]

/-- `window_at`. -/
def Tables.windowAt (t : Tables) (entity : EntityId) (asOf : Tick) : Windowed :=
  match t.entities[entity]? with
  | none => .unrecorded
  | some row => if row.birthEventTime ≤ asOf.toCanon then row.decodeWindow else .unrecorded

/-- What a declaration says at `asOf`. -/
def VocabularyRow.admittedAt (row : VocabularyRow) (asOf : Tick) : Admitted :=
  match row.startState with
  | .unknown => .unrecorded
  | .known =>
    if asOf.slt (Tick.ofCanon row.bandStart) then .unrecorded
    else if row.closureState = .knownClosed ∧ (Tick.ofCanon row.bandEnd).slt asOf then
      .outsideValidity (.ofCanon row.bandEnd) [row.declaredBy]
    else .valid [row.declaredBy]

/-- `admissibility_at`. -/
def Tables.admissibilityAt (t : Tables) (c : ClaimType) (asOf : Tick) : Admitted :=
  match t.vocabulary[c]? with
  | none => .unrecorded
  | some row => row.admittedAt asOf

/-- The view of one request. `scan` is the order in which the database returns the rows of a
query that asks for none. -/
structure PgCorpusView where
  tables : Tables
  digest : Hash
  scan : List EntityId → Tick → List (EntityId × Edge) → List (EntityId × Edge)
  scanned : ∀ entities asOf rows, (scan entities asOf rows).Perm rows

namespace PgCorpusView

def neighborsManyAt (v : PgCorpusView) (entities : List EntityId) (asOf : Tick) :
    EntityMap (List Edge) :=
  if entities.isEmpty then ∅
  else (v.scan entities asOf (v.tables.neighborRows entities asOf)).foldl push ∅

def corpusView (v : PgCorpusView) : CorpusView where
  neighbors entity asOf := .ok (v.tables.neighborsAt entity asOf)
  neighborsMany entities asOf := .ok (v.neighborsManyAt entities asOf)
  window entity asOf := .ok (v.tables.windowAt entity asOf)
  admissibility c asOf := .ok (v.tables.admissibilityAt c asOf)
  corpusDigest := v.digest

end PgCorpusView

end Clockchain.V0
