import Clockchain.V1.Encoding

/-!
# v0 events

The event types of `cc-core/src/lib.rs`, the canonical preimage `canon_event` writes, the
identity over it and `parse_event`, which reads an event back from its stored payload and
the envelope columns the payload does not carry.
-/

namespace Clockchain.V0
open Codec Programs
open V1 (Hash BTreeMap Crypto Verify)
set_option autoImplicit false

/-! ## Coordinates -/

/-- `I256`: a signed count of sub-ticks. -/
abbrev Tick := BitVec 256

def signBit : Tick := 1 <<< 255

/-- `to_canon_bytes`: the sign bit flipped, as the value of the big-endian bytes. -/
def Tick.toCanon (t : Tick) : Hash := t ^^^ signBit

def Tick.ofCanon (b : Hash) : Tick := b ^^^ signBit

/-- `2^255 - 1`. -/
def sentinel : Tick := ~~~ signBit

/-- `sign(event_time - record_time)`. -/
def Tick.posture (t recordTime : Tick) : Int :=
  if t.slt recordTime then -1 else if t = recordTime then 0 else 1

/-! ## Windows -/

inductive WindowStart where
  | known (t : Tick)
  | unknown
  deriving Repr, DecidableEq

inductive WindowEnd where
  | knownOpen
  | knownClosed (t : Tick)
  | unknownClosure
  deriving Repr, DecidableEq

inductive ClosureState where
  | knownOpen | knownClosed | unknownClosure
  deriving Repr, DecidableEq

inductive StartState where
  | known | unknown
  deriving Repr, DecidableEq

structure ExistenceWindow where
  start : WindowStart
  finish : WindowEnd
  deriving Repr, DecidableEq

namespace ExistenceWindow

def storedEnd (w : ExistenceWindow) : Tick :=
  match w.finish with
  | .knownClosed t => t
  | .knownOpen | .unknownClosure => sentinel

def storedStart (w : ExistenceWindow) : Tick :=
  match w.start with
  | .known t => t
  | .unknown => sentinel

def closureState (w : ExistenceWindow) : ClosureState :=
  match w.finish with
  | .knownOpen => .knownOpen
  | .knownClosed _ => .knownClosed
  | .unknownClosure => .unknownClosure

def startState (w : ExistenceWindow) : StartState :=
  match w.start with
  | .known _ => .known
  | .unknown => .unknown

def fromStored (startState : StartState) (storedStart : Tick) (closure : ClosureState)
    (storedEnd : Tick) : ExistenceWindow where
  start := match startState with
    | .known => .known storedStart
    | .unknown => .unknown
  finish := match closure with
    | .knownOpen => .knownOpen
    | .knownClosed => .knownClosed storedEnd
    | .unknownClosure => .unknownClosure

end ExistenceWindow

/-! ## Events -/

inductive EventKind where
  | entityCreate | moment | edge | attestation | vocabularyDeclare
  deriving Repr, DecidableEq

inductive EdgeRelation where
  | coOccurrence | influence | causation | participation | attestation | supersession
  deriving Repr, DecidableEq

inductive EvidenceClass where
  | primaryDocument | secondarySource | inference | assertion
  deriving Repr, DecidableEq

/-- `i64`, author-chosen. -/
abbrev EntityId := BitVec 64

structure VocabularyEntry where
  claimType : BitVec 32
  label : String
  band : ExistenceWindow
  deriving Repr, DecidableEq

structure EntityBirth where
  entityId : EntityId
  resolutionKey : String
  canonicalName : String
  window : ExistenceWindow
  deriving Repr, DecidableEq

structure MomentBody where
  subject : EntityId
  bodyHash : Hash
  deriving Repr, DecidableEq

structure EdgeBody where
  src : EntityId
  dst : EntityId
  relation : EdgeRelation
  evidenceClass : EvidenceClass
  deriving Repr, DecidableEq

structure AttestationBody where
  target : Hash
  deriving Repr, DecidableEq

inductive EventBody where
  | entityCreate (e : EntityBirth)
  | moment (m : MomentBody)
  | edge (ed : EdgeBody)
  | attestation (a : AttestationBody)
  | vocabularyDeclare (v : VocabularyEntry)
  deriving Repr, DecidableEq

def EventBody.kind : EventBody → EventKind
  | .vocabularyDeclare _ => .vocabularyDeclare
  | .entityCreate _ => .entityCreate
  | .moment _ => .moment
  | .edge _ => .edge
  | .attestation _ => .attestation

/-- `author` is the 32 bytes of a verifying key. -/
structure EventContent where
  eventTime : Tick
  recordTime : Tick
  author : Hash
  supersedes : Option Hash
  body : EventBody
  deriving Repr, DecidableEq

/-! ## The canonical preimage -/

/-- `canonField` is the panic of `framed`. -/
inductive CoreError where
  | badKey | malformedPayload | canonField
  deriving Repr, DecidableEq

def legacyCanonVersion : BitVec 16 := 0
def constantsVersion : BitVec 16 := 0

abbrev CanonFormat (α : Type) := Format CoreError α

def u8 : CanonFormat (BitVec 8) := number .malformedPayload 1
def u16 : CanonFormat (BitVec 16) := number .malformedPayload 2
def u32 : CanonFormat (BitVec 32) := number .malformedPayload 4
def i64 : CanonFormat EntityId := number .malformedPayload 8
def arr32 : CanonFormat Hash := number .malformedPayload 32
def tick : CanonFormat Tick := arr32.record Tick.ofCanon Tick.toCanon

/-- `u32_be(len(x)) || x`. -/
def framed : CanonFormat Bytes where
  put x :=
    if x.length ≥ 2 ^ 32 then .error .canonField
    else fields [u32.put (BitVec.ofNat 32 x.length), .ok x]
  get := do take .malformedPayload (← u32.get).toNat

/-- A `String` field. -/
def text : CanonFormat String where
  put s := framed.put s.toUTF8.data.toList
  get := do
    match String.fromUTF8? ⟨(← framed.get).toArray⟩ with
    | some s => return s
    | none => throw .malformedPayload

/-- A discriminant byte. -/
def tag {α : Type} [DecidableEq α] (table : List α) : CanonFormat α where
  put a := u8.put (BitVec.ofNat 8 (table.idxOf a))
  get := do
    match table[(← u8.get).toNat]? with
    | some a => return a
    | none => throw .malformedPayload

def closureState : CanonFormat ClosureState := tag [.knownOpen, .knownClosed, .unknownClosure]

def startState : CanonFormat StartState := tag [.known, .unknown]

def edgeRelation : CanonFormat EdgeRelation :=
  tag [.coOccurrence, .influence, .causation, .participation, .attestation, .supersession]

def evidenceClass : CanonFormat EvidenceClass :=
  tag [.primaryDocument, .secondarySource, .inference, .assertion]

/-- Both discriminants and both stored coordinates. -/
def window : CanonFormat ExistenceWindow :=
  (closureState.pair (startState.pair (tick.pair tick))).record
    (fun (closure, start, storedStart, storedEnd) =>
      .fromStored start storedStart closure storedEnd)
    fun w => (w.closureState, w.startState, w.storedStart, w.storedEnd)

def supersedesFlag : CanonFormat (Option Hash) :=
  .optional (tag [false, true]) arr32

def dstEntity : String := "cc.entity.v0"
def dstMoment : String := "cc.moment.v0"
def dstEdge : String := "cc.edge.v0"
def dstAttest : String := "cc.attestation.v0"
def dstVocab : String := "cc.vocabulary.v0"

def EventBody.dst : EventBody → String
  | .entityCreate _ => dstEntity
  | .moment _ => dstMoment
  | .edge _ => dstEdge
  | .attestation _ => dstAttest
  | .vocabularyDeclare _ => dstVocab

def putBody : EventBody → Except CoreError Bytes
  | .entityCreate e =>
    fields [i64.put e.entityId, text.put e.resolutionKey, text.put e.canonicalName,
      window.put e.window]
  | .moment m => fields [i64.put m.subject, arr32.put m.bodyHash]
  | .edge ed =>
    fields [i64.put ed.src, i64.put ed.dst, edgeRelation.put ed.relation,
      evidenceClass.put ed.evidenceClass]
  | .vocabularyDeclare v => fields [u32.put v.claimType, text.put v.label, window.put v.band]
  | .attestation _ => .ok []

/-- An attestation is its target, author and record time; every other kind is its event
time, lineage and body. -/
def canonFields (c : EventContent) : Except CoreError Bytes :=
  match c.body with
  | .attestation a => fields [arr32.put a.target, arr32.put c.author, tick.put c.recordTime]
  | body => fields [tick.put c.eventTime, supersedesFlag.put c.supersedes, putBody body]

def canonEvent (c : EventContent) : Except CoreError Bytes :=
  fields [framed.put c.body.dst.toUTF8.data.toList, u16.put legacyCanonVersion,
    u16.put constantsVersion, canonFields c]

/-- `h0`. -/
def h0 (cr : Crypto) (canon : Bytes) : Hash := cr.sha256 canon

/-! ## Reading a payload -/

def getBody (dst : Bytes) : Reader CoreError EventBody :=
  if dst = dstEntity.toUTF8.data.toList then do
    return .entityCreate ⟨← i64.get, ← text.get, ← text.get, ← window.get⟩
  else if dst = dstMoment.toUTF8.data.toList then do
    return .moment ⟨← i64.get, ← arr32.get⟩
  else if dst = dstEdge.toUTF8.data.toList then do
    return .edge ⟨← i64.get, ← i64.get, ← edgeRelation.get, ← evidenceClass.get⟩
  else if dst = dstVocab.toUTF8.data.toList then do
    return .vocabularyDeclare ⟨← u32.get, ← text.get, ← window.get⟩
  else throw .malformedPayload

def getContent (cr : Crypto) (eventTime recordTime : Tick) (author : Hash) :
    Reader CoreError EventContent := do
  let dst ← framed.get
  let _ ← u16.get
  let _ ← u16.get
  if dst = dstAttest.toUTF8.data.toList then
    let target ← arr32.get
    let author ← arr32.get
    if !cr.authorKey author then throw .badKey
    let recordTime ← tick.get
    return ⟨eventTime, recordTime, author, none, .attestation ⟨target⟩⟩
  else
    let eventTime ← tick.get
    let supersedes ← supersedesFlag.get
    return ⟨eventTime, recordTime, author, supersedes, ← getBody dst⟩

def parseEvent (cr : Crypto) (payload : Bytes) (eventTime recordTime : Tick) (author : Hash) :
    Except CoreError EventContent := do
  let (content, rest) ← (getContent cr eventTime recordTime author).run payload
  if !rest.isEmpty then throw .malformedPayload
  return content

end Clockchain.V0
