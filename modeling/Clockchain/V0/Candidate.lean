import Clockchain.V0.Document
import Clockchain.V0.Ledger
import Clockchain.V1.Publisher

/-!
# Candidates

The identities and coordinates of `cc-authoring/src/lib.rs` and the checks of a candidate in
`cc-publisher/src/lib.rs`.
-/

namespace Clockchain.V0.Publisher
open Codec
open V1 (Hash BTreeMap Crypto Verify)
open V1.Publisher (isWhitespace)
set_option autoImplicit false

/-! ## Authoring -/

/-- `to_lowercase`, of which only ASCII is kept: outside ASCII the Kelvin sign and the dotted
capital I have an ASCII letter in their lower case. -/
def toLowercase (c : Char) : Text :=
  if c.toNat = 0x212A then ['k']
  else if c.toNat = 0x130 then ['i', Char.ofNat 0x307]
  else [c.toLower]

def pushKey (key : Text) (c : Char) : Text :=
  if c.isAlphanum then key ++ [c] else if key.getLast? = some ' ' then key else key ++ [' ']

/-- `str::trim` of a key. -/
def trimKey (key : Text) : Text := Words.strip (· = ' ') key

def claimKey (title : String) (year : Int) : Text :=
  trimKey ((title.toList.flatMap toLowercase).foldl pushKey []) ++ '|' :: decimal year

def claimIdentity (cr : Crypto) (title : String) (year : Int) : EntityId × Hash :=
  let d := cr.sha256 (claimKey title year).bytes
  let id : EntityId := (d >>> 192).setWidth 64 &&& 0x3fffffffffffffff
  (if id = 0 then 1 else id, d)

def unixToJ2000Secs : Int := 946728000

/-- `Tick::from_whole_ticks` at the split of the constants. -/
def wholeTicks (whole : Int) : Tick := BitVec.ofInt 256 whole <<< 64

/-- `year_tick`: Hinnant's days of 1 January. The product overflows thirty years before the seconds
do, which is left out. -/
def yearTick (year : Int) : Tick :=
  let y := year - 1
  let era := (if 0 ≤ y then y else y - 399).tdiv 400
  let yoe := y - era * 400
  let mp := (1 + 9) % 12
  let doy := (153 * mp + 2) / 5 + 1 - 1
  let doe := yoe * 365 + yoe / 4 - yoe / 100 + doy
  let days := era * 146097 + doe - 719468
  wholeTicks (days * 86400 - unixToJ2000Secs)

/-- `body_hash`. -/
def claimBodyHash (cr : Crypto) (kind payload : Text) : Hash :=
  cr.sha256 (beBytes 4 kind.bytes.length ++ kind.bytes ++ beBytes 4 payload.bytes.length ++
    payload.bytes)

/-- `claim_code`. -/
def claimCode (cr : Crypto) (label : String) : BitVec 32 :=
  let n : BitVec 32 := (cr.sha256 (Text.bytes label.toList) >>> 224).setWidth 32
  if n = 0 then 1 else n

/-! ## Checks -/

structure Rejection where
  rule : String
  detail : String
  deriving Repr, DecidableEq

/-- `refused` is a text of `bail!`, `ensure!` or `context`; `hex`, `io` and `utf8` are errors
of the libraries that a check passes on. -/
inductive PublisherError where
  | refused (text : String)
  | admission (rejections : List (Nat × Rejection))
  | hex | io | utf8 | db
  | core (e : CoreError)
  | ledger (e : LedgerError)
  deriving Repr, DecidableEq

/-- What a check reads besides the candidate: the admission gate, whose tables the build
generates, and the files. -/
structure Host where
  admitBatch : List Value → List (Nat × Rejection)
  read : String → Option Bytes

abbrev Checked := Except PublisherError

def ensure (c : Bool) (text : String) : Checked Unit :=
  if c then .ok () else .error (.refused text)

def context {α : Type} (x : Option α) (text : String) : Checked α :=
  match x with
  | some a => .ok a
  | none => .error (.refused text)

def digest (cr : Crypto) (bytes : Bytes) : Hash := cr.sha256 bytes

/-- `string`: a text that is more than white space. -/
def string (v : Value) (key : String) : Checked String :=
  context ((v.get key).asStr.filter fun s => !s.toList.all isWhitespace) ("missing " ++ key)

def decodeHex (s : String) : Checked Bytes :=
  match hexDecode s.toList with
  | some bytes => .ok bytes
  | none => .error .hex

section Checks
variable (cr : Crypto) (host : Host)

/-- `std::fs::read`. -/
def readFile (path text : String) : Checked Bytes := context (host.read path) text

/-- `from_utf8` and `contains`. -/
def capturedExcerpt (retained : Bytes) (excerpt : String) : Checked Bool :=
  match String.fromUTF8? ⟨retained.toArray⟩ with
  | none => .error .utf8
  | some _ => .ok (decide (Text.bytes excerpt.toList <:+: retained))

/-- One row of `source_profile`: what it supports. -/
def sourceRow (row : Value) : Checked (List String) := do
  let url ← string row "url"
  let rest := url.toList.drop 8
  ensure ("https://".toList.isPrefixOf url.toList && !rest.isEmpty && !rest.contains '@')
    "source URL must be HTTPS without credentials"
  let _ ← string row "retrieved_at"
  let excerpt ← string row "excerpt"
  let _ ← string row "license"
  let _ ← string row "locator"
  let _ ← string row "publisher"
  let retained ← readFile host (← string row "capture_path") "read retained source capture"
  let expected ← decodeHex (← string row "content_sha256")
  ensure (expected.length = 32 && asBytes (digest cr retained) = expected)
    "retained source hash mismatch"
  ensure (← capturedExcerpt retained excerpt) "evidence excerpt is not present in retained source"
  let supports ← context (row.get "supports").asArray "supports array missing"
  supports.mapM fun item => context item.asStr "supports must contain strings"

def sourceProfile (v : Value) (required : List String) : Checked Unit := do
  let rows ← context v.asArray "source evidence must be array"
  ensure (!rows.isEmpty) "source evidence empty"
  let supported := (← rows.mapM (sourceRow cr host)).flatten
  required.forM fun field =>
    ensure (supported.contains field) ("source evidence does not support " ++ field)

def daysOf (leap : Bool) : List Nat :=
  [31, if leap then 29 else 28, 31, 30, 31, 30, 31, 31, 30, 31, 30, 31]

/-- The number some digits write. -/
def digits (text : Text) : Nat := text.foldl (fun n c => 10 * n + (c.toNat - 48)) 0

/-- The coordinate of `YYYY-MM-DD` in `year`. -/
def dayTick (year : Int) (date : Text) : Checked Tick := do
  ensure (date.length = 10 && date[4]? = some '-' && date[7]? = some '-' &&
      (date.take 4 ++ (date.drop 5).take 2 ++ date.drop 8).all Char.isDigit)
    "event_date must be YYYY-MM-DD"
  let y := digits (date.take 4)
  let month := digits ((date.drop 5).take 2)
  let day := digits (date.drop 8)
  ensure (y = year && 1 ≤ y && y ≤ 2100) "event_date year must match entry year"
  ensure (1 ≤ month && month ≤ 12) "invalid event_date month"
  let leap := y % 4 = 0 && (y % 100 ≠ 0 || y % 400 = 0)
  let days := daysOf leap
  ensure (1 ≤ day && day ≤ days.getD (month - 1) 0) "invalid event_date day"
  let offset : Int := ((days.take (month - 1)).sum + day - 1) * 86400
  return yearTick year + wholeTicks offset

def entryCoordinate (entry : Value) : Checked Tick := do
  let year ← context (entry.get "year").asI64 "entry year missing"
  let provenance := entry.get "prov_asserted"
  match provenance.get? "event_date" with
  | none =>
    ensure ((provenance.get? "date_precision").isNone ||
      (provenance.get "date_precision").asStr = some "year") "day precision requires event_date"
    return yearTick year
  | some date =>
    ensure ((provenance.get "date_precision").asStr = some "day")
      "event_date requires day precision"
    dayTick year (← context date.asStr "event_date must be YYYY-MM-DD").toList

def endpoint (v : Value) : Checked (EntityId × Int) := do
  let year ← context (v.get "year").asI64 "edge endpoint year missing"
  return ((claimIdentity cr (← string v "title") year).1, year)

def relation (v : Value) : Checked EdgeRelation := do
  match ← string v "relation" with
  | "influence" => return .influence
  | "causation" => return .causation
  | "participation" => return .participation
  | "co_occurrence" => return .coOccurrence
  | _ => throw (.refused "unsupported edge relation")

def evidenceClass (v : Value) : Checked EvidenceClass := do
  match ← string v "evidence_class" with
  | "PrimaryDocument" => return .primaryDocument
  | "SecondarySource" => return .secondarySource
  | "Inference" => return .inference
  | "Assertion" => return .assertion
  | _ => throw (.refused "unknown evidence class")

/-- `Causation | Influence`. -/
def causal (r : EdgeRelation) : Bool := r = .causation || r = .influence

def sourceSupport (e : Value) : Checked Unit := do
  let support := (e.get "prov_asserted").get "source_support"
  ensure ((support.get "schema").asStr = some "cc.source-support.v1")
    "source support schema missing"
  let kind ← string support "support_kind"
  ensure (["observed", "attributed_announcement"].contains kind) "unsupported source support kind"
  let _ ← string support "claim"
  let _ ← string support "rationale"
  let sources ← context ((e.get "prov_measured").get "source_evidence").asArray "sources missing"
  let urls ← context (support.get "source_urls").asArray "source support URLs missing"
  ensure (!urls.isEmpty) "source support URLs empty"
  urls.forM fun url =>
    ensure (url.asStr.isSome && sources.any fun s => (s.get "url").asStr = url.asStr)
      "support references uncaptured source"

/-- One entry of `validate_candidate`: its identity and coordinate. -/
def validateEntry (e : Value) : Checked (EntityId × Tick) := do
  let measured := e.get "prov_measured"
  ensure ((measured.get "source_evidence_schema").asStr = some "cc.source-evidence.v1")
    "source schema missing"
  sourceProfile cr host (measured.get "source_evidence") ["title", "year", "summary"]
  sourceSupport e
  let at_ ← entryCoordinate e
  if ((e.get "prov_asserted").get? "event_date").isSome then
    sourceProfile cr host (measured.get "source_evidence") ["date"]
  let title ← string e "title"
  let year ← context (e.get "year").asI64 "entry year missing"
  return ((claimIdentity cr title year).1, at_)

/-- One edge of `validate_candidate`; the keys of `coordinates` are its `ids`. -/
def validateEdge (coordinates : EntityMap Tick) (e : Value) : Checked Unit := do
  let (src, sy) ← endpoint cr (e.get "from")
  let (dst, dy) ← endpoint cr (e.get "to")
  let _ ← string e "rationale"
  let _ ← evidenceClass e
  let r ← relation e
  if causal r then ensure (sy ≤ dy) "cause follows effect"
  ensure (src ≠ dst) "self edge refused"
  match coordinates[src]?, coordinates[dst]? with
  | some s, some d =>
    if causal r then ensure (!d.slt s) "cause follows effect at declared date precision"
    sourceProfile cr host (e.get "evidence") ["relation"]
  | _, _ => throw (.refused "edge endpoints must exist in this candidate")

def validateImage (entries : List Value) (im : Value) : Checked Unit := do
  let width ← decodeHex (← string im "sha256")
  ensure (width.length = 32) "image hash width"
  let _ ← string im "path"
  ensure (im.get "manifest").asObject.isSome "image manifest missing"
  let index ← context (im.get "entry_index").asU64 "image entry_index missing"
  ensure (index < entries.length) "image references missing entry"
  ensure (((im.get "manifest").get "image_sha256").asStr = (im.get "sha256").asStr)
    "image manifest digest mismatch"

def validateCandidate (v : Value) : Checked Unit := do
  let members ← context v.asObject "candidate must be object"
  ensure (members.all fun m => ["entries", "edges", "images"].contains m.1)
    "unknown candidate field"
  let entries ← context (v.get "entries").asArray "entries array missing"
  ensure (!entries.isEmpty && entries.length ≤ 5) "candidate must have one to five entries"
  let rejections := host.admitBatch entries
  if !rejections.isEmpty then throw (.admission rejections)
  let placed ← entries.mapM (validateEntry cr host)
  let coordinates : EntityMap Tick := placed.foldl (fun m p => m.insert p.1 p.2) ∅
  let edges ← context (v.get "edges").asArray "edges array missing"
  edges.forM (validateEdge cr host coordinates)
  let images ← context (v.get "images").asArray "images array missing"
  images.forM (validateImage entries)

def verifyImages (v : Value) : Checked Unit := do
  let images ← context (v.get "images").asArray "images missing"
  images.forM fun im => do
    let bytes ← readFile host (← string im "path") "read approved image bytes"
    let expected ← decodeHex (← string im "sha256")
    ensure (asBytes (digest cr bytes) = expected) "image changed since approval"

end Checks

end Clockchain.V0.Publisher
