import Clockchain.Words
import Clockchain.V0.Candidate

/-!
# The admission gate

`cc-authoring/src/admission.rs`: the rules an entry is judged by, and those that see the
other entries of its batch.
-/

namespace Clockchain.V0.Authoring
open Publisher
open V1.Publisher (isWhitespace trim)
set_option autoImplicit false

/-- The tables of `char`, and `{:?}` of a text. -/
structure Unicode where
  isAlphanumeric : Char → Bool
  isUppercase : Char → Bool
  isLowercase : Char → Bool
  debug : String → String
  ascii : ∀ c : Char, c.toNat < 128 → isAlphanumeric c = c.isAlphanum
  kelvin : isAlphanumeric (Char.ofNat 0x212A) = true
  dotted : isAlphanumeric (Char.ofNat 0x130) = true
  space : ∀ c, isWhitespace c = true → isAlphanumeric c = false

/-- What the gate reads of the pinned bundle: the tables the build generates, and
`classification::validate` with the texts of its rejections. -/
structure Bundle where
  isValidTtId : String → Bool
  resolveTtId : String → String
  lensOf : String → Option String
  isAncestorOf : String → String → Bool
  sha256 : String
  validate : Value → Except (List String) Value

def reject (rule detail : String) : Rejection := ⟨rule, detail⟩

def allowedFields : List String :=
  ["title", "year", "claim_type", "claim_type_alternatives", "alternatives_cross_lens", "lens",
   "summary", "date_is_known", "temporal_kind", "observed_count", "tt_release", "tt_bundle_sha256",
   "prov_measured", "prov_asserted", "classification_source", "classification"]

def provMeasuredFields : List String := ["text_model", "provider", "method", "run", "generated_at"]

def yearMin : Int := -50000
def yearMax : Int := 2100
def minSummaryChars : Nat := 20

/-- `{}` of a number and of a document. -/
def showInt (n : Int) : String := .ofList (decimal n)
def showValue (v : Value) : String := .ofList v.write

/-- More than white space. -/
def filled (s : String) : Bool := !(trim s).isEmpty

section
variable (u : Unicode) (b : Bundle)

def isCasedScript (t : String) : Bool := t.toList.any fun c => u.isLowercase c || u.isUppercase c

/-- A parenthesised year at the end. -/
def endsInYear (t : Text) : Bool :=
  let tail := (t.reverse.takeWhile (· ≠ ' ')).reverse
  tail.head? = some '(' && tail.getLast? = some ')' && tail.length > 2 &&
    (((tail.drop 1).dropLast).dropWhile (· = '-')).all Char.isDigit

/-- Lowercase place slugs after two commas. -/
def endsInSlugs (t : Text) : Bool :=
  let parts := (t.splitOn ',').map fun p => (trim (.ofList p)).toList
  parts.length ≥ 3 && (parts.drop (parts.length - 2)).all fun p =>
    !p.isEmpty && p.all fun c => c.isLower || c = '-'

def checkTitle (title : String) : List Rejection :=
  let t := trim title
  if t.isEmpty then [reject "title-missing" "empty after trimming"]
  else
    (if isCasedScript u t && !t.toList.any u.isUppercase then
      [reject "title-not-capitalised"
        (u.debug t ++ " is in a cased script and carries no capital — usually a raw slug")]
    else []) ++
    (if endsInYear t.toList then
      [reject "title-year-appended" (u.debug t ++ " ends with a parenthesised year")]
    else []) ++
    (if decide ([',', ' ', '-'] <:+: t.toList) then
      [reject "title-year-appended" (u.debug t ++ " carries a comma-separated year")]
    else []) ++
    (if endsInSlugs t.toList then
      [reject "title-place-slug" (u.debug t ++ " ends with lowercase place slugs")]
    else [])

/-- `check_str_field`: the text, when it is there, and what is wrong otherwise. -/
def checkStrField (e : Value) (key rule : String) : Except Rejection String :=
  match (e.get? key).bind Value.asStr with
  | some s =>
    if filled s then .ok s else .error (reject rule ("`" ++ key ++ "` is present but empty"))
  | none => .error (reject rule ("`" ++ key ++ "` is missing or not a string"))

def checkTitleField (e : Value) : List Rejection :=
  match checkStrField e "title" "title-missing" with
  | .ok t => checkTitle u t
  | .error r => [r]

/-- `Value::Number(n) if n.is_i64()`, and what is wrong with the year. -/
def checkYear (e : Value) : Option Int × List Rejection :=
  match e.get? "year" with
  | none => (none, [reject "year-missing" "`year` is required"])
  | some v =>
    match v.asI64 with
    | none =>
      (none, [reject "year-not-integer" ("`year` is " ++ showValue v ++ ", not an integer")])
    | some y =>
      (some y, if yearMin ≤ y && y ≤ yearMax then []
        else [reject "year-implausible" (showInt y ++ " is outside " ++ showInt yearMin ++ "..=" ++
          showInt yearMax)])

def checkDateIsKnown (e : Value) (year : Option Int) : List Rejection :=
  match e.get? "date_is_known" with
  | some (.bool true) => []
  | some (.bool false) => [reject "date-not-known" (match year with
    | some y => "declares `date_is_known: false` while asserting year " ++ showInt y ++
        " — an entry may not both carry a date and disclaim it; give it a defensible date or " ++
        "leave it out"
    | none => "declares `date_is_known: false`; every entry needs a defensible date")]
  | some v => [reject "date-not-known" ("`date_is_known` is " ++ showValue v ++ ", not a bool")]
  | none => [reject "date-not-known"
      "`date_is_known` is required and must be true — silence is not a date"]

def checkLens (e : Value) (live : String) : List Rejection :=
  match (e.get? "lens").bind Value.asStr, b.lensOf live with
  | some declared, some actual =>
    if declared ≠ actual then
      [reject "lens-mismatch" ("declares lens " ++ u.debug declared ++ "; the bundle puts " ++
        u.debug live ++ " in " ++ u.debug actual)]
    else []
  | none, _ => [reject "lens-missing" "`lens` is required"]
  | some _, none => []

def checkClaimType (e : Value) : List Rejection :=
  match checkStrField e "claim_type" "claim-type-missing" with
  | .error r => [r]
  | .ok ct =>
    if !b.isValidTtId ct then
      [reject "claim-type-invalid" (u.debug ct ++ " is not a node in the pinned TT bundle")]
    else
      let live := b.resolveTtId ct
      (if live ≠ ct then
        [reject "claim-type-retired" (u.debug ct ++ " is retired; the bundle's successor is " ++
          u.debug live)]
      else []) ++ checkLens u b e live

/-- `classification::is_abstention`. -/
def isAbstention (c : Value) : Bool :=
  let void := fun key => ((c.get? key).bind Value.asObject).all List.isEmpty
  (match c.get? "abstain" with | some (.bool true) => true | _ => false) &&
    void "lens_a" && void "lens_b"

def checkClassification (e : Value) : List Rejection :=
  match e.get? "classification" with
  | none => []
  | some c =>
    match b.validate c with
    | .error errs => errs.map (reject "classification-invalid")
    | .ok norm =>
      let independent := (e.get? "classification_source").bind Value.asStr = some "independent"
      if independent || isAbstention norm then []
      else match (e.get? "claim_type").bind Value.asStr with
      | none => []
      | some ct =>
        if ["lens_a", "lens_b"].any fun k =>
            ((norm.get? k).bind Value.asObject).any fun m => m.any fun item => item.1 == ct then []
        else [reject "derived-classification-disagrees-with-claim-type"
          ("`claim_type` is " ++ u.debug ct ++ " but the DERIVED profile carries no mass on it. " ++
            "A derived classification is a copy of the headline type, so disagreement is " ++
            "corruption. If a separate classifier produced this reading, mark it " ++
            "`classification_source: \"independent\"` and the disagreement is kept as a finding.")]

/-- One of the alternatives, after those that `seen` holds. -/
def checkAlternative (chosen : String) (state : List String × List Rejection) (a : Value) :
    List String × List Rejection :=
  let (seen, out) := state
  match a.asStr with
  | none => (seen, out ++ [reject "claim-type-alternative-invalid"
      (showValue a ++ " is not a string")])
  | some s =>
    if !b.isValidTtId s then (seen, out ++ [reject "claim-type-alternative-invalid"
      (u.debug s ++ " is not a node in the pinned TT bundle")])
    else if s = chosen then (seen, out ++ [reject "claim-type-alternative-invalid"
      (u.debug s ++ " is also the chosen type — an alternative to itself")])
    else if b.isAncestorOf s chosen then (seen, out ++ [reject "claim-type-alternative-is-ancestor"
      (u.debug s ++ " is an ancestor of " ++ u.debug chosen ++
        " — coarser, not competing. Clockchain's local profile refuses this; TT permits it")])
    else if b.isAncestorOf chosen s then
      (seen, out ++ [reject "claim-type-alternative-is-descendant"
      (u.debug s ++ " sits under " ++ u.debug chosen ++
        " — if it is the better fit it should be the primary. Clockchain's local profile; TT " ++
        "permits it")])
    else if seen.contains s then (seen, out ++ [reject "claim-type-alternative-invalid"
      (u.debug s ++ " is listed twice")])
    else (seen ++ [s], out)

def checkCrossLens (e : Value) (derived : Bool) : List Rejection :=
  match e.get? "alternatives_cross_lens" with
  | none => []
  | some (.bool declared) =>
    if declared = derived then []
    else [reject "alternatives-cross-lens-mismatch" ("declares `alternatives_cross_lens: " ++
      (if declared then "true" else "false") ++ "`; the bundle puts the alternatives " ++
      (if derived then "outside" else "inside") ++ " the primary's lens")]
  | some v => [reject "alternatives-cross-lens-mismatch"
      ("`alternatives_cross_lens` is " ++ showValue v ++ ", not a bool")]

def checkAlternatives (e : Value) : List Rejection :=
  match e.get? "claim_type_alternatives" with
  | none =>
    match e.get? "alternatives_cross_lens" with
    | some (.bool true) => [reject "alternatives-cross-lens-mismatch"
        ("declares `alternatives_cross_lens: true` with no `claim_type_alternatives` to be across " ++
          "a lens from")]
    | _ => []
  | some (.arr alts) =>
    let chosen := ((e.get? "claim_type").bind Value.asStr).getD ""
    let (seen, out) := alts.foldl (checkAlternative u b chosen) ([], [])
    let derived := seen.any fun s => (b.lensOf s).isSome && b.lensOf s ≠ b.lensOf chosen
    out ++ checkCrossLens e derived
  | some v => [reject "claim-type-alternative-invalid"
      ("`claim_type_alternatives` is " ++ showValue v ++ ", not an array")]

def checkBundle (e : Value) : List Rejection :=
  (match checkStrField e "tt_release" "tt-release-missing" with
    | .ok _ => []
    | .error r => [r]) ++
  match (e.get? "tt_bundle_sha256").bind Value.asStr with
  | some s =>
    if s = b.sha256 then []
    else [reject "tt-bundle-mismatch" ("declares bundle " ++ .ofList (s.toList.take 16) ++
      "…; this binary was built against " ++ .ofList (b.sha256.toList.take 16) ++ "…")]
  | none => [reject "tt-bundle-mismatch" "`tt_bundle_sha256` is required"]

def checkSummary (e : Value) : List Rejection :=
  match (e.get? "summary").bind Value.asStr with
  | some s =>
    let n := (trim s).toList.length
    if n ≥ minSummaryChars then []
    else [reject "summary-too-short" (showInt n ++ " chars; " ++ showInt minSummaryChars ++
      " is the floor")]
  | none => [reject "summary-too-short" "`summary` is required"]

def checkTemporalKind (e : Value) : List Rejection :=
  match (e.get? "temporal_kind").bind Value.asStr with
  | some k =>
    if k = "event" || k = "process" then []
    else [reject "temporal-kind-invalid" (u.debug k ++ " is not one of \"event\", \"process\"")]
  | none => [reject "temporal-kind-invalid" "`temporal_kind` is required"]

def checkObservedCount (e : Value) : List Rejection :=
  match (e.get? "observed_count").bind Value.asI64 with
  | some n =>
    if 1 ≤ n then [] else [reject "observed-count-invalid" (showInt n ++ " is below 1")]
  | none => [reject "observed-count-invalid" "`observed_count` is required"]

/-- A field of an object that must hold a text. -/
def checkFilled (m : Value) (rule path field : String) : List Rejection :=
  if ((m.get? field).bind Value.asStr).any filled then []
  else [reject rule ("`" ++ path ++ "." ++ field ++ "` is missing or empty")]

def checkProvMeasured (e : Value) : List Rejection :=
  match e.get? "prov_measured" with
  | some (.obj m) => provMeasuredFields.flatMap
      (checkFilled (.obj m) "prov-measured-incomplete" "prov_measured")
  | _ => [reject "prov-measured-incomplete" "`prov_measured` is required"]

def checkProvAsserted (e : Value) : List Rejection :=
  match e.get? "prov_asserted" with
  | some (.obj m) =>
    checkFilled (.obj m) "prov-asserted-incomplete" "prov_asserted" "historical_claim"
  | _ => [reject "prov-asserted-incomplete" "`prov_asserted` is required"]

/-- Every rejection of one entry. -/
def admitEntry (e : Value) : List Rejection :=
  match e.asObject with
  | none => [reject "entry-not-object" "an entry must be a JSON object"]
  | some members =>
    ((members.map Prod.fst).filter fun k => !allowedFields.contains k).map (fun k =>
      reject "field-unknown" ("`" ++ k ++ "` is not an entry field — typo?")) ++
    checkTitleField u e ++ (checkYear e).2 ++ checkDateIsKnown e (checkYear e).1 ++
    checkClaimType u b e ++ checkClassification u b e ++ checkAlternatives u b e ++
    checkBundle b e ++ checkSummary e ++ checkTemporalKind u e ++ checkObservedCount e ++
    checkProvMeasured e ++ checkProvAsserted e

/-! ## The batch -/

def stop : List String :=
  ["the", "of", "a", "an", "in", "at", "on", "to", "and", "by", "for", "s", "its", "his", "her",
   "their"]

def filler : List String :=
  ["begins", "begin", "began", "starts", "start", "started", "reaches", "reached", "peaks",
   "peaked", "arrival", "arrives", "signing", "signed", "posting", "posted", "publication",
   "published", "construction", "constructed", "establishment", "established", "founding",
   "founded", "invention", "invented", "discovery", "discovered", "creation", "created",
   "adoption", "adopted", "formation", "formed"]

def yearTolerance : Int := 12

/-- A letter or digit in lower case, if ASCII has one; anything else is a blank. -/
def wordChar (c : Char) : Char := if u.isAlphanumeric c then c.toLower else ' '

/-- The words between white space, in their order. -/
def splitWords (title : String) : List String :=
  (Words.words isWhitespace (title.toList.map (wordChar u))).map .ofList

/-- `content_words`: sorted, each once. -/
def contentWords (title : String) : List String :=
  (((splitWords u title).filter fun t => !stop.contains t && !filler.contains t).mergeSort
    fun s t => decide (s ≤ t)).destutter (· ≠ ·)

def isRestatement (ta : String) (ya : Int) (tb : String) (yb : Int) : Bool :=
  if |ya - yb| > yearTolerance then false
  else
    let wa := contentWords u ta
    let wb := contentWords u tb
    if wa.isEmpty || wb.isEmpty then false
    else wa.all wb.contains || wb.all wa.contains

def eqIgnoreAsciiCase (s t : String) : Bool := s.toList.map Char.toLower = t.toList.map Char.toLower

/-- An entry with a usable title and year. -/
def keyed (item : Value × Nat) : Option (Nat × String × Int) := do
  let title ← (← item.1.get? "title").asStr
  let year ← (← item.1.get? "year").asI64
  return (item.2, trim title, year)

/-- What an entry says against a later one. -/
def judgePair (a c : Nat × String × Int) : List (Nat × Rejection) :=
  let (ia, ta, ya) := a
  let (ib, tb, yb) := c
  if eqIgnoreAsciiCase ta tb && ya = yb then
    [(ib, reject "duplicate-identity" ("entry " ++ showInt ia ++ " asserts the same (" ++
      u.debug ta ++ ", " ++ showInt ya ++ ") — one identity, two rows"))]
  else if isRestatement u ta ya tb yb then
    [(ib, reject "restatement-unresolved" ("reads as a restatement of entry " ++ showInt ia ++
      " (" ++ u.debug ta ++ ", " ++ showInt ya ++ "); keep one and drop the other before minting" ++
      " — this gate will not choose"))]
  else []

def judgePairs : List (Nat × String × Int) → List (Nat × Rejection)
  | [] => []
  | a :: rest => rest.flatMap (judgePair u a) ++ judgePairs rest

/-- Every rejection of a batch, with the index of its entry; none is admission. -/
def admitBatch (entries : List Value) : List (Nat × Rejection) :=
  entries.zipIdx.flatMap (fun item => (admitEntry u b item.1).map fun r => (item.2, r)) ++
    judgePairs u (entries.zipIdx.filterMap keyed)

end

/-! ## The mint loop -/

/-- The claim identity the loop computes for an entry. -/
def mintIdentity (cr : V1.Crypto) (it : Value) : Option (EntityId × V1.Hash) := do
  let title ← (it.get "title").asStr
  let year ← (it.get "year").asI64
  return claimIdentity cr title year

end Clockchain.V0.Authoring
