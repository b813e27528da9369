import Clockchain.Operator.Json
import Clockchain.V0.Admissible
import Clockchain.V0.Identities

/-!
# The stored-chain check

`body_failures` of `ops/check-admission.py`, which judges a stored body by the rules of the
admission gate, and when the two come to the same verdict.
-/

namespace Clockchain.Operator.CheckAdmission
open Codec (utf8)
open Programs (bind_ok)
open V0.Authoring
open V0.Publisher (Value)
open V1.Publisher (isWhitespace)
set_option autoImplicit false

/-! ## Python -/

/-- What a wrong kind of value raises. -/
inductive Raised where
  | attributeError | typeError
  deriving Repr, DecidableEq

/-- `c.isspace()`. -/
def isBlank (c : Nat) : Bool :=
  (9 ≤ c && c ≤ 13) || (0x1C ≤ c && c ≤ 0x20) || (0x2000 ≤ c && c ≤ 0x200A) ||
    [0x85, 0xA0, 0x1680, 0x2028, 0x2029, 0x202F, 0x205F, 0x3000].contains c

/-- The conversions of numbers, and `repr` of a `str`. A number is not printed as white space. -/
structure Library extends Floats where
  quote : Text → Text
  printed : ∀ bits, ∃ b ∈ repr bits, isBlank b.toNat = false

/-- `s.strip()`. -/
def strip (s : Text) : Text := Words.strip isBlank s

/-- `bool(v)`. -/
def truthy : Py → Bool
  | .null => false
  | .bool b => b
  | .int n => n ≠ 0
  | .float bits => bits ≠ 0 && bits ≠ 0x8000000000000000
  | .str s => !s.isEmpty
  | .list items => !items.isEmpty
  | .dict items => !items.isEmpty

def hashable : Py → Bool
  | .list _ | .dict _ => false
  | _ => true

/-- A value that is a `str`. -/
def asText : Py → Option Text
  | .str s => some s
  | _ => none

section
variable (lib : Library)

mutual

/-- `repr(v)`. -/
def repr : Py → Text
  | .null => text "None"
  | .bool true => text "True"
  | .bool false => text "False"
  | .int n => (intText n).map UInt8.toNat
  | .float bits => (lib.repr bits).map UInt8.toNat
  | .str s => lib.quote s
  | .list [] => text "[]"
  | .list (v :: vs) => text "[" ++ (repr v ++ reprItems vs)
  | .dict [] => text "\x7b\x7d"
  | .dict ((k, v) :: items) =>
    text "\x7b" ++ (lib.quote k ++ text ": " ++ (repr v ++ reprMembers items))

/-- What follows the first item of a list. -/
def reprItems : List Py → Text
  | [] => text "]"
  | v :: vs => text ", " ++ (repr v ++ reprItems vs)

/-- What follows the first item of a dict. -/
def reprMembers : List (Text × Py) → Text
  | [] => text "\x7d"
  | (k, v) :: items => text ", " ++ (lib.quote k ++ text ": " ++ (repr v ++ reprMembers items))

end

/-- `str(v)`. -/
def str : Py → Text
  | .str s => s
  | v => repr lib v

mutual

/-- What `json.loads` makes of the text of a document; `-0` is an integer to it. -/
def read : Value → Py
  | .null => .null
  | .bool b => .bool b
  | .int n => .int n
  | .float t => if t = ['-', '0'] then .int 0 else .float (lib.read (utf8 (.ofList t)))
  | .str s => .str (text s)
  | .arr items => .list (readItems items)
  | .obj members => .dict (readMembers members)

def readItems : List Value → List Py
  | [] => []
  | v :: vs => read v :: readItems vs

def readMembers : List (String × Value) → List (Text × Py)
  | [] => []
  | (name, v) :: members => (text name, read v) :: readMembers members

end

end

/-! ## The check -/

def allowedFields : List String :=
  ["title", "year", "claim_type", "claim_type_alternatives", "alternatives_cross_lens", "lens",
   "summary", "date_is_known", "temporal_kind", "observed_count", "tt_release", "tt_bundle_sha256",
   "prov_measured", "prov_asserted", "classification", "classification_source"]

def requiredProvMeasured : List String :=
  ["text_model", "provider", "method", "run", "generated_at"]

/-- The tables of `main`. -/
structure Tables where
  validIds : List Text
  lensOf : List (Text × Text)
  bundleSha : Text
  parentOf : List (Text × Text)

def Tables.of (t : Taxonomy) : Tables where
  validIds := t.nodes.map fun n => text n.id
  lensOf := t.nodes.map fun n => (text n.id, text n.lens)
  bundleSha := text t.sha256
  parentOf := t.nodes.filterMap fun n =>
    (n.parent.filter (· ≠ "")).map fun p => (text n.id, text p)

/-- A row of a dict. -/
def find {α : Type} (d : List (Text × α)) (k : Text) : Option α :=
  (d.find? fun row => row.1 = k).map Prod.snd

/-- `e.get(name)`. -/
def get (e : List (Text × Py)) (name : String) : Py := (find e (text name)).getD .null

/-- `(e.get(name) or "").strip()`. -/
def strippedText (e : List (Text × Py)) (name : String) : Except Raised Text :=
  match get e name with
  | .str s => .ok (strip s)
  | v => if truthy v then .error .attributeError else .ok []

section
variable (u : Unicode) (lib : Library) (t : Tables) (e : List (Text × Py))

def isLower (c : Nat) : Bool := u.isLowercase (.ofNat c)
def isUpper (c : Nat) : Bool := u.isUppercase (.ofNat c)

def fieldFailures : List Text :=
  ((e.map Prod.fst).filter fun k => !(allowedFields.map text).contains k).map fun k =>
    text "field-unknown:" ++ k

def dateFailures : List Text :=
  match get e "date_is_known" with
  | .bool true => []
  | _ => [text "date-not-known"]

def yearFailures : List Text :=
  match get e "year" with
  | .int _ | .bool _ => []
  | _ => [text "year-missing"]

def titleFailures : Except Raised (List Text) := do
  let title ← strippedText e "title"
  return if title.isEmpty then [text "title-missing"]
    else if title.any (fun c => isLower u c || isUpper u c) && !title.any (isUpper u) then
      [text "title-not-capitalised"]
    else []

/-- `e.get("lens") != lens_of.get(ct)`. -/
def lensDiffers (ct : Text) : Bool :=
  match get e "lens", find t.lensOf ct with
  | .str l, some l' => l ≠ l'
  | .null, none => false
  | _, _ => true

def typeFailures : Except Raised (List Text) :=
  let ct := get e "claim_type"
  if !hashable ct then .error .typeError
  else match asText ct with
    | none => .ok [text "claim-type-invalid"]
    | some s => .ok (if !t.validIds.contains s then [text "claim-type-invalid"]
        else if lensDiffers t e s then [text "lens-mismatch"] else [])

/-- Some ancestors, the nearest first. -/
def ancestorsFrom (parentOf : List (Text × Text)) : Nat → Text → List Text
  | 0, _ => []
  | n + 1, i =>
    match find parentOf i with
    | none => []
    | some cur => if cur.isEmpty then [] else cur :: ancestorsFrom parentOf n cur

def ancestors (i : Text) (parentOf : List (Text × Text)) : List Text := ancestorsFrom parentOf 8 i

/-- `is_ancestor`, of which one value is a `str`. -/
def isAncestor (maybe i : Option Text) (parentOf : List (Text × Text)) : Bool :=
  maybe == i ||
    match maybe, i with
    | some maybe, some i => (ancestors i parentOf).contains maybe
    | _, _ => false

def alternativeFailures (ct : Option Text) (alts : List Py) (a : Py) : List Text :=
  match asText a with
  | none => [text "claim-type-alternative-invalid"]
  | some s =>
    if !t.validIds.contains s || some s == ct || 1 < alts.countP (fun b => asText b == some s) then
      [text "claim-type-alternative-invalid"]
    else if isAncestor (some s) ct t.parentOf then [text "claim-type-alternative-is-ancestor"]
    else if isAncestor ct (some s) t.parentOf then [text "claim-type-alternative-is-descendant"]
    else []

/-- `any(isinstance(a, str) and a in lens_of and lens_of[a] != lens_of.get(ct) for a in alts)`. -/
def crossLens (ct : Option Text) (alts : List Py) : Bool :=
  alts.any fun a => (asText a).any fun s =>
    (find t.lensOf s).isSome && find t.lensOf s ≠ ct.bind (find t.lensOf)

def alternativesFailures : List Text :=
  let ct := asText (get e "claim_type")
  match get e "claim_type_alternatives" with
  | .null =>
    match get e "alternatives_cross_lens" with
    | .bool true => [text "alternatives-cross-lens-mismatch"]
    | _ => []
  | v =>
    let (failures, derived) := match v with
      | .list alts => (alts.flatMap (alternativeFailures t ct alts), crossLens t ct alts)
      | _ => ([text "claim-type-alternative-invalid"], false)
    failures ++ match find e (text "alternatives_cross_lens") with
      | none => []
      | some (.bool declared) =>
        if declared = derived then [] else [text "alternatives-cross-lens-mismatch"]
      | some _ => [text "alternatives-cross-lens-mismatch"]

def bundleFailures : List Text :=
  if asText (get e "tt_bundle_sha256") = some t.bundleSha then [] else [text "tt-bundle-mismatch"]

def kindFailures : List Text :=
  if asText (get e "temporal_kind") ∈ [some (text "event"), some (text "process")] then []
  else [text "temporal-kind-invalid"]

def countFailures : List Text :=
  match get e "observed_count" with
  | .int n => if n < 1 then [text "observed-count-invalid"] else []
  | .bool true => []
  | _ => [text "observed-count-invalid"]

def summaryFailures : Except Raised (List Text) := do
  let summary ← strippedText e "summary"
  return if summary.length < 20 then [text "summary-too-short"] else []

/-- `str(m.get(f, "")).strip()`. -/
def printed (m : List (Text × Py)) (f : String) : Text :=
  strip (str lib ((find m (text f)).getD (.str [])))

def measuredFailures : List Text :=
  match get e "prov_measured" with
  | .dict m =>
    if requiredProvMeasured.any fun f => (printed lib m f).isEmpty then
      [text "prov-measured-incomplete"]
    else []
  | _ => [text "prov-measured-incomplete"]

def assertedFailures : List Text :=
  match get e "prov_asserted" with
  | .dict a =>
    if (printed lib a "historical_claim").isEmpty then [text "prov-asserted-incomplete"] else []
  | _ => [text "prov-asserted-incomplete"]

/-- The failures of an object. -/
def objectFailures : Except Raised (List Text) := do
  let title ← titleFailures u e
  let type ← typeFailures t e
  let summary ← summaryFailures e
  return fieldFailures e ++ dateFailures e ++ yearFailures e ++ title ++ type ++
    alternativesFailures t e ++ bundleFailures t e ++ kindFailures e ++ countFailures e ++
    summary ++ measuredFailures lib e ++ assertedFailures lib e

end

/-- `body_failures`, of what `json.loads` makes of the body. -/
def bodyFailures (u : Unicode) (lib : Library) (t : Tables) : Option Py → Except Raised (List Text)
  | none => .ok [text "body-not-json"]
  | some (.dict e) => objectFailures u lib t e
  | some (.str _) => .error .attributeError
  | some (.list items) =>
    if items.all hashable then .error .attributeError else .error .typeError
  | some _ => .error .typeError

/-! ## Reading a document -/

section
variable {lib : Library} {members : List (String × Value)}

theorem readItems_eq (items : List Value) : readItems lib items = items.map (read lib) := by
  induction items with
  | nil => rfl
  | cons v vs ih => rw [readItems, ih, List.map_cons]

theorem find_read (name : String) :
    find (readMembers lib members) (text name) =
      ((Value.obj members).get? name).map (read lib) := by
  induction members with
  | nil => rfl
  | cons m members ih =>
    obtain ⟨other, v⟩ := m
    rw [find, Value.get?] at ih ⊢
    rw [readMembers, List.find?_cons, List.find?_cons]
    by_cases h : other = name
    · subst h
      simp
    · have htext : text other ≠ text name := mt text_inj.1 h
      simp only [htext, decide_false, beq_eq_false_iff_ne.2 h]
      exact ih

theorem get_read (name : String) : get (readMembers lib members) name =
    (((Value.obj members).get? name).map (read lib)).getD .null := by
  rw [get, find_read]

theorem asText_read (v : Value) : asText (read lib v) = v.asStr.map text := by
  cases v with
  | float t =>
    rw [read]
    split
    · rfl
    · rfl
  | _ => rfl

theorem asText_get (name : String) : asText (get (readMembers lib members) name) =
    (((Value.obj members).get? name).bind Value.asStr).map text := by
  rw [get_read]
  cases (Value.obj members).get? name with
  | none => rfl
  | some v => exact asText_read v

theorem asText_iff {name s : String} : asText (get (readMembers lib members) name) = some (text s) ↔
    (Value.obj members).get? name = some (.str s) := by
  rw [asText_get, Option.map_eq_some_iff, ← bind_asStr]
  constructor
  · rintro ⟨s', hs', heq⟩
    rwa [text_inj.1 heq] at hs'
  · exact fun h => ⟨s, h, rfl⟩

theorem strip_text (s : String) :
    strip (text s) = (Words.strip (fun c => isBlank c.toNat) s.toList).map Char.toNat :=
  Words.strip_map Char.toNat s.toList

end

/-! ## The reading of the check -/

/-- `isinstance` takes a flag for an integer, and `str` prints whatever it is given. -/
def checkReading : Reading where
  year
    | .int _ | .bool _ => true
    | .float t => t = ['-', '0']
    | _ => false
  count
    | .int n => 1 ≤ n
    | .bool b => b
    | _ => false
  absent
    | .null => true
    | _ => false
  space c := isBlank c.toNat
  printed _ := true

section
variable {u : Unicode} {lib : Library} {t : Taxonomy} {m : List (String × Value)}

theorem strip_eq (s : String) :
    strip (text s) = (Words.strip checkReading.space s.toList).map Char.toNat :=
  strip_text s

/-- A text in lower and in upper case, by its code points. -/
theorem any_code (p : Char → Bool) (s : List Char) :
    (s.map Char.toNat).any (fun c => p (.ofNat c)) = s.any p := by
  rw [List.any_map]
  refine congrArg (s.any ·) (funext fun c => ?_)
  rw [Function.comp_apply, Char.ofNat_toNat]

/-- A value that `or ""` keeps, without being a text. -/
def Awkward (lib : Library) (v : Value) : Prop :=
  v.asStr = none ∧ truthy (read lib v) = true

theorem strippedText_cases (name : String) :
    (∃ s, (Value.obj m).get? name = some (.str s) ∧
      strippedText (readMembers lib m) name = .ok (strip (text s))) ∨
    (∃ v, (Value.obj m).get? name = some v ∧ Awkward lib v ∧
      strippedText (readMembers lib m) name = .error .attributeError) ∨
    ((∀ s, (Value.obj m).get? name ≠ some (.str s)) ∧
      (∀ v, (Value.obj m).get? name = some v → ¬ Awkward lib v) ∧
      strippedText (readMembers lib m) name = .ok []) := by
  unfold strippedText
  rw [get_read]
  cases hfield : (Value.obj m).get? name with
  | none =>
    exact .inr (.inr ⟨fun s hs => (nomatch hs), fun v hv => (nomatch hv), rfl⟩)
  | some v =>
    rw [Option.map_some, Option.getD_some]
    cases hstr : v.asStr with
    | some s =>
      have hv : some v = some (.str s) := bind_asStr.1 hstr
      obtain rfl := Option.some.inj hv
      exact .inl ⟨s, rfl, rfl⟩
    | none =>
      have hne : ∀ s, some v ≠ some (.str s) := bind_asStr_none (x := some v) hstr
      have hread : ∀ s, read lib v ≠ .str s := by
        intro s hs
        have htext : asText (read lib v) = v.asStr.map text := asText_read v
        rw [hs, hstr] at htext
        nomatch htext
      by_cases htruthy : truthy (read lib v) = true
      · refine .inr (.inl ⟨v, rfl, ⟨hstr, htruthy⟩, ?_⟩)
        split
        · next s hs => exact absurd hs (hread s)
        · exact if_pos htruthy
      · refine .inr (.inr ⟨hne, fun w hw hawk => ?_, ?_⟩)
        · obtain rfl := Option.some.inj hw
          exact htruthy hawk.2
        · split
          · next s hs => exact absurd hs (hread s)
          · exact if_neg htruthy

/-! ### Field by field -/

theorem unless_nil {c : Prop} [Decidable c] {rule : Text} :
    (if c then [] else [rule]) = [] ↔ c := by
  split
  · next h => exact iff_of_true rfl h
  · next h => exact iff_of_false (List.cons_ne_nil _ _) h

theorem fieldFailures_nil : fieldFailures (readMembers lib m) = [] ↔
    ∀ row ∈ m, row.1 ∈ V0.Authoring.allowedFields := by
  have hnames : (readMembers lib m).map Prod.fst = m.map fun row => text row.1 := by
    induction m with
    | nil => rfl
    | cons row m ih =>
      obtain ⟨name, v⟩ := row
      rw [readMembers, List.map_cons, List.map_cons, ih]
  have hallowed : ∀ name, name ∈ CheckAdmission.allowedFields ↔
      name ∈ V0.Authoring.allowedFields := by
    intro name
    simp only [CheckAdmission.allowedFields, V0.Authoring.allowedFields, List.mem_cons,
      List.not_mem_nil, or_false]
    tauto
  rw [fieldFailures, List.map_eq_nil_iff, List.filter_eq_nil_iff, hnames, List.forall_mem_map]
  refine forall₂_congr fun row _ => ?_
  rw [Bool.not_eq_true, Bool.not_eq_false', List.contains_iff_mem, ← hallowed,
    List.mem_map_of_injective fun _ _ => text_inj.1]

/-- A number that is written as no integer is no integer, but for the negative zero. -/
theorem read_float (x : List Char) : (x = ['-', '0'] ∧ read lib (.float x) = .int 0) ∨
    (x ≠ ['-', '0'] ∧ ∃ bits, read lib (.float x) = .float bits) := by
  rw [read]
  by_cases h : x = ['-', '0']
  · exact .inl ⟨h, if_pos h⟩
  · exact .inr ⟨h, _, if_neg h⟩

theorem dateFailures_nil : dateFailures (readMembers lib m) = [] ↔
    (Value.obj m).get? "date_is_known" = some (.bool true) := by
  rw [dateFailures, get_read]
  cases (Value.obj m).get? "date_is_known" with
  | none => simp
  | some v =>
    cases v with
    | bool b => cases b <;> simp [read]
    | float x => obtain ⟨-, h⟩ | ⟨-, bits, h⟩ := @read_float lib x <;> simp [h]
    | _ => simp [read]

theorem yearFailures_nil : yearFailures (readMembers lib m) = [] ↔
    ∃ v, (Value.obj m).get? "year" = some v ∧ checkReading.year v = true := by
  rw [yearFailures, get_read]
  cases (Value.obj m).get? "year" with
  | none => simp
  | some v =>
    cases v with
    | float x =>
      obtain ⟨rfl, h⟩ | ⟨hx, bits, h⟩ := @read_float lib x
      · simp [h, checkReading]
      · simp [h, hx, checkReading]
    | _ => simp [read, checkReading]

theorem countFailures_nil : countFailures (readMembers lib m) = [] ↔
    ∃ v, (Value.obj m).get? "observed_count" = some v ∧ checkReading.count v = true := by
  rw [countFailures, get_read]
  cases (Value.obj m).get? "observed_count" with
  | none => simp
  | some v =>
    cases v with
    | int n => simp [read, checkReading]
    | bool b => cases b <;> simp [read, checkReading]
    | float x => obtain ⟨-, h⟩ | ⟨-, bits, h⟩ := @read_float lib x <;> simp [h, checkReading]
    | _ => simp [read, checkReading]

theorem bundleFailures_nil : bundleFailures (Tables.of t) (readMembers lib m) = [] ↔
    (Value.obj m).get? "tt_bundle_sha256" = some (.str t.sha256) := by
  rw [bundleFailures, unless_nil]
  exact asText_iff

theorem kindFailures_nil : kindFailures (readMembers lib m) = [] ↔
    ∃ k, (Value.obj m).get? "temporal_kind" = some (.str k) ∧ (k = "event" ∨ k = "process") := by
  rw [kindFailures, unless_nil, List.mem_pair, asText_iff, asText_iff]
  constructor
  · rintro (h | h)
    · exact ⟨_, h, .inl rfl⟩
    · exact ⟨_, h, .inr rfl⟩
  · rintro ⟨k, hk, rfl | rfl⟩
    · exact .inl hk
    · exact .inr hk

theorem titleFailures_nil (hcase : Caseless u checkReading.space) :
    titleFailures u (readMembers lib m) = .ok [] ↔
      ∃ s, (Value.obj m).get? "title" = some (.str s) ∧ Headed u checkReading s := by
  rw [titleFailures]
  obtain ⟨s, hs, hstrip⟩ | ⟨v, hv, hawk, hstrip⟩ | ⟨hnone, -, hstrip⟩ :=
    @strippedText_cases lib m "title"
  · have hupper : (strip (text s)).any (isUpper u) = s.toList.any u.isUppercase := by
      rw [strip_eq]
      exact (any_code u.isUppercase _).trans (Words.any_strip hcase.upper _)
    have hcased : ((strip (text s)).any fun c => isLower u c || isUpper u c) =
        isCasedScript u s := by
      rw [strip_eq]
      refine (any_code (fun c => u.isLowercase c || u.isUppercase c) _).trans (Words.any_strip ?_ _)
      intro c hc
      rw [hcase.upper c hc, hcase.lower c hc, Bool.or_false]
    have hempty : (strip (text s)).isEmpty = true ↔
        Words.strip checkReading.space s.toList = [] := by
      rw [strip_eq, List.isEmpty_iff, List.map_eq_nil_iff]
    simp only [hstrip, hs, Except.bind, bind, pure, Except.pure, hupper, hcased, hempty,
      Except.ok.injEq, Option.some.injEq, Value.str.injEq, exists_eq_left', Headed]
    by_cases hs : Words.strip checkReading.space s.toList = []
    · simp [hs]
    · cases isCasedScript u s <;> cases s.toList.any u.isUppercase <;> simp [hs]
  · rw [hstrip]
    refine iff_of_false (fun h => nomatch h) ?_
    rintro ⟨s, hs, -⟩
    obtain rfl := Option.some.inj (hs.symm.trans hv)
    nomatch hawk.1
  · rw [hstrip]
    refine iff_of_false (fun h => ?_) ?_
    · exact List.cons_ne_nil _ _ (Except.ok.inj h)
    · rintro ⟨s, hs, -⟩
      exact hnone s hs

theorem summaryFailures_nil : summaryFailures (readMembers lib m) = .ok [] ↔
    ∃ s, (Value.obj m).get? "summary" = some (.str s) ∧
      minSummaryChars ≤ (Words.strip checkReading.space s.toList).length := by
  rw [summaryFailures]
  obtain ⟨s, hs, hstrip⟩ | ⟨v, hv, hawk, hstrip⟩ | ⟨hnone, -, hstrip⟩ :=
    @strippedText_cases lib m "summary"
  · have hlength : (strip (text s)).length =
        (Words.strip checkReading.space s.toList).length := by
      rw [strip_eq, List.length_map]
    simp only [hstrip, hs, Except.bind, bind, pure, Except.pure, hlength, Except.ok.injEq,
      Option.some.injEq, Value.str.injEq, exists_eq_left', minSummaryChars]
    split
    · next h => exact iff_of_false (List.cons_ne_nil _ _) (Nat.not_le.2 h)
    · next h => exact iff_of_true rfl (Nat.not_lt.1 h)
  · rw [hstrip]
    refine iff_of_false (fun h => nomatch h) ?_
    rintro ⟨s, hs, -⟩
    obtain rfl := Option.some.inj (hs.symm.trans hv)
    nomatch hawk.1
  · rw [hstrip]
    refine iff_of_false (fun h => ?_) ?_
    · exact List.cons_ne_nil _ _ (Except.ok.inj h)
    · rintro ⟨s, hs, -⟩
      exact hnone s hs

/-! ### The type and its alternatives -/

theorem validIds_contains (s : String) :
    (Tables.of t).validIds.contains (text s) = t.isValidTtId s := by
  rw [Bool.eq_iff_iff, List.contains_iff_mem, Taxonomy.isValidTtId_iff, Tables.of, List.mem_map]
  simp only [text_inj]

theorem find_map {α β : Type} (nodes : List α) (name : α → String) (f : α → β) (s : String) :
    find (nodes.map fun n => (text (name n), f n)) (text s) =
      (nodes.find? fun n => name n = s).map f := by
  rw [find, List.find?_map, Option.map_map]
  simp only [Function.comp_def, text_inj]

theorem find_lensOf (s : String) : find (Tables.of t).lensOf (text s) = (t.lensOf s).map text := by
  rw [Taxonomy.lensOf, Option.map_map]
  exact find_map t.nodes TtNode.id (fun n => text n.lens) s

/-- The parents a table lists are those of the nodes that have one. -/
theorem find_parents (nodes : List TtNode) (hnodup : (nodes.map TtNode.id).Nodup)
    (hnamed : ∀ n ∈ nodes, n.parent ≠ some "") (s : String) :
    find (nodes.filterMap fun n =>
      (n.parent.filter (· ≠ "")).map fun p => (text n.id, text p)) (text s) =
        ((nodes.find? fun n => n.id = s).bind TtNode.parent).map text := by
  induction nodes with
  | nil => rfl
  | cons n nodes ih =>
    rw [List.map_cons, List.nodup_cons] at hnodup
    have ih := ih hnodup.2 fun m hm => hnamed m (List.mem_cons_of_mem _ hm)
    have hkeep : n.parent.filter (· ≠ "") = n.parent := by
      have hne := hnamed n List.mem_cons_self
      cases hp : n.parent with
      | none => rfl
      | some p =>
        rw [hp] at hne
        exact Option.filter_some_pos (decide_eq_true fun h => hne (congrArg some h))
    rw [List.filterMap_cons, hkeep]
    by_cases hid : n.id = s
    · subst hid
      rw [List.find?_cons_of_pos (by simp)]
      cases hp : n.parent with
      | none =>
        have hnone : nodes.find? (fun m => m.id = n.id) = none := by
          rw [List.find?_eq_none]
          intro m hm heq
          exact hnodup.1 (List.mem_map.2 ⟨m, hm, of_decide_eq_true heq⟩)
        rw [hnone] at ih
        simpa [hp] using ih
      | some p => simp [hp, find]
    · rw [List.find?_cons_of_neg (by simpa using hid), ← ih]
      cases n.parent with
      | none => rfl
      | some p =>
        have htext : text n.id ≠ text s := mt text_inj.1 hid
        simp [find, htext]

theorem find_parentOf (s : String) :
    find (Tables.of t).parentOf (text s) = (t.parentOf s).map text :=
  find_parents t.nodes t.distinct (fun n hn => (t.named n hn).2) s

theorem parentOf_ne (s : String) : t.parentOf s ≠ some "" := by
  intro h
  obtain ⟨n, hn, hp⟩ := Option.bind_eq_some_iff.1 h
  exact (t.named n (Taxonomy.node?_mem hn).1).2 hp

theorem ancestorsFrom_text (k : Nat) (s : String) :
    ancestorsFrom (Tables.of t).parentOf k (text s) = (t.ancestors k s).map text := by
  induction k generalizing s with
  | zero => rfl
  | succ k ih =>
    rw [ancestorsFrom, find_parentOf, Taxonomy.ancestors]
    cases hp : t.parentOf s with
    | none => rfl
    | some p =>
      have hne : (text p).isEmpty = false := by
        rw [List.isEmpty_eq_false_iff, text, ne_eq, List.map_eq_nil_iff, String.toList_eq_nil_iff]
        rintro rfl
        exact parentOf_ne s hp
      simp only [Option.map_some, hne, Bool.false_eq_true, if_false, ih, List.map_cons]

theorem isAncestor_text (a b : String) :
    isAncestor (some (text a)) (some (text b)) (Tables.of t).parentOf = t.isAncestorOf a b := by
  rw [isAncestor, Taxonomy.isAncestorOf, ancestors, ancestorsFrom_text, Taxonomy.ancestorsOf]
  congr 1
  · rw [Bool.eq_iff_iff, beq_iff_eq, beq_iff_eq, Option.some.injEq, text_inj]
  · rw [Bool.eq_iff_iff, List.contains_iff_mem, List.contains_iff_mem,
      List.mem_map_of_injective fun _ _ => text_inj.1]

theorem typeFailures_nil : typeFailures (Tables.of t) (readMembers lib m) = .ok [] ↔
    ∃ ct, (Value.obj m).get? "claim_type" = some (.str ct) ∧ Typed t (.obj m) ct := by
  rw [typeFailures, asText_get]
  cases hct : ((Value.obj m).get? "claim_type").bind Value.asStr with
  | none =>
    refine iff_of_false ?_ ?_
    · dsimp only [Option.map_none]
      split
      · exact fun h => nomatch h
      · exact fun h => List.cons_ne_nil _ _ (Except.ok.inj h)
    · rintro ⟨ct, hs, -⟩
      exact bind_asStr_none hct ct hs
  | some ct =>
    rw [bind_asStr] at hct
    have hhash : hashable (get (readMembers lib m) "claim_type") = true := by
      rw [get_read, hct]
      rfl
    simp only [hhash, Option.map_some, Bool.not_true, Bool.false_eq_true, if_false, hct,
      Option.some.injEq, Value.str.injEq, exists_eq_left', validIds_contains,
      Except.ok.injEq, Typed]
    cases hvalid : t.isValidTtId ct with
    | false => simp
    | true =>
      obtain ⟨l, hl⟩ : ∃ l, t.lensOf ct = some l := by
        rw [← Option.isSome_iff_exists, Taxonomy.lensOf_isSome, hvalid]
      have hlens : lensDiffers (Tables.of t) (readMembers lib m) (text ct) = false ↔
          (Value.obj m).get? "lens" = some (.str l) := by
        rw [← @asText_iff lib, lensDiffers, find_lensOf, hl]
        cases get (readMembers lib m) "lens" <;> simp [asText]
      cases hdiff : lensDiffers (Tables.of t) (readMembers lib m) (text ct) with
      | false => simpa [hl] using hlens.1 hdiff
      | true =>
        rw [hdiff] at hlens
        simpa [hl] using hlens

/-! ### Alternatives -/

theorem asText_str {v : Value} {s : String} : asText (read lib v) = some (text s) ↔ v = .str s := by
  rw [asText_read, Option.map_eq_some_iff]
  have hbind := @bind_asStr (some v) s
  rw [Option.bind_some, Option.some.injEq] at hbind
  rw [← hbind]
  constructor
  · rintro ⟨s', hs', heq⟩
    rwa [text_inj.1 heq] at hs'
  · exact fun h => ⟨s, h, rfl⟩

/-- An alternative that is not a competing node, or stands twice, is refused. -/
theorem alternativeFailures_nil {ct : String} {alts : List Value} {a : Value} :
    alternativeFailures (Tables.of t) (some (text ct)) (alts.map (read lib)) (read lib a) = [] ↔
      ∃ s, a = .str s ∧ Competes t ct s ∧ alts.countP (fun b => b.asStr = some s) ≤ 1 := by
  rw [alternativeFailures]
  cases hs : a.asStr with
  | none =>
    rw [asText_read, hs]
    refine iff_of_false (List.cons_ne_nil _ _) ?_
    rintro ⟨s, rfl, -⟩
    exact Option.some_ne_none s hs
  | some s =>
    have ha : a = .str s := by simpa using (bind_asStr (x := some a)).1 hs
    subst ha
    have hcount : (alts.map (read lib)).countP (fun b => asText b == some (text s)) =
        alts.countP (fun b => b.asStr = some s) := by
      rw [List.countP_map]
      refine congrArg (List.countP · alts) (funext fun b => ?_)
      rw [Function.comp_apply, Bool.eq_iff_iff, beq_iff_eq, decide_eq_true_eq, asText_str,
        ← Option.some_inj, ← bind_asStr, Option.bind_some]
    rw [asText_read, hs]
    simp only [Option.map_some, validIds_contains, isAncestor_text, hcount, Value.str.injEq,
      exists_eq_left']
    constructor
    · intro h
      split at h
      · exact absurd h (List.cons_ne_nil _ _)
      next hfirst =>
      split at h
      · exact absurd h (List.cons_ne_nil _ _)
      next habove =>
      split at h
      · exact absurd h (List.cons_ne_nil _ _)
      next hbelow =>
      simp only [Bool.or_eq_true, Bool.not_eq_true', decide_eq_true_eq, not_or, Nat.not_lt,
        Bool.not_eq_false] at hfirst
      exact ⟨⟨hfirst.1.1, Bool.eq_false_iff.2 habove, Bool.eq_false_iff.2 hbelow⟩, hfirst.2⟩
    · rintro ⟨hcompetes, honce⟩
      have hself : (some (text s) == some (text ct)) = false := by
        rw [beq_eq_false_iff_ne, ne_eq, Option.some.injEq, text_inj]
        rintro rfl
        have habove := hcompetes.above
        rw [Taxonomy.isAncestorOf, beq_self_eq_true, Bool.true_or] at habove
        exact Bool.noConfusion habove
      rw [hcompetes.valid, hself, hcompetes.above, hcompetes.below,
        decide_eq_false (Nat.not_lt.2 honce)]
      rfl

/-- A list without failures is one of competing nodes, each once. -/
theorem flatMap_alternativeFailures {ct : String} {alts : List Value} :
    (alts.map (read lib)).flatMap
        (alternativeFailures (Tables.of t) (some (text ct)) (alts.map (read lib))) = [] ↔
      ∃ ss, alts = ss.map .str ∧ Competing t ct ss := by
  have hcount : ∀ (ss : List String) (s : String),
      (ss.map Value.str).countP (fun b => b.asStr = some s) = ss.count s := by
    intro ss s
    rw [List.countP_map, List.count]
    refine congrArg (List.countP · ss) (funext fun x => ?_)
    rw [Bool.eq_iff_iff, Function.comp_apply, decide_eq_true_eq, beq_iff_eq, Value.asStr,
      Option.some.injEq]
  simp only [List.flatMap_eq_nil_iff, List.forall_mem_map, alternativeFailures_nil]
  constructor
  · intro h
    obtain ⟨ss, rfl⟩ : alts ∈ Set.range (List.map Value.str) := by
      rw [Set.range_list_map]
      intro a ha
      obtain ⟨s, rfl, -⟩ := h a ha
      exact ⟨s, rfl⟩
    refine ⟨ss, rfl, List.nodup_iff_count_le_one.2 fun s => ?_, fun s hs => ?_⟩
    · by_cases hs : s ∈ ss
      · obtain ⟨s', heq, -, honce⟩ := h _ (List.mem_map_of_mem hs)
        obtain rfl := Value.str.inj heq
        rwa [hcount] at honce
      · rw [List.count_eq_zero_of_not_mem hs]
        exact Nat.zero_le 1
    · obtain ⟨s', heq, hcompetes, -⟩ := h _ (List.mem_map_of_mem hs)
      obtain rfl := Value.str.inj heq
      exact hcompetes
  · rintro ⟨ss, rfl, hnodup, hcompetes⟩ a ha
    obtain ⟨s, hs, rfl⟩ := List.mem_map.1 ha
    refine ⟨s, rfl, hcompetes s hs, ?_⟩
    rw [hcount]
    exact List.nodup_iff_count_le_one.1 hnodup s

theorem crossLens_read {ct : String} (ss : List String) :
    crossLens (Tables.of t) (some (text ct)) ((ss.map Value.str).map (read lib)) =
      V0.Authoring.crossLens t ct ss := by
  rw [crossLens, V0.Authoring.crossLens, List.any_map, List.any_map]
  refine congrArg (ss.any ·) (funext fun s => ?_)
  have hne : ((t.lensOf s).map text ≠ (t.lensOf ct).map text) ↔ t.lensOf s ≠ t.lensOf ct :=
    not_congr (Option.map_injective fun _ _ => text_inj.1).eq_iff
  simp only [Function.comp_apply, asText_read, Value.asStr, Option.map_some, Option.any_some,
    find_lensOf, Option.isSome_map, Option.bind_some, hne]

/-- The flag of a document, read. -/
theorem flag_read {derived : Bool} :
    (match find (readMembers lib m) (text "alternatives_cross_lens") with
      | none => []
      | some (.bool declared) =>
        if declared = derived then [] else [text "alternatives-cross-lens-mismatch"]
      | some _ => [text "alternatives-cross-lens-mismatch"]) = [] ↔
    ∀ w, (Value.obj m).get? "alternatives_cross_lens" = some w → w = .bool derived := by
  rw [find_read]
  cases (Value.obj m).get? "alternatives_cross_lens" with
  | none => simp
  | some v =>
    cases v with
    | bool b => simp [read]
    | float x => obtain ⟨-, h⟩ | ⟨-, bits, h⟩ := @read_float lib x <;> simp [h]
    | _ => simp [read]

/-- The flag of a document without alternatives. -/
theorem undeclared_read :
    (match get (readMembers lib m) "alternatives_cross_lens" with
      | .bool true => [text "alternatives-cross-lens-mismatch"]
      | _ => []) = [] ↔ (Value.obj m).get? "alternatives_cross_lens" ≠ some (.bool true) := by
  rw [get_read]
  cases (Value.obj m).get? "alternatives_cross_lens" with
  | none => simp
  | some v =>
    cases v with
    | bool b => cases b <;> simp [read]
    | float x => obtain ⟨-, h⟩ | ⟨-, bits, h⟩ := @read_float lib x <;> simp [h]
    | _ => simp [read]

theorem alternativesFailures_nil {ct : String}
    (hct : (Value.obj m).get? "claim_type" = some (.str ct)) :
    alternativesFailures (Tables.of t) (readMembers lib m) = [] ↔
      Compared t checkReading (.obj m) ct := by
  have htype : asText (get (readMembers lib m) "claim_type") = some (text ct) := asText_iff.2 hct
  have hlone : ∀ derived, [text "claim-type-alternative-invalid"] ++
      (match find (readMembers lib m) (text "alternatives_cross_lens") with
        | none => []
        | some (.bool declared) =>
          if declared = derived then [] else [text "alternatives-cross-lens-mismatch"]
        | some _ => [text "alternatives-cross-lens-mismatch"]) ≠ [] := fun _ h =>
    List.cons_ne_nil _ _ (List.append_eq_nil_iff.1 h).1
  rw [alternativesFailures, Compared, htype, get_read]
  cases (Value.obj m).get? "claim_type_alternatives" with
  | none => exact undeclared_read
  | some v =>
    cases v with
    | null =>
      simp only [Option.map_some, Option.getD_some, read]
      rw [undeclared_read]
      simp [checkReading]
    | arr items =>
      simp only [Option.map_some, Option.getD_some, read, readItems_eq]
      rw [List.append_eq_nil_iff, flatMap_alternativeFailures]
      simp only [checkReading, Bool.false_eq_true, false_and, false_or, Value.arr.injEq]
      constructor
      · rintro ⟨⟨ss, rfl, hcompeting⟩, hflag⟩
        rw [crossLens_read, flag_read] at hflag
        exact ⟨ss, rfl, hcompeting, hflag⟩
      · rintro ⟨ss, rfl, hcompeting, hflag⟩
        refine ⟨⟨ss, rfl, hcompeting⟩, ?_⟩
        rw [crossLens_read, flag_read]
        exact hflag
    | float x =>
      obtain ⟨-, h⟩ | ⟨-, bits, h⟩ := @read_float lib x
      all_goals
        simp only [Option.map_some, Option.getD_some, h]
        exact iff_of_false (hlone _) (by simp [checkReading])
    | _ =>
      simp only [Option.map_some, Option.getD_some, read]
      exact iff_of_false (hlone _) (by simp [checkReading])

/-! ### Provenance -/

theorem strip_ne_nil {s : Text} {c : Nat} (hc : c ∈ s) (hblank : isBlank c = false) :
    strip s ≠ [] := by
  intro h
  have hany := @Words.any_strip _ isBlank (fun c => !isBlank c) (fun c hc => by rw [hc]; rfl) s
  rw [show Words.strip isBlank s = [] from h] at hany
  have hin : (s.any fun c => !isBlank c) = true :=
    List.any_eq_true.mpr ⟨c, hc, by rw [hblank, Bool.not_false]⟩
  exact absurd (hany.trans hin) Bool.false_ne_true

theorem str_eq {v : Py} (hv : asText v = none) : str lib v = repr lib v := by
  cases v with
  | str s => nomatch hv
  | _ => rfl

theorem intText_graphic (n : Int) : ∃ b ∈ intText n, isBlank b.toNat = false := by
  rw [intText]
  split
  · exact ⟨_, List.mem_cons_self, by decide⟩
  · obtain ⟨b, bs, h, hdigit, -⟩ := digits_cons n.natAbs
    refine ⟨b, h ▸ List.mem_cons_self, ?_⟩
    simp only [isDigit, Bool.and_eq_true, decide_eq_true_eq, UInt8.le_iff_toNat_le] at hdigit
    obtain ⟨hlow, hhigh⟩ := hdigit
    have hlow : 48 ≤ b.toNat := hlow
    have hhigh : b.toNat ≤ 57 := hhigh
    generalize b.toNat = c at hlow hhigh
    interval_cases c <;> decide

/-- What is no text is printed with more than white space. -/
theorem printed_ne {v : Py} (hv : asText v = none) : strip (str lib v) ≠ [] := by
  rw [str_eq hv]
  cases v with
  | str s => nomatch hv
  | null => exact strip_ne_nil (c := 'N'.toNat) (by rw [repr]; decide) (by decide)
  | bool b =>
    cases b
    · exact strip_ne_nil (c := 'F'.toNat) (by rw [repr]; decide) (by decide)
    · exact strip_ne_nil (c := 'T'.toNat) (by rw [repr]; decide) (by decide)
  | int n =>
    obtain ⟨b, hb, hblank⟩ := intText_graphic n
    rw [repr]
    exact strip_ne_nil (List.mem_map_of_mem hb) hblank
  | float bits =>
    obtain ⟨b, hb, hblank⟩ := lib.printed bits
    rw [repr]
    exact strip_ne_nil (List.mem_map_of_mem hb) hblank
  | list items =>
    refine strip_ne_nil (c := '['.toNat) ?_ (by decide)
    cases items with
    | nil => rw [repr]; decide
    | cons v vs =>
      rw [repr]
      exact List.mem_append_left _ (by decide)
  | dict items =>
    refine strip_ne_nil (c := 0x7b) ?_ (by decide)
    cases items with
    | nil => rw [repr]; decide
    | cons row rows =>
      rw [repr]
      exact List.mem_append_left _ (by decide)

theorem printed_nil {rows : List (String × Value)} {f : String} :
    printed lib (readMembers lib rows) f = [] ↔ ¬ Holds checkReading rows f := by
  rw [printed, find_read, Holds]
  cases (Value.obj rows).get? f with
  | none => simp [str, strip, Words.strip]
  | some v =>
    simp only [Option.map_some, Option.getD_some, Option.some.injEq, exists_eq_left']
    cases hs : v.asStr with
    | some s =>
      have hv : v = .str s := by simpa using (bind_asStr (x := some v)).1 hs
      subst hv
      rw [read, str, strip_eq, List.map_eq_nil_iff, Reading.filled]
      simp
    | none =>
      have hfilled : checkReading.filled v = true := by
        cases v with
        | str s => exact absurd hs (Option.some_ne_none s)
        | _ => rfl
      refine iff_of_false (printed_ne ?_) (not_not_intro hfilled)
      rw [asText_read, hs, Option.map_none]

theorem assertedFailures_nil : assertedFailures lib (readMembers lib m) = [] ↔
    ∃ rows, (Value.obj m).get? "prov_asserted" = some (.obj rows) ∧
      Holds checkReading rows "historical_claim" := by
  rw [assertedFailures, get_read]
  cases (Value.obj m).get? "prov_asserted" with
  | none => simp
  | some v =>
    cases v with
    | obj rows => simp [read, printed_nil]
    | float x => obtain ⟨-, h⟩ | ⟨-, bits, h⟩ := @read_float lib x <;> simp [h]
    | _ => simp [read]

theorem measuredFailures_nil : measuredFailures lib (readMembers lib m) = [] ↔
    ∃ rows, (Value.obj m).get? "prov_measured" = some (.obj rows) ∧
      ∀ f ∈ provMeasuredFields, Holds checkReading rows f := by
  rw [measuredFailures, get_read]
  cases (Value.obj m).get? "prov_measured" with
  | none => simp
  | some v =>
    cases v with
    | obj rows =>
      have hfields : requiredProvMeasured = provMeasuredFields := rfl
      simp only [Option.map_some, Option.getD_some, read, hfields]
      simp [printed_nil]
    | float x => obtain ⟨-, h⟩ | ⟨-, bits, h⟩ := @read_float lib x <;> simp [h]
    | _ => simp [read]

/-! ### The verdict -/

/-- The check raises nothing: a title or summary that is no text is taken for none, and the type
can be looked up. -/
structure Judged (lib : Library) (m : List (String × Value)) : Prop where
  title : ∀ v, (Value.obj m).get? "title" = some v → ¬ Awkward lib v
  type : ∀ v, (Value.obj m).get? "claim_type" = some v → hashable (read lib v) = true
  summary : ∀ v, (Value.obj m).get? "summary" = some v → ¬ Awkward lib v

theorem strippedText_ok {name : String} :
    (∃ s, strippedText (readMembers lib m) name = .ok s) ↔
      ∀ v, (Value.obj m).get? name = some v → ¬ Awkward lib v := by
  obtain ⟨s, hs, hstrip⟩ | ⟨v, hv, hawk, hstrip⟩ | ⟨-, hfalsy, hstrip⟩ :=
    @strippedText_cases lib m name
  · refine iff_of_true ⟨_, hstrip⟩ fun v hv hawk => ?_
    obtain rfl := Option.some.inj (hs.symm.trans hv)
    nomatch hawk.1
  · rw [hstrip]
    exact iff_of_false (fun ⟨_, h⟩ => nomatch h) fun h => h v hv hawk
  · exact iff_of_true ⟨_, hstrip⟩ hfalsy

theorem typeFailures_ok : (∃ fs, typeFailures (Tables.of t) (readMembers lib m) = .ok fs) ↔
    ∀ v, (Value.obj m).get? "claim_type" = some v → hashable (read lib v) = true := by
  have hhash : hashable (get (readMembers lib m) "claim_type") = true ↔
      ∀ v, (Value.obj m).get? "claim_type" = some v → hashable (read lib v) = true := by
    rw [get_read]
    cases (Value.obj m).get? "claim_type" with
    | none => exact iff_of_true rfl fun v hv => nomatch hv
    | some v => simp
  rw [← hhash, typeFailures]
  cases hashable (get (readMembers lib m) "claim_type") with
  | false => simp
  | true =>
    refine iff_of_true ?_ rfl
    simp only [Bool.not_true, Bool.false_eq_true, if_false]
    split
    · exact ⟨_, rfl⟩
    · exact ⟨_, rfl⟩

theorem objectFailures_ok :
    (∃ fs, objectFailures u lib (Tables.of t) (readMembers lib m) = .ok fs) ↔ Judged lib m := by
  have htitle : (∃ fs, titleFailures u (readMembers lib m) = .ok fs) ↔
      ∃ s, strippedText (readMembers lib m) "title" = .ok s := by
    simp only [titleFailures, bind_ok]
    exact ⟨fun ⟨_, s, hs, _⟩ => ⟨s, hs⟩, fun ⟨s, hs⟩ => ⟨_, s, hs, rfl⟩⟩
  have hsummary : (∃ fs, summaryFailures (readMembers lib m) = .ok fs) ↔
      ∃ s, strippedText (readMembers lib m) "summary" = .ok s := by
    simp only [summaryFailures, bind_ok]
    exact ⟨fun ⟨_, s, hs, _⟩ => ⟨s, hs⟩, fun ⟨s, hs⟩ => ⟨_, s, hs, rfl⟩⟩
  simp only [objectFailures, bind_ok]
  constructor
  · rintro ⟨_, title, ht, type, hy, summary, hs, _⟩
    exact ⟨strippedText_ok.1 (htitle.1 ⟨_, ht⟩), typeFailures_ok.1 ⟨_, hy⟩,
      strippedText_ok.1 (hsummary.1 ⟨_, hs⟩)⟩
  · intro h
    obtain ⟨title, ht⟩ := htitle.2 (strippedText_ok.2 h.title)
    obtain ⟨type, hy⟩ := typeFailures_ok.2 h.type
    obtain ⟨summary, hs⟩ := hsummary.2 (strippedText_ok.2 h.summary)
    exact ⟨_, title, ht, type, hy, summary, hs, rfl⟩

/-- The check finds nothing wrong with what is admissible in its reading. -/
theorem objectFailures_nil (hcase : Caseless u checkReading.space) :
    objectFailures u lib (Tables.of t) (readMembers lib m) = .ok [] ↔
      Admissible u t checkReading (.obj m) := by
  have hparts : objectFailures u lib (Tables.of t) (readMembers lib m) = .ok [] ↔
      titleFailures u (readMembers lib m) = .ok [] ∧
      typeFailures (Tables.of t) (readMembers lib m) = .ok [] ∧
      summaryFailures (readMembers lib m) = .ok [] ∧
      fieldFailures (readMembers lib m) = [] ∧ dateFailures (readMembers lib m) = [] ∧
      yearFailures (readMembers lib m) = [] ∧
      alternativesFailures (Tables.of t) (readMembers lib m) = [] ∧
      bundleFailures (Tables.of t) (readMembers lib m) = [] ∧
      kindFailures (readMembers lib m) = [] ∧ countFailures (readMembers lib m) = [] ∧
      measuredFailures lib (readMembers lib m) = [] ∧
      assertedFailures lib (readMembers lib m) = [] := by
    simp only [objectFailures, bind_ok, pure, Except.pure, Except.ok.injEq, List.append_eq_nil_iff]
    constructor
    · rintro ⟨_, ht, _, hy, _, hs,
        ⟨⟨⟨⟨⟨⟨⟨⟨⟨⟨⟨hf, hd⟩, hyear⟩, rfl⟩, rfl⟩, ha⟩, hb⟩, hk⟩, hc⟩, rfl⟩, hm⟩, hw⟩⟩
      exact ⟨ht, hy, hs, hf, hd, hyear, ha, hb, hk, hc, hm, hw⟩
    · rintro ⟨ht, hy, hs, hf, hd, hyear, ha, hb, hk, hc, hm, hw⟩
      exact ⟨_, ht, _, hy, _, hs,
        ⟨⟨⟨⟨⟨⟨⟨⟨⟨⟨⟨hf, hd⟩, hyear⟩, rfl⟩, rfl⟩, ha⟩, hb⟩, hk⟩, hc⟩, rfl⟩, hm⟩, hw⟩⟩
  rw [hparts, titleFailures_nil hcase, typeFailures_nil, summaryFailures_nil, fieldFailures_nil,
    dateFailures_nil, yearFailures_nil, bundleFailures_nil, kindFailures_nil, countFailures_nil,
    measuredFailures_nil, assertedFailures_nil]
  constructor
  · rintro ⟨title, ⟨ct, hct, typed⟩, summary, names, dated, year, alternatives, bundle, kind, count,
      measured, asserted⟩
    exact ⟨names, dated, year, title,
      ⟨ct, hct, typed, (alternativesFailures_nil hct).1 alternatives⟩, bundle, kind, count, summary,
      measured, asserted⟩
  · intro h
    obtain ⟨ct, hct, typed, compared⟩ := h.type
    exact ⟨h.title, ⟨ct, hct, typed⟩, h.summary, h.names, h.dated, h.year,
      (alternativesFailures_nil hct).2 compared, h.bundle, h.kind, h.count, h.measured, h.asserted⟩

/-! ## The two readings -/

/-- A number, if any, that is an integer to both sides or to neither: no flag, no negative zero
and nothing beyond 64 bits. -/
def Numbered : Value → Prop
  | .bool _ => False
  | .float x => x ≠ ['-', '0']
  | .int n => -2 ^ 63 ≤ n ∧ n < 2 ^ 63
  | _ => True

/-- A count, if it is a number from one on to either side, is a number to both. -/
def Counted : Value → Prop
  | .bool b => b = false
  | .int n => n < 2 ^ 63
  | _ => True

/-- Blank to Python and to Rust, or to neither. -/
def BlankAlike (s : String) : Prop :=
  Words.strip checkReading.space s.toList = [] ↔ Words.strip isWhitespace s.toList = []

/-- The fields whose reading differs are read alike. -/
structure Alike (m : List (String × Value)) : Prop where
  year : ∀ v, (Value.obj m).get? "year" = some v → Numbered v
  count : ∀ v, (Value.obj m).get? "observed_count" = some v → Counted v
  alternatives : (Value.obj m).get? "claim_type_alternatives" ≠ some .null
  title : ∀ s, (Value.obj m).get? "title" = some (.str s) → BlankAlike s
  summary : ∀ s, (Value.obj m).get? "summary" = some (.str s) →
    (minSummaryChars ≤ (Words.strip checkReading.space s.toList).length ↔
      minSummaryChars ≤ (Words.strip isWhitespace s.toList).length)
  measured : ∀ rows, (Value.obj m).get? "prov_measured" = some (.obj rows) →
    ∀ f ∈ provMeasuredFields, ∀ v, (Value.obj rows).get? f = some v → ∃ s, v = .str s ∧ BlankAlike s
  asserted : ∀ rows, (Value.obj m).get? "prov_asserted" = some (.obj rows) →
    ∀ v, (Value.obj rows).get? "historical_claim" = some v → ∃ s, v = .str s ∧ BlankAlike s

/-- Without the separators that Python alone takes for white space. -/
def Spaced (s : String) : Prop := ∀ c ∈ s.toList, ¬ (0x1C ≤ c.toNat ∧ c.toNat ≤ 0x1F)

/-- The fields whose reading differs hold what both sides read alike. -/
structure Plain (m : List (String × Value)) : Prop where
  year : ∀ v, (Value.obj m).get? "year" = some v → Numbered v
  count : ∀ v, (Value.obj m).get? "observed_count" = some v → Numbered v
  alternatives : (Value.obj m).get? "claim_type_alternatives" ≠ some .null
  title : ∀ s, (Value.obj m).get? "title" = some (.str s) → Spaced s
  summary : ∀ s, (Value.obj m).get? "summary" = some (.str s) → Spaced s
  measured : ∀ rows, (Value.obj m).get? "prov_measured" = some (.obj rows) →
    ∀ f ∈ provMeasuredFields, ∀ v, (Value.obj rows).get? f = some v → ∃ s, v = .str s ∧ Spaced s
  asserted : ∀ rows, (Value.obj m).get? "prov_asserted" = some (.obj rows) →
    ∀ v, (Value.obj rows).get? "historical_claim" = some v → ∃ s, v = .str s ∧ Spaced s

theorem isBlank_eq {c : Char} (h : ¬ (0x1C ≤ c.toNat ∧ c.toNat ≤ 0x1F)) :
    isBlank c.toNat = isWhitespace c := by
  rw [Bool.eq_iff_iff]
  simp only [isBlank, isWhitespace, Bool.or_eq_true, Bool.and_eq_true, decide_eq_true_eq,
    List.contains_iff_mem, List.mem_cons, List.not_mem_nil, or_false]
  omega

theorem strip_spaced {s : String} (h : Spaced s) :
    Words.strip checkReading.space s.toList = Words.strip isWhitespace s.toList :=
  Words.strip_congr fun c hc => isBlank_eq (h c hc)

theorem Plain.alike (plain : Plain m) : Alike m where
  year := plain.year
  count v hv := by
    have hnum := plain.count v hv
    cases v with
    | bool b => exact hnum.elim
    | int n => exact hnum.2
    | _ => trivial
  alternatives := plain.alternatives
  title s hs := by rw [BlankAlike, strip_spaced (plain.title s hs)]
  summary s hs := by rw [strip_spaced (plain.summary s hs)]
  measured rows hrows f hf v hv := by
    obtain ⟨s, rfl, hs⟩ := plain.measured rows hrows f hf v hv
    exact ⟨s, rfl, by rw [BlankAlike, strip_spaced hs]⟩
  asserted rows hrows v hv := by
    obtain ⟨s, rfl, hs⟩ := plain.asserted rows hrows v hv
    exact ⟨s, rfl, by rw [BlankAlike, strip_spaced hs]⟩

theorem filled_iff {r : Reading} {s : String} :
    r.filled (.str s) = true ↔ Words.strip r.space s.toList ≠ [] := by
  rw [Reading.filled, Bool.not_eq_true', List.isEmpty_eq_false_iff]

theorem holds_alike {rows : List (String × Value)} {f : String}
    (h : ∀ v, (Value.obj rows).get? f = some v → ∃ s, v = .str s ∧ BlankAlike s) :
    Holds checkReading rows f ↔ Holds gateReading rows f := by
  refine exists_congr fun v => and_congr_right fun hv => ?_
  obtain ⟨s, rfl, hs⟩ := h v hv
  rw [filled_iff, filled_iff]
  exact not_congr hs

/-- What both sides let stand in a field is read alike. -/
theorem alike_holds {rows : List (String × Value)} {f : String} {v : Value}
    (hcheck : Holds checkReading rows f) (hgate : Holds gateReading rows f)
    (hv : (Value.obj rows).get? f = some v) : ∃ s, v = .str s ∧ BlankAlike s := by
  obtain ⟨w, hw, hfilled⟩ := hcheck
  obtain rfl := Option.some.inj (hw.symm.trans hv)
  obtain ⟨w', hw', hfilled'⟩ := hgate
  obtain rfl := Option.some.inj (hw'.symm.trans hv)
  cases w' with
  | str s => exact ⟨s, rfl, iff_of_false (filled_iff.1 hfilled) (filled_iff.1 hfilled')⟩
  | _ => cases hfilled'

theorem admissible_alike (alike : Alike m) :
    Admissible u t checkReading (.obj m) ↔ Admissible u t gateReading (.obj m) := by
  have hyear : (∃ v, (Value.obj m).get? "year" = some v ∧ checkReading.year v = true) ↔
      ∃ v, (Value.obj m).get? "year" = some v ∧ gateReading.year v = true := by
    refine exists_congr fun v => and_congr_right fun hv => ?_
    have hnum := alike.year v hv
    cases v <;> simp_all [Numbered, checkReading, gateReading, Value.asI64]
  have hcount : (∃ v, (Value.obj m).get? "observed_count" = some v ∧ checkReading.count v = true) ↔
      ∃ v, (Value.obj m).get? "observed_count" = some v ∧ gateReading.count v = true := by
    refine exists_congr fun v => and_congr_right fun hv => ?_
    have hnum := alike.count v hv
    cases v with
    | int n =>
      simp only [Counted] at hnum
      simp only [checkReading, gateReading, Value.asI64, decide_eq_true_eq]
      split
      · simp
      · simp only [Option.any_none, Bool.false_eq_true, iff_false]
        omega
    | _ => simp_all [Counted, checkReading, gateReading, Value.asI64]
  have htitle : (∃ s, (Value.obj m).get? "title" = some (.str s) ∧ Headed u checkReading s) ↔
      ∃ s, (Value.obj m).get? "title" = some (.str s) ∧ Headed u gateReading s := by
    refine exists_congr fun s => and_congr_right fun hs => ?_
    exact and_congr_left' (not_congr (alike.title s hs))
  have hsummary : (∃ s, (Value.obj m).get? "summary" = some (.str s) ∧
      minSummaryChars ≤ (Words.strip checkReading.space s.toList).length) ↔
      ∃ s, (Value.obj m).get? "summary" = some (.str s) ∧
        minSummaryChars ≤ (Words.strip gateReading.space s.toList).length :=
    exists_congr fun s => and_congr_right fun hs => alike.summary s hs
  have hcompared : ∀ ct, Compared t checkReading (.obj m) ct ↔
      Compared t gateReading (.obj m) ct := by
    intro ct
    unfold Compared
    have halts := alike.alternatives
    cases hfield : (Value.obj m).get? "claim_type_alternatives" with
    | none => exact Iff.rfl
    | some v =>
      have habsent : checkReading.absent v = gateReading.absent v := by
        cases v with
        | null => exact absurd hfield halts
        | _ => rfl
      simp only [habsent]
  have hmeasured : (∃ rows, (Value.obj m).get? "prov_measured" = some (.obj rows) ∧
      ∀ f ∈ provMeasuredFields, Holds checkReading rows f) ↔
      ∃ rows, (Value.obj m).get? "prov_measured" = some (.obj rows) ∧
        ∀ f ∈ provMeasuredFields, Holds gateReading rows f :=
    exists_congr fun rows => and_congr_right fun hrows =>
      forall₂_congr fun f hf => holds_alike (alike.measured rows hrows f hf)
  have hasserted : (∃ rows, (Value.obj m).get? "prov_asserted" = some (.obj rows) ∧
      Holds checkReading rows "historical_claim") ↔
      ∃ rows, (Value.obj m).get? "prov_asserted" = some (.obj rows) ∧
        Holds gateReading rows "historical_claim" :=
    exists_congr fun rows => and_congr_right fun hrows => holds_alike (alike.asserted rows hrows)
  constructor
  · intro h
    exact ⟨h.names, h.dated, hyear.1 h.year, htitle.1 h.title,
      h.type.imp fun ct hct => ⟨hct.1, hct.2.1, (hcompared ct).1 hct.2.2⟩, h.bundle, h.kind,
      hcount.1 h.count, hsummary.1 h.summary, hmeasured.1 h.measured, hasserted.1 h.asserted⟩
  · intro h
    exact ⟨h.names, h.dated, hyear.2 h.year, htitle.2 h.title,
      h.type.imp fun ct hct => ⟨hct.1, hct.2.1, (hcompared ct).2 hct.2.2⟩, h.bundle, h.kind,
      hcount.2 h.count, hsummary.2 h.summary, hmeasured.2 h.measured, hasserted.2 h.asserted⟩

/-- What is admissible in both readings is read alike. -/
theorem alike_of_admissible (hcheck : Admissible u t checkReading (.obj m))
    (hgate : Admissible u t gateReading (.obj m)) : Alike m where
  year v hv := by
    obtain ⟨w, hw, hyear⟩ := hgate.year
    obtain rfl := Option.some.inj (hw.symm.trans hv)
    cases w <;> simp_all [Numbered, gateReading, Value.asI64]
  count v hv := by
    obtain ⟨w, hw, hcount⟩ := hgate.count
    obtain rfl := Option.some.inj (hw.symm.trans hv)
    cases w with
    | int n =>
      simp only [gateReading, Value.asI64] at hcount
      split at hcount
      · next h => exact h.2
      · cases hcount
    | bool b => simp [gateReading, Value.asI64] at hcount
    | _ => trivial
  alternatives hnull := by
    obtain ⟨ct, -, -, hcompared⟩ := hgate.type
    rw [Compared, hnull] at hcompared
    rcases hcompared with ⟨habsent, -⟩ | ⟨alts, halts, -⟩
    · exact Bool.noConfusion habsent
    · exact Value.noConfusion halts
  title s hs := by
    obtain ⟨s₁, hs₁, hheaded, -⟩ := hcheck.title
    obtain rfl := Value.str.inj (Option.some.inj (hs₁.symm.trans hs))
    obtain ⟨s₂, hs₂, hheaded', -⟩ := hgate.title
    obtain rfl := Value.str.inj (Option.some.inj (hs₂.symm.trans hs))
    exact iff_of_false hheaded hheaded'
  summary s hs := by
    obtain ⟨s₁, hs₁, hlong⟩ := hcheck.summary
    obtain rfl := Value.str.inj (Option.some.inj (hs₁.symm.trans hs))
    obtain ⟨s₂, hs₂, hlong'⟩ := hgate.summary
    obtain rfl := Value.str.inj (Option.some.inj (hs₂.symm.trans hs))
    exact iff_of_true hlong hlong'
  measured rows hrows f hf v hv := by
    obtain ⟨rows₁, hrows₁, hholds⟩ := hcheck.measured
    obtain rfl := Value.obj.inj (Option.some.inj (hrows₁.symm.trans hrows))
    obtain ⟨rows₂, hrows₂, hholds'⟩ := hgate.measured
    obtain rfl := Value.obj.inj (Option.some.inj (hrows₂.symm.trans hrows))
    exact alike_holds (hholds f hf) (hholds' f hf) hv
  asserted rows hrows v hv := by
    obtain ⟨rows₁, hrows₁, hholds⟩ := hcheck.asserted
    obtain rfl := Value.obj.inj (Option.some.inj (hrows₁.symm.trans hrows))
    obtain ⟨rows₂, hrows₂, hholds'⟩ := hgate.asserted
    obtain rfl := Value.obj.inj (Option.some.inj (hrows₂.symm.trans hrows))
    exact alike_holds hholds hholds' hv

theorem caseless_gate (hcase : Caseless u checkReading.space) : Caseless u isWhitespace := by
  have hblank : ∀ c, isWhitespace c = true → checkReading.space c = true := by
    intro c hc
    change isBlank c.toNat = true
    simp only [isBlank, isWhitespace, Bool.or_eq_true, Bool.and_eq_true, decide_eq_true_eq,
      List.contains_iff_mem, List.mem_cons, List.not_mem_nil, or_false] at hc ⊢
    omega
  exact ⟨fun c hc => hcase.upper c (hblank c hc), fun c hc => hcase.lower c (hblank c hc)⟩

/-- What the gate admits has texts where the check looks for them. -/
theorem judged_of_admissible {r : Reading} (h : Admissible u t r (.obj m)) : Judged lib m := by
  obtain ⟨s, hs, -⟩ := h.title
  obtain ⟨ct, hct, -⟩ := h.type
  obtain ⟨s', hs', -⟩ := h.summary
  refine ⟨fun v hv hawk => ?_, fun v hv => ?_, fun v hv hawk => ?_⟩
  · obtain rfl := Option.some.inj (hs.symm.trans hv)
    nomatch hawk.1
  · obtain rfl := Option.some.inj (hct.symm.trans hv)
    rfl
  · obtain rfl := Option.some.inj (hs'.symm.trans hv)
    nomatch hawk.1

end

/-- The check and the gate, object by object. The check raises only for a title, summary or type
of an odd kind, so never on what the gate admits; each finds nothing wrong exactly with what is
admissible in its own reading; and on plain entries the two come to the same verdict. -/
theorem stored_check (u : Unicode) (t : Taxonomy) (lib : Library)
    (validate : Value → Except (List String) Value) (m : List (String × Value))
    (hcase : Caseless u checkReading.space) :
    ((∃ fs, bodyFailures u lib (.of t) (some (read lib (.obj m))) = .ok fs) ↔ Judged lib m) ∧
    (bodyFailures u lib (.of t) (some (read lib (.obj m))) = .ok [] ↔
      Admissible u t checkReading (.obj m)) ∧
    (Silent (admitEntry u (t.bundle validate) (.obj m)) ↔
      Admissible u t gateReading (.obj m)) ∧
    (admitEntry u (t.bundle validate) (.obj m) = [] →
      ∃ fs, bodyFailures u lib (.of t) (some (read lib (.obj m))) = .ok fs) ∧
    (Plain m → (bodyFailures u lib (.of t) (some (read lib (.obj m))) = .ok [] ↔
      Silent (admitEntry u (t.bundle validate) (.obj m)))) := by
  have hgate := caseless_gate hcase
  have hread : bodyFailures u lib (.of t) (some (read lib (.obj m))) =
      objectFailures u lib (.of t) (readMembers lib m) := by
    rw [read, bodyFailures]
  rw [hread, objectFailures_ok, objectFailures_nil hcase, silent_admitEntry hgate]
  refine ⟨Iff.rfl, Iff.rfl, Iff.rfl, fun h => ?_, fun plain => admissible_alike plain.alike⟩
  exact judged_of_admissible (((admitEntry_nil_iff hgate).1 h).1)

namespace Sample

/-- Numbers are printed as one, and strings without quotes. -/
def library : Library where
  repr _ := [0x31]
  read _ := 0x3FF0000000000000
  quote s := s
  printed _ := ⟨0x31, List.mem_singleton_self _, by decide⟩

def taxonomy : Taxonomy where
  nodes := [⟨"conflict-and-warfare", "A", none, none⟩]
  sha256 := V0.Authoring.Sample.bundle.sha256
  distinct := by decide
  named := by decide
  heirs := by decide

theorem caseless : Caseless V0.Authoring.Sample.unicode checkReading.space := by
  have hlow : ∀ c, checkReading.space c = true → c.toNat < 48 ∨ 128 ≤ c.toNat := by
    intro c hc
    change isBlank c.toNat = true at hc
    simp only [isBlank, Bool.or_eq_true, Bool.and_eq_true, decide_eq_true_eq,
      List.contains_iff_mem, List.mem_cons, List.not_mem_nil, or_false] at hc
    omega
  refine ⟨fun c hc => ?_, fun c hc => ?_⟩
  · have h := hlow c hc
    change c.isUpper = false
    rw [Bool.eq_false_iff]
    intro hupper
    have hletter : (c.isUpper || c.isLower || c.isDigit) = true := by rw [hupper]; rfl
    have := V0.Authoring.isAlphanum_range hletter
    omega
  · have h := hlow c hc
    change c.isLower = false
    rw [Bool.eq_false_iff]
    intro hlower
    have hletter : (c.isUpper || c.isLower || c.isDigit) = true := by
      rw [hlower, Bool.or_true]
      rfl
    have := V0.Authoring.isAlphanum_range hletter
    omega

/-- The members of an entry of 1527. -/
def members : List (String × Value) :=
  ((V0.Authoring.Sample.entry "Sack of Rome").asObject.getD [])

theorem members_plain : Plain members := by
  refine ⟨?_, ?_, ?_, ?_, ?_, ?_, ?_⟩
  · rintro v ⟨⟩
    exact ⟨by decide, by decide⟩
  · rintro v ⟨⟩
    exact ⟨by decide, by decide⟩
  · rintro ⟨⟩
  · rintro s ⟨⟩
    simp [Spaced]
  · rintro s ⟨⟩
    simp [Spaced]
  · rintro rows ⟨⟩ f hf v hv
    simp only [provMeasuredFields, List.mem_cons, List.not_mem_nil, or_false] at hf
    rcases hf with rfl | rfl | rfl | rfl | rfl
    all_goals
      obtain rfl := Option.some.inj hv
      exact ⟨_, rfl, by simp [Spaced]⟩
  · rintro rows ⟨⟩ v ⟨⟩
    exact ⟨_, rfl, by simp [Spaced]⟩

theorem members_admitted : admitEntry V0.Authoring.Sample.unicode (taxonomy.bundle .ok)
    (.obj members) = [] := by decide +kernel

/-- The members of an entry that holds a flag for its count. -/
def flagged : List (String × Value) :=
  members.map fun item => if item.1 = "observed_count" then (item.1, .bool true) else item

end Sample

/-- Both sides pass an entry. -/
theorem stored_check_entry :
    bodyFailures V0.Authoring.Sample.unicode Sample.library (.of Sample.taxonomy)
      (some (read Sample.library (.obj Sample.members))) = .ok [] := by
  refine ((stored_check V0.Authoring.Sample.unicode Sample.taxonomy Sample.library .ok
    Sample.members Sample.caseless).2.2.2.2 Sample.members_plain).2 ?_
  rw [Sample.members_admitted]
  exact silent_nil.2 trivial

/-! ## One verdict -/

/-- The check returns a list, which is empty for what the gate admits and has an entry for what the
gate rejects by a rule that both have. -/
def Agree (u : Unicode) (t : Taxonomy) (lib : Library)
    (validate : Value → Except (List String) Value) (m : List (String × Value)) : Prop :=
  ∃ fs, bodyFailures u lib (.of t) (some (read lib (.obj m))) = .ok fs ∧
    (admitEntry u (t.bundle validate) (.obj m) = [] → fs = []) ∧
    ((∃ r ∈ admitEntry u (t.bundle validate) (.obj m), r.rule ∈ implemented) → fs ≠ [])

end Clockchain.Operator.CheckAdmission
