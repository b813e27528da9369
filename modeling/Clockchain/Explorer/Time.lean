import Clockchain.V1.Time

/-!
# The explorer's asserted times

`parseAssertedTime` and `renderAssertedTime` of `web/explorer/js/model.js`. A `BigInt` is an
integer, whose quotients round toward zero; a coordinate is its 64 digits or its 32 bytes.
-/

namespace Clockchain.Explorer
open Codec Calendar
open Decimals (fixed Digits)
open V0 (Tick asBytes)
open V0.Publisher (Text decimal hexDigits hexDecode hexDecode_hexDigits hexDigits_length
  mem_hexDigits wholeTicks)
open V0.Migrator (secondsOf)
open V1 (Hash AssertedTime)
open V1.Publisher.Time (Asserted Checks WellFormed stripMinus parse render yearOf monthOf dayOf)
set_option autoImplicit false

/-! ## The source -/

def unixToJ2000 : Int := 946728000

/-- `padStart(width, '0')`. -/
def padStart (width : Nat) (s : Text) : Text := List.replicate (width - s.length) '0' ++ s

/-- `hex` of an array. -/
def hex (bytes : List Nat) : Text := bytes.flatMap fun b => padStart 2 (Nat.toDigits 16 b)

/-- `/^[0-9a-f]{64}$/`. -/
def isHex32 (s : Text) : Bool :=
  s.length = 64 && s.all fun c => c.isDigit || ('a' ≤ c && c ≤ 'f')

def daysFromCivil (y m d : Int) : Int :=
  let y := if m ≤ 2 then y - 1 else y
  let era := (if 0 ≤ y then y else y - 399).tdiv 400
  let yoe := y - era * 400
  let mp := (m + 9).tmod 12
  let doy := (153 * mp + 2).tdiv 5 + d - 1
  let doe := yoe * 365 + yoe.tdiv 4 - yoe.tdiv 100 + doy
  era * 146097 + doe - 719468

def civilFromDays (z : Int) : Int × Int × Int :=
  let z := z + 719468
  let era := (if 0 ≤ z then z else z - 146096).tdiv 146097
  let doe := z - era * 146097
  let yoe := (doe - doe.tdiv 1460 + doe.tdiv 36524 - doe.tdiv 146096).tdiv 365
  let doy := doe - (365 * yoe + yoe.tdiv 4 - yoe.tdiv 100)
  let mp := (5 * doy + 2).tdiv 153
  let d := doy - (153 * mp + 2).tdiv 5 + 1
  let m := if mp < 10 then mp + 3 else mp - 9
  (yoe + era * 400 + (if m ≤ 2 then 1 else 0), m, d)

def daysInMonth (y m : Int) : Int :=
  let leap := (y.tmod 4 + 4).tmod 4 = 0 ∧
    ((y.tmod 100 + 100).tmod 100 ≠ 0 ∨ (y.tmod 400 + 400).tmod 400 = 0)
  if m = 2 then if leap then 29 else 28
  else if [4, 6, 9, 11].contains m then 30 else 31

/-- The groups of a match. -/
structure Match where
  sign : Text
  year : Text
  month : Option Text
  day : Option Text

/-- `(-?)`. -/
def minus : Text → Text × Text
  | '-' :: rest => (['-'], rest)
  | text => ([], text)

/-- `\d{n}`. -/
def digitsOf (n : Nat) (s : Text) : Option (Text × Text) :=
  if (s.take n).length = n ∧ (s.take n).all Char.isDigit then some (s.take n, s.drop n) else none

/-- A group that begins with a minus, or the end. -/
def optional {α : Type} (absent : α) (group : Text → Option α) : Text → Option α
  | [] => some absent
  | '-' :: rest => group rest
  | _ => none

/-- `(\d{2})$`. -/
def dayGroup (text : Text) : Option (Option Text) := do
  let (day, rest) ← digitsOf 2 text
  if rest = [] then some (some day) else none

/-- `(\d{2})(?:-(\d{2}))?$`. -/
def monthGroup (text : Text) : Option (Option Text × Option Text) := do
  let (month, rest) ← digitsOf 2 text
  let day ← optional none dayGroup rest
  return (some month, day)

/-- `/^(-?)(\d{4})(?:-(\d{2})(?:-(\d{2}))?)?$/.exec`. -/
def exec (text : Text) : Option Match := do
  let (sign, rest) := minus text
  let (year, rest) ← digitsOf 4 rest
  let (month, day) ← optional (none, none) monthGroup rest
  return { sign, year, month, day }

/-- `BigInt` of digits and a sign. -/
def bigInt : Text → Int
  | '-' :: ds => -(Decimals.value ds)
  | ds => Decimals.value ds

/-- `>>` rounds down, and `& 0xffn` is a remainder. -/
def coordinateBytes (v : Int) : List Nat :=
  let bytes := (List.range 32).foldl (fun bytes i => (v / 2 ^ (8 * i) % 256).toNat :: bytes) []
  bytes.modifyHead (· ^^^ 0x80)

def parseAssertedTime (text : Text) : Option (Text × String) := do
  let m ← exec text
  if m.sign = ['-'] ∧ m.year = "0000".toList then none
  else
    let y := bigInt (m.sign ++ m.year)
    let mo := bigInt (m.month.getD ['1'])
    let d := bigInt (m.day.getD ['1'])
    if mo < 1 ∨ 12 < mo ∨ d < 1 ∨ daysInMonth y mo < d then none
    else
      let seconds := daysFromCivil y mo d * 86400 - unixToJ2000
      let v := seconds * 2 ^ 64
      let v := if v < 0 then v + 2 ^ 256 else v
      let precision := if m.day.isSome then "day" else if m.month.isSome then "month" else "year"
      return (hex (coordinateBytes v), precision)

/-- A coordinate is read from a hexadecimal text or from an array of bytes. -/
inductive Coordinate where
  | text (s : Text)
  | bytes (bs : List UInt8)

structure Time where
  coordinate : Coordinate
  precision : String

def Coordinate.hex : Coordinate → Text
  | .text s => s
  | .bytes bs => Explorer.hex (bs.map UInt8.toNat)

/-- `match(/../g)` and `parseInt(x, 16)` of digits. -/
def readBytes (c : Text) : List Nat := ((hexDecode c).getD []).map UInt8.toNat

/-- The number that 32 bytes write. -/
def signedValue (b : List Nat) : Int :=
  let v : Int := (b.foldl (fun v x => v <<< 8 ||| x) 0 : Nat)
  if 2 ^ 255 ≤ v then v - 2 ^ 256 else v

/-- The day that begins at a second. -/
def daysAt (seconds : Int) : Option Int :=
  if (seconds.tmod 86400 + 86400).tmod 86400 ≠ 0 then none
  else some (if 0 ≤ seconds then seconds.tdiv 86400 else -(-seconds).tdiv 86400)

/-- The text of a date that `renderAssertedTime` chooses by the precision. -/
def calendarText (precision : String) (y mo d : Int) : Option Text :=
  let yy := if y < 0 then '-' :: padStart 4 (decimal (-y)) else padStart 4 (decimal y)
  let mm := padStart 2 (decimal mo)
  let dd := padStart 2 (decimal d)
  if precision = "year" ∧ mo = 1 ∧ d = 1 then some yy
  else if precision = "month" ∧ d = 1 then some (yy ++ '-' :: mm)
  else if precision = "day" then some (yy ++ '-' :: mm ++ '-' :: dd)
  else none

def renderAssertedTime (t : Option Time) : Option Text := do
  let t ← t
  let c := t.coordinate.hex
  if !isHex32 c || !(List.replicate 16 '0').isSuffixOf c then none
  else
    let b := (readBytes c).modifyHead (· ^^^ 0x80)
    let days ← daysAt (signedValue b / 2 ^ 64 + unixToJ2000)
    let (y, mo, d) := civilFromDays days
    if y < -9999 ∨ 9999 < y then none else calendarText t.precision y mo d

/-! ## The calendar -/

theorem tmod_wrapped {k : Int} (n : Int) (hk : 0 < k) : (n.tmod k + k).tmod k = n % k := by
  have hlow := Int.lt_tmod_of_pos n hk
  rw [Int.tmod_eq_emod_of_nonneg (by omega), Int.add_emod_right, Int.tmod_def,
    Int.sub_mul_emod_self_left]

theorem daysInMonth_eq (y m : Int) : daysInMonth y m = monthLength y m := by
  have hleap : (y % 4 = 0 ∧ (y % 100 ≠ 0 ∨ y % 400 = 0)) = Leap y := rfl
  unfold daysInMonth monthLength
  simp only [tmod_wrapped y (show (0 : Int) < 4 by decide),
    tmod_wrapped y (show (0 : Int) < 100 by decide),
    tmod_wrapped y (show (0 : Int) < 400 by decide), hleap, List.contains_iff_mem, List.mem_cons,
    List.not_mem_nil, or_false]

/-! ## The match -/

/-- The groups of a text in parts. -/
def Match.ofParts (negative : Bool) (parts : List Text) : Match where
  sign := if negative then ['-'] else []
  year := parts.getD 0 []
  month := parts[1]?
  day := parts[2]?

theorem digitsOf_append {n : Nat} {p rest : Text} (hlen : p.length = n) (hp : Digits p) :
    digitsOf n (p ++ rest) = some (p, rest) := by
  have htake : (p ++ rest).take n = p := List.take_left' hlen
  have hdrop : (p ++ rest).drop n = rest := List.drop_left' hlen
  rw [digitsOf, htake, hdrop, if_pos ⟨hlen, List.all_eq_true.mpr hp⟩]

theorem digitsOf_some {n : Nat} {s p rest : Text} (h : digitsOf n s = some (p, rest)) :
    s = p ++ rest ∧ p.length = n ∧ Digits p := by
  unfold digitsOf at h
  split at h
  case isTrue hdigits =>
    obtain ⟨rfl, rfl⟩ := Prod.mk.inj (Option.some.inj h)
    exact ⟨(List.take_append_drop n s).symm, hdigits.1, List.all_eq_true.mp hdigits.2⟩
  case isFalse => nomatch h

theorem minus_eq (text : Text) : minus text =
    (if (stripMinus text).1 then ['-'] else [], (stripMinus text).2) := by
  cases text with
  | nil => rfl
  | cons c rest =>
    by_cases hc : c = '-'
    · rw [hc]
      rfl
    · have hminus : minus (c :: rest) = ([], c :: rest) := by
        unfold minus
        split
        case h_1 heq => exact absurd (List.cons.inj heq).1 hc
        case h_2 => rfl
      have hstrip : stripMinus (c :: rest) = (false, c :: rest) := by
        unfold stripMinus
        split
        case h_1 heq => exact absurd (List.cons.inj heq).1 hc
        case h_2 => rfl
      rw [hminus, hstrip]
      rfl

/-- Texts of so many digits. -/
def Wide (n : Nat) (p : Text) : Prop := p.length = n ∧ Digits p

theorem wellFormed_iff (parts : List Text) : WellFormed parts ↔
    (∃ y, parts = [y] ∧ Wide 4 y) ∨ (∃ y m, parts = [y, m] ∧ Wide 4 y ∧ Wide 2 m) ∨
      ∃ y m d, parts = [y, m, d] ∧ Wide 4 y ∧ Wide 2 m ∧ Wide 2 d := by
  unfold WellFormed Wide
  match parts with
  | [] => simp
  | [y] => simp
  | [y, m] => simp
  | [y, m, d] => simp
  | _ :: _ :: _ :: _ :: _ => simp

theorem exec_ofParts {text : Text} {negative : Bool} {parts : List Text} (h : WellFormed parts)
    (hs : stripMinus text = (negative, ['-'].intercalate parts)) :
    exec text = some (.ofParts negative parts) := by
  have hend : ∀ {n : Nat} {p : Text}, Wide n p → digitsOf n p = some (p, []) := by
    intro n p hp
    have hnil : digitsOf n (p ++ []) = some (p, []) := digitsOf_append hp.1 hp.2
    rw [List.append_nil] at hnil
    exact hnil
  unfold exec
  rw [minus_eq, hs]
  rcases (wellFormed_iff parts).mp h with ⟨y, rfl, hy⟩ | ⟨y, m, rfl, hy, hm⟩ |
    ⟨y, m, d, rfl, hy, hm, hd⟩
  · simp [List.intercalate, hend hy, optional, Match.ofParts]
  · simp [List.intercalate, digitsOf_append hy.1 hy.2, optional, monthGroup, hend hm, Match.ofParts]
  · simp [List.intercalate, digitsOf_append hy.1 hy.2, optional, monthGroup,
      digitsOf_append hm.1 hm.2, dayGroup, hend hd, Match.ofParts]

theorem optional_some {α : Type} {absent x : α} {group : Text → Option α} {s : Text}
    (h : optional absent group s = some x) :
    (s = [] ∧ x = absent) ∨ ∃ rest, s = '-' :: rest ∧ group rest = some x := by
  unfold optional at h
  split at h
  · exact .inl ⟨rfl, (Option.some.inj h).symm⟩
  · exact .inr ⟨_, rfl, h⟩
  · nomatch h

theorem exec_some {text : Text} {m : Match} (h : exec text = some m) :
    ∃ negative parts, WellFormed parts ∧
      stripMinus text = (negative, ['-'].intercalate parts) ∧ m = .ofParts negative parts := by
  simp only [exec, minus_eq, Option.bind_eq_bind, Option.bind_eq_some_iff, Prod.exists] at h
  obtain ⟨y, rest, hy, month, day, hgroup, h⟩ := h
  obtain rfl := Option.some.inj h
  obtain ⟨htext, hwide⟩ := digitsOf_some hy
  refine ⟨(stripMinus text).1, ?_⟩
  rcases optional_some hgroup with ⟨rfl, hnone⟩ | ⟨rest, rfl, hmonth⟩
  · obtain ⟨rfl, rfl⟩ := Prod.mk.inj hnone
    refine ⟨[y], (wellFormed_iff _).mpr (.inl ⟨y, rfl, hwide⟩), ?_, rfl⟩
    exact Prod.ext rfl (by rw [htext]; simp [List.intercalate])
  · simp only [monthGroup, Option.bind_eq_bind, Option.bind_eq_some_iff, Prod.exists] at hmonth
    obtain ⟨m, rest', hm, day', hgroup', heq⟩ := hmonth
    obtain ⟨rfl, rfl⟩ := Prod.mk.inj (Option.some.inj heq)
    obtain ⟨rfl, hwide'⟩ := digitsOf_some hm
    rcases optional_some hgroup' with ⟨rfl, rfl⟩ | ⟨rest, rfl, hday⟩
    · refine ⟨[y, m], (wellFormed_iff _).mpr (.inr (.inl ⟨y, m, rfl, hwide, hwide'⟩)), ?_, rfl⟩
      exact Prod.ext rfl (by rw [htext]; simp [List.intercalate])
    · simp only [dayGroup, Option.bind_eq_bind, Option.bind_eq_some_iff, Prod.exists] at hday
      obtain ⟨d, rest', hd, heq⟩ := hday
      split at heq
      case isTrue hempty =>
        subst hempty
        obtain rfl := Option.some.inj heq
        obtain ⟨rfl, hwide''⟩ := digitsOf_some hd
        refine ⟨[y, m, d],
          (wellFormed_iff _).mpr (.inr (.inr ⟨y, m, d, rfl, hwide, hwide', hwide''⟩)), ?_, rfl⟩
        exact Prod.ext rfl (by rw [htext]; simp [List.intercalate])
      case isFalse => nomatch heq

/-! ## Bytes -/

theorem hex_bytes (bs : List UInt8) : hex (bs.map UInt8.toNat) = hexDigits bs := by
  have hbyte : ∀ n < 256, padStart 2 (Nat.toDigits 16 n) =
      [Nat.digitChar (n / 16), Nat.digitChar (n % 16)] := by decide +kernel
  rw [hex, hexDigits, List.flatMap_map]
  exact List.flatMap_congr fun b _ => hbyte b.toNat b.toNat_lt

/-- The loop writes the bytes of a number, the first one last. -/
theorem unshift_bytes (w n : Nat) :
    (List.range w).foldl (fun bytes i => ((n : Int) / 2 ^ (8 * i) % 256).toNat :: bytes) [] =
      (beBytes w n).map UInt8.toNat := by
  induction w with
  | zero => rfl
  | succ w ih =>
    have hpow : (2 : Int) ^ (8 * w) = ((256 ^ w : Nat) : Int) := by
      push_cast
      rw [pow_mul]
      norm_num
    rw [List.range_succ, List.foldl_append, ih, beBytes_cons, List.map_cons, List.foldl_cons,
      List.foldl_nil, UInt8.toNat_ofNat', hpow]
    norm_cast

theorem flip_bytes (bs : Bytes) :
    (bs.map UInt8.toNat).modifyHead (· ^^^ 0x80) = (V0.flipSign bs).map UInt8.toNat := by
  cases bs with
  | nil => rfl
  | cons b bs => simp [V0.flipSign]

/-- The digits of whole seconds. -/
theorem coordinateBytes_eq {seconds : Int} (h : V0.Migrator.fitsI64 seconds) :
    hex (coordinateBytes (if seconds * 2 ^ 64 < 0 then seconds * 2 ^ 64 + 2 ^ 256
      else seconds * 2 ^ 64)) = hexDigits (asBytes (wholeTicks seconds).toCanon) := by
  have htoInt := V0.Migrator.wholeTicks_toInt h
  have hlt := (wholeTicks seconds).isLt
  have hnat : (if seconds * 2 ^ 64 < 0 then seconds * 2 ^ 64 + 2 ^ 256 else seconds * 2 ^ 64) =
      ((wholeTicks seconds).toNat : Int) := by
    rw [← htoInt, BitVec.toInt_eq_toNat_cond]
    split <;> split <;> omega
  unfold coordinateBytes
  rw [hnat]
  dsimp only
  rw [unshift_bytes, flip_bytes, hex_bytes, V0.Tick.flipSign_beBytes]
  rfl

/-! ## Texts -/

theorem bigInt_digits {ds : Text} (h : Digits ds) : bigInt ds = Decimals.value ds := by
  unfold bigInt
  split
  · exact absurd (h _ List.mem_cons_self) (by decide)
  · rfl

section Parts
variable {negative : Bool} {parts : List Text}

theorem bigInt_year (h : WellFormed parts) :
    bigInt ((Match.ofParts negative parts).sign ++ (Match.ofParts negative parts).year) =
      yearOf negative parts := by
  have hdigits : Digits (parts.getD 0 []) := by
    rcases (wellFormed_iff parts).mp h with ⟨y, rfl, hy⟩ | ⟨y, m, rfl, hy, -⟩ |
      ⟨y, m, d, rfl, hy, -⟩
    · exact hy.2
    · exact hy.2
    · exact hy.2
  unfold Match.ofParts yearOf
  cases negative with
  | true => rfl
  | false => exact bigInt_digits hdigits

theorem bigInt_month (h : WellFormed parts) :
    bigInt ((Match.ofParts negative parts).month.getD ['1']) = monthOf parts := by
  rcases (wellFormed_iff parts).mp h with ⟨y, rfl, -⟩ | ⟨y, m, rfl, -, hm⟩ |
    ⟨y, m, d, rfl, -, hm, -⟩
  · rfl
  · exact bigInt_digits hm.2
  · exact bigInt_digits hm.2

theorem bigInt_day (h : WellFormed parts) :
    bigInt ((Match.ofParts negative parts).day.getD ['1']) = dayOf parts := by
  rcases (wellFormed_iff parts).mp h with ⟨y, rfl, -⟩ | ⟨y, m, rfl, -, -⟩ | ⟨y, m, d, rfl, -, -, hd⟩
  · rfl
  · rfl
  · exact bigInt_digits hd.2

/-- The year of no sign that is refused. -/
theorem signedZero_iff (h : WellFormed parts) :
    (Match.ofParts negative parts).sign = ['-'] ∧
        (Match.ofParts negative parts).year = "0000".toList ↔
      negative = true ∧ Decimals.value (parts.getD 0 []) = 0 := by
  have hwide : Wide 4 (parts.getD 0 []) := by
    rcases (wellFormed_iff parts).mp h with ⟨y, rfl, hy⟩ | ⟨y, m, rfl, hy, -⟩ |
      ⟨y, m, d, rfl, hy, -⟩
    · exact hy
    · exact hy
    · exact hy
  have hzero : parts.getD 0 [] = "0000".toList ↔ Decimals.value (parts.getD 0 []) = 0 := by
    constructor
    · intro heq
      rw [heq]
      decide
    · intro hvalue
      have hfixed := Decimals.fixed_value (by decide) hwide.2 hwide.1
      rw [hvalue] at hfixed
      exact hfixed.symm
  unfold Match.ofParts
  cases negative with
  | true => exact and_congr (iff_of_true rfl rfl) hzero
  | false => exact iff_of_false (fun hsign => nomatch hsign.1) (fun hsign => nomatch hsign.1)

/-- What is checked of a match is what the publisher checks. -/
theorem parseAssertedTime_eq {text : Text} (hexec : exec text = some (.ofParts negative parts))
    (h : WellFormed parts) (r : Text × String) :
    parseAssertedTime text = some r ↔ Checks negative parts ∧
      r = (let seconds := daysFromCivil (yearOf negative parts) (monthOf parts) (dayOf parts) *
              86400 - unixToJ2000
        (hex (coordinateBytes (if seconds * 2 ^ 64 < 0 then seconds * 2 ^ 64 + 2 ^ 256
            else seconds * 2 ^ 64)),
          if parts[2]?.isSome then "day" else if parts[1]?.isSome then "month" else "year")) := by
  unfold parseAssertedTime
  simp only [hexec, Option.bind_eq_bind, Option.bind_some, signedZero_iff h, bigInt_year h,
    bigInt_month h, bigInt_day h, daysInMonth_eq]
  by_cases hsign : negative = true ∧ Decimals.value (parts.getD 0 []) = 0
  · rw [if_pos hsign]
    exact iff_of_false nofun fun hr => hr.1.sign hsign
  · rw [if_neg hsign]
    by_cases hrange : monthOf parts < 1 ∨ 12 < monthOf parts ∨ dayOf parts < 1 ∨
        monthLength (yearOf negative parts) (monthOf parts) < dayOf parts
    · rw [if_pos hrange]
      refine iff_of_false nofun fun hr => ?_
      have hmonth := hr.1.month
      have hday := hr.1.day
      rw [V1.Publisher.Time.daysInMonth_eq] at hday
      omega
    · rw [if_neg hrange]
      have hchecks : Checks negative parts :=
        ⟨h, hsign, by omega, by rw [V1.Publisher.Time.daysInMonth_eq]; omega⟩
      constructor
      · intro hr
        exact ⟨hchecks, (Option.some.inj hr).symm⟩
      · rintro ⟨-, rfl⟩
        rfl

end Parts

theorem parseAssertedTime_text (a : Asserted) : parseAssertedTime a.text =
    some (hexDigits (asBytes a.time.coordinate), a.time.precision) := by
  have hseconds : daysFromCivil a.date.year a.date.month a.date.day * 86400 - unixToJ2000 =
      secondsOf a.date.number := by
    have hdays : daysFromCivil a.date.year a.date.month a.date.day = a.date.number - 719162 :=
      V1.Publisher.Time.daysFromCivil_eq a.date
    rw [hdays]
    unfold secondsOf unixToJ2000
    omega
  rw [parseAssertedTime_eq (exec_ofParts a.parts_wellFormed a.stripMinus_text) a.parts_wellFormed]
  refine ⟨a.checks, ?_⟩
  rw [a.yearOf_parts, a.monthOf_parts, a.dayOf_parts]
  dsimp only
  rw [hseconds, coordinateBytes_eq a.fitsI64_seconds.1]
  refine Prod.ext rfl ?_
  unfold Asserted.time Asserted.parts V1.Publisher.Time.Precision.name
  cases a.precision <;> rfl

/-- The explorer reads what the publisher reads. -/
theorem parseAssertedTime_parse (text : Text) : parseAssertedTime text =
    (parse text).toOption.map fun t => (hexDigits (asBytes t.coordinate), t.precision) := by
  cases hparse : parse text with
  | ok t =>
    obtain ⟨a, rfl, rfl⟩ := V1.Publisher.Time.parse_iff.mp hparse
    exact parseAssertedTime_text a
  | error e =>
    cases h : parseAssertedTime text with
    | none => rfl
    | some r =>
      obtain ⟨m, hexec, -⟩ := Option.bind_eq_some_iff.mp h
      obtain ⟨negative, parts, hform, hs, rfl⟩ := exec_some hexec
      obtain ⟨a, rfl, rfl⟩ :=
        Asserted.exists_of_checks ((parseAssertedTime_eq hexec hform r).mp h).1
      have htext : a.text = text := by
        rw [← V1.Publisher.Time.stripMinus_append text, hs]
        rfl
      rw [← htext, a.parse_text] at hparse
      nomatch hparse

/-! ## Coordinates -/

theorem isHex32_coordinate (c : Hash) : isHex32 (hexDigits (asBytes c)) = true := by
  have hlen : (asBytes c).length = 32 := beBytes_length 32 _
  rw [isHex32, hexDigits_length, hlen, Bool.and_eq_true, List.all_eq_true]
  refine ⟨rfl, fun d hd => ?_⟩
  rw [Bool.or_eq_true, Bool.and_eq_true, decide_eq_true_eq, decide_eq_true_eq]
  exact mem_hexDigits hd

/-- Sixteen zeros at the end are no fraction. -/
theorem zeros_suffix (c : Hash) :
    (List.replicate 16 '0').isSuffixOf (hexDigits (asBytes c)) = true ↔
    c.toNat % 2 ^ 64 = 0 := by
  have hsplit : hexDigits (asBytes c) =
      hexDigits (beBytes 24 (c.toNat / 256 ^ 8)) ++ hexDigits (beBytes 8 c.toNat) := by
    rw [asBytes, V1.hashBytes, show (32 : Nat) = 24 + 8 from rfl, beBytes_append, hexDigits,
      List.flatMap_append]
    rfl
  have hzeros : hexDigits (List.replicate 8 0) = List.replicate 16 '0' := rfl
  have hlen : (hexDigits (beBytes 8 c.toNat)).length = 16 := by
    rw [hexDigits_length, beBytes_length]
  have hzero : beBytes 8 c.toNat = List.replicate 8 0 ↔ c.toNat % 2 ^ 64 = 0 := beBytes_eq_iff rfl
  have hbytes : hexDigits (beBytes 8 c.toNat) = List.replicate 16 '0' ↔ c.toNat % 2 ^ 64 = 0 := by
    rw [← hzeros]
    constructor
    · intro heq
      have hdecode := congrArg hexDecode heq
      rw [hexDecode_hexDigits, hexDecode_hexDigits, Option.some_inj] at hdecode
      exact hzero.mp hdecode
    · intro hmod
      rw [hzero.mpr hmod]
  rw [List.isSuffixOf_iff_suffix, hsplit, ← hbytes]
  constructor
  · rintro ⟨front, heq⟩
    exact (List.append_inj_right' heq (by rw [hlen, List.length_replicate])).symm
  · intro heq
    exact ⟨_, by rw [heq]⟩

theorem foldl_or (bs : Bytes) :
    (bs.map UInt8.toNat).foldl (fun v x => v <<< 8 ||| x) 0 = beNat bs := by
  have hstep : ∀ (v : Nat) (b : UInt8), v <<< 8 ||| b.toNat = 256 * v + b.toNat := by
    intro v b
    have hb : b.toNat < 2 ^ 8 := b.toNat_lt
    rw [Nat.shiftLeft_eq, Nat.mul_comm v, ← Nat.two_pow_add_eq_or_of_lt hb]
  rw [List.foldl_map, beNat]
  exact List.foldl_ext _ _ _ fun v b _ => hstep v b

/-- The number that is read. -/
theorem signedValue_coordinate (c : Hash) :
    signedValue ((readBytes (hexDigits (asBytes c))).modifyHead (· ^^^ 0x80)) =
      (c.toNat : Int) - 2 ^ 255 := by
  have hback : V0.flipSign (asBytes c) = beBytes 32 (Tick.ofCanon c).toNat :=
    V0.Tick.flipSign_beBytes c
  have hread : beNat (beBytes 32 (Tick.ofCanon c).toNat) = (Tick.ofCanon c).toNat :=
    beNat_beBytes (Tick.ofCanon c).isLt
  have hcanon : (c.toNat : Int) = (Tick.ofCanon c).toInt + 2 ^ 255 := by
    have hback : (Tick.ofCanon c).toCanon = c := V0.Tick.ofCanon_toCanon c
    rw [← V0.Tick.toNat_toCanon, hback]
  have htoInt := BitVec.toInt_eq_toNat_cond (Tick.ofCanon c)
  unfold signedValue
  rw [readBytes, hexDecode_hexDigits, Option.getD_some, flip_bytes, foldl_or, hback, hread, hcanon,
    htoInt]
  dsimp only
  split <;> split <;> omega

/-! ## Times -/

theorem daysAt_eq (seconds : Int) :
    daysAt seconds = if seconds % 86400 ≠ 0 then none else some (seconds / 86400) := by
  unfold daysAt
  rw [tmod_wrapped seconds (by decide)]
  by_cases hmod : seconds % 86400 = 0
  · rw [if_neg (not_not.mpr hmod), if_neg (not_not.mpr hmod)]
    obtain ⟨days, rfl⟩ := Int.dvd_of_emod_eq_zero hmod
    rw [Int.mul_ediv_cancel_left _ (by decide), ← Int.mul_neg,
      Int.mul_tdiv_cancel_left _ (by decide), Int.mul_tdiv_cancel_left _ (by decide),
      Int.neg_neg, ite_self]
  · rw [if_pos hmod, if_pos hmod]

theorem padStart_decimal {w : Nat} {n : Int} (h : 0 ≤ n) :
    padStart w (decimal n) = V1.Publisher.Time.padded w n := by
  have habs : n.natAbs = n.toNat := by omega
  rw [decimal, if_neg (by omega), habs]
  rfl

/-- A date is written as the publisher writes it. -/
theorem calendarText_eq (t : Date) (p : String) : calendarText p t.year t.month t.day =
    V1.Publisher.Time.calendarText p t.year t.month t.day := by
  have hmonth := t.month_mem
  have hday := t.day_mem
  have hyear : (if t.year < 0 then '-' :: padStart 4 (decimal (-t.year))
      else padStart 4 (decimal t.year)) =
        if t.year < 0 then '-' :: V1.Publisher.Time.padded 4 (-t.year)
        else V1.Publisher.Time.padded 4 t.year := by
    by_cases hneg : t.year < 0
    · rw [if_pos hneg, if_pos hneg, padStart_decimal (by omega)]
    · rw [if_neg hneg, if_neg hneg, padStart_decimal (by omega)]
  unfold calendarText V1.Publisher.Time.calendarText
  rw [hyear, padStart_decimal (show 0 ≤ t.month by omega),
    padStart_decimal (show 0 ≤ t.day by omega)]

/-- What is computed of a coordinate. -/
theorem renderAssertedTime_some {c : Hash} {p : String} {s : Text} :
    renderAssertedTime (some ⟨.text (hexDigits (asBytes c)), p⟩) = some s ↔
      c.toNat % 2 ^ 64 = 0 ∧ ∃ t : Date, (-9999 ≤ t.year ∧ t.year ≤ 9999) ∧
        secondsOf t.number = ((c.toNat : Int) - 2 ^ 255) / 2 ^ 64 ∧
        V1.Publisher.Time.calendarText p t.year t.month t.day = some s := by
  have hcivil : civilFromDays = V1.Publisher.Time.civilFromDays := rfl
  obtain ⟨seconds, hseconds⟩ : ∃ seconds, ((c.toNat : Int) - 2 ^ 255) / 2 ^ 64 = seconds := ⟨_, rfl⟩
  unfold renderAssertedTime
  simp only [Option.bind_eq_bind, Option.bind_some, Coordinate.hex, isHex32_coordinate,
    Bool.not_true, Bool.false_or, Bool.not_eq_true', ← Bool.not_eq_true, zeros_suffix,
    signedValue_coordinate, hseconds, daysAt_eq, hcivil, V1.Publisher.Time.civilFromDays_eq]
  by_cases hfraction : c.toNat % 2 ^ 64 = 0
  · rw [if_neg (not_not.mpr hfraction)]
    by_cases hmod : (seconds + unixToJ2000) % 86400 = 0
    · rw [if_neg (not_not.mpr hmod), Option.bind_some]
      obtain ⟨t, hnumber, hdate⟩ := civil_spec ((seconds + unixToJ2000) / 86400 + 719162)
      have hsecondsOf : ∀ n, secondsOf n = seconds ↔ n = t.number := by
        intro n
        unfold secondsOf
        unfold unixToJ2000 at hmod hnumber
        omega
      rw [hdate]
      dsimp only
      by_cases hyear : t.year < -9999 ∨ 9999 < t.year
      · rw [if_pos hyear]
        refine iff_of_false nofun ?_
        rintro ⟨-, u, hbounded, hu, -⟩
        have htu := Date.number_injective ((hsecondsOf _).mp hu)
        rw [htu] at hbounded
        omega
      · rw [if_neg hyear, calendarText_eq]
        constructor
        · intro h
          exact ⟨hfraction, t, by omega, (hsecondsOf _).mpr rfl, h⟩
        · rintro ⟨-, u, -, hu, h⟩
          rw [Date.number_injective ((hsecondsOf _).mp hu)] at h
          exact h
    · rw [if_pos hmod]
      refine iff_of_false nofun ?_
      rintro ⟨-, u, -, hu, -⟩
      unfold secondsOf at hu
      unfold unixToJ2000 at hmod
      omega
  · rw [if_pos hfraction]
    exact iff_of_false nofun fun h => hfraction h.1

/-- The times that the explorer shows are those of a date to a precision. -/
theorem renderAssertedTime_iff {c : Hash} {p : String} {s : Text} :
    renderAssertedTime (some ⟨.text (hexDigits (asBytes c)), p⟩) = some s ↔
      ∃ a : Asserted, a.text = s ∧ a.time = ⟨c, p⟩ := by
  rw [renderAssertedTime_some]
  constructor
  · rintro ⟨hfraction, t, hyear, hseconds, htext⟩
    obtain ⟨a, rfl, rfl, rfl⟩ := Asserted.exists_of_calendarText hyear htext
    refine ⟨a, rfl, ?_⟩
    have hcoordinate : a.time.coordinate = c := by
      have hnat := a.toNat_time
      apply BitVec.eq_of_toNat_eq
      omega
    rw [← hcoordinate]
    rfl
  · rintro ⟨a, rfl, h⟩
    obtain ⟨hc, hp⟩ := AssertedTime.mk.inj h
    have hnat := a.toNat_time
    rw [show a.time.coordinate = c from hc] at hnat
    refine ⟨by omega, a.date, a.bounded, by omega, ?_⟩
    rw [← hp]
    exact a.calendarText_eq

/-- The explorer shows what the publisher shows. -/
theorem renderAssertedTime_render (c : Hash) (p : String) :
    renderAssertedTime (some ⟨.text (hexDigits (asBytes c)), p⟩) = render ⟨c, p⟩ := by
  refine Option.ext fun s => ?_
  rw [renderAssertedTime_iff, V1.Publisher.Time.render_iff]

theorem renderAssertedTime_bytes (bs : List UInt8) (p : String) :
    renderAssertedTime (some ⟨.bytes bs, p⟩) =
      renderAssertedTime (some ⟨.text (hexDigits bs), p⟩) := by
  unfold renderAssertedTime
  simp only [Option.bind_eq_bind, Option.bind_some, Coordinate.hex, hex_bytes]

/-! ## Texts and coordinates -/

/-- The date that the digits of a text write. -/
def dateOf (text : Text) : Int × Int × Int :=
  let (negative, rest) := stripMinus text
  let parts := rest.splitOn '-'
  (yearOf negative parts, monthOf parts, dayOf parts)

def Earlier (t u : Int × Int × Int) : Prop :=
  t.1 < u.1 ∨ t.1 = u.1 ∧ (t.2.1 < u.2.1 ∨ t.2.1 = u.2.1 ∧ t.2.2 < u.2.2)

theorem dateOf_text (a : Asserted) : dateOf a.text = (a.date.year, a.date.month, a.date.day) := by
  unfold dateOf
  rw [a.stripMinus_text]
  dsimp only
  rw [a.splitOn_parts, a.yearOf_parts, a.monthOf_parts, a.dayOf_parts]

/-- Texts and the times they assert are in bijection, in the order of the calendar, and the
explorer has the same ones. -/
theorem asserted_times_agree :
    (∀ s t, parse s = .ok t → render t = some s) ∧
    (∀ t s, render t = some s ↔ parse s = .ok t) ∧
    (∀ s s' t t', parse s = .ok t → parse s' = .ok t' →
      (asBytes t.coordinate < asBytes t'.coordinate ↔ Earlier (dateOf s) (dateOf s'))) ∧
    (∀ z, let (y, m, d) := V1.Publisher.Time.civilFromDays z
      V1.Publisher.Time.daysFromCivil y m d = z ∧
        (1 ≤ m ∧ m ≤ 12) ∧ 1 ≤ d ∧ d ≤ V1.Publisher.Time.daysInMonth y m) ∧
    (∀ y m d, 1 ≤ m ∧ m ≤ 12 → 1 ≤ d ∧ d ≤ V1.Publisher.Time.daysInMonth y m →
      V1.Publisher.Time.civilFromDays (V1.Publisher.Time.daysFromCivil y m d) = (y, m, d)) ∧
    (∀ s, parseAssertedTime s =
      (parse s).toOption.map fun t => (hexDigits (asBytes t.coordinate), t.precision)) ∧
    ∀ c p, renderAssertedTime (some ⟨.text (hexDigits (asBytes c)), p⟩) = render ⟨c, p⟩ ∧
      renderAssertedTime (some ⟨.bytes (asBytes c), p⟩) = render ⟨c, p⟩ := by
  have hiff : ∀ t s, render t = some s ↔ parse s = .ok t := fun t s => by
    rw [V1.Publisher.Time.render_iff, V1.Publisher.Time.parse_iff]
  refine ⟨fun s t => (hiff t s).mpr, hiff, ?_, ?_, ?_, parseAssertedTime_parse, fun c p =>
    ⟨renderAssertedTime_render c p, ?_⟩⟩
  · intro s s' t t' h h'
    obtain ⟨a, rfl, rfl⟩ := V1.Publisher.Time.parse_iff.mp h
    obtain ⟨b, rfl, rfl⟩ := V1.Publisher.Time.parse_iff.mp h'
    rw [dateOf_text, dateOf_text, asBytes, asBytes, V1.hashBytes, V1.hashBytes,
      beBytes_lt_iff (BitVec.isLt _) (BitVec.isLt _),
      ← BitVec.lt_def, V1.Publisher.Time.coordinate_lt]
    rfl
  · intro z
    obtain ⟨t, hnumber, hdate⟩ := civil_spec (z + 719162)
    rw [V1.Publisher.Time.civilFromDays_eq, hdate]
    dsimp only
    rw [V1.Publisher.Time.daysFromCivil_eq, V1.Publisher.Time.daysInMonth_eq]
    exact ⟨by omega, t.month_mem, t.day_mem⟩
  · intro y m d hm hd
    rw [V1.Publisher.Time.daysInMonth_eq] at hd
    have hdays := V1.Publisher.Time.daysFromCivil_eq ⟨y, m, d, hm, hd⟩
    have hcivil := civil_number ⟨y, m, d, hm, hd⟩
    dsimp only at hdays hcivil
    rw [hdays, V1.Publisher.Time.civilFromDays_eq, Int.sub_add_cancel, hcivil]
  · rw [renderAssertedTime_bytes, renderAssertedTime_render]

namespace Times

def ides : Text := "-0043-03-15".toList
def nextYear : Text := "-0042-02-28".toList

/-- 00:00:00 on 15 March of the year -43. -/
def idesTime : AssertedTime :=
  ⟨(wholeTicks (secondsOf (-15998)) : Tick).toCanon, "day"⟩

def nextTime : AssertedTime :=
  ⟨(wholeTicks (secondsOf (-15648)) : Tick).toCanon, "day"⟩

end Times

open Times

/-- In the years before 0. -/
theorem asserted_times_agree_ides :
    render idesTime = some ides ∧ asBytes idesTime.coordinate < asBytes nextTime.coordinate ∧
      V1.Publisher.Time.civilFromDays (V1.Publisher.Time.daysFromCivil (-43) 3 15) =
        (-43, 3, 15) := by
  obtain ⟨hback, -, horder, -, hdays, -⟩ := asserted_times_agree
  have hides : parse ides = .ok idesTime := by decide
  have hnext : parse nextYear = .ok nextTime := by decide
  exact ⟨hback _ _ hides, (horder _ _ _ _ hides hnext).mpr (.inl (by decide)),
    hdays _ _ _ (by decide) (by decide)⟩

end Clockchain.Explorer
