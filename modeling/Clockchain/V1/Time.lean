import Clockchain.Decimals
import Clockchain.V0.Calendars
import Clockchain.V1.Wire

/-!
# Asserted times

`cc-publisher/src/v1/time.rs`. The texts that it reads, and the times that it shows as one, are
those of the dates with four digits of a year, each to a precision.
-/

namespace Clockchain.V1.Publisher.Time
open Codec Calendar
open Decimals (fixed Digits)
open V0 (Tick asBytes)
open V0.Publisher (Text wholeTicks)
open V0.Migrator (fitsI64 secondsOf tdiv_eq wholeTicks_toInt wholeTicks_lt)
set_option autoImplicit false

/-! ## The source -/

def unixToJ2000Secs : Int := 946728000

inductive TimeError where
  | form | signedZero | month | day
  deriving Repr, DecidableEq

def daysInMonth (year month : Int) : Int :=
  let leap := year % 4 = 0 ∧ (year % 100 ≠ 0 ∨ year % 400 = 0)
  if month = 2 ∧ leap then 29
  else if month = 2 then 28
  else if month = 4 ∨ month = 6 ∨ month = 9 ∨ month = 11 then 30
  else 31

/-- Divisions round toward zero. -/
def daysFromCivil (year month day : Int) : Int :=
  let y := if month ≤ 2 then year - 1 else year
  let era := (if 0 ≤ y then y else y - 399).tdiv 400
  let yoe := y - era * 400
  let mp := (month + 9).tmod 12
  let doy := (153 * mp + 2).tdiv 5 + day - 1
  let doe := yoe * 365 + yoe.tdiv 4 - yoe.tdiv 100 + doy
  era * 146097 + doe - 719468

def civilFromDays (z : Int) : Int × Int × Int :=
  let z := z + 719468
  let era := (if 0 ≤ z then z else z - 146096).tdiv 146097
  let doe := z - era * 146097
  let yoe := (doe - doe.tdiv 1460 + doe.tdiv 36524 - doe.tdiv 146096).tdiv 365
  let doy := doe - (365 * yoe + yoe.tdiv 4 - yoe.tdiv 100)
  let mp := (5 * doy + 2).tdiv 153
  let d := doy - (153 * mp + 2).tdiv 5 + 1
  let m := if mp < 10 then mp + 3 else mp - 9
  (yoe + era * 400 + (if m ≤ 2 then 1 else 0), m, d)

/-- The number that the canonical bytes write. -/
def coordinate (year month day : Int) : Hash :=
  let seconds := daysFromCivil year month day * 86400 - unixToJ2000Secs
  (wholeTicks seconds).toCanon

def ensure (c : Bool) (e : TimeError) : Except TimeError Unit := if c then .ok () else .error e

/-- `strip_prefix('-')`. -/
def stripMinus : Text → Bool × Text
  | '-' :: rest => (true, rest)
  | input => (false, input)

/-- A digit is one byte. -/
def parse (input : Text) : Except TimeError AssertedTime := do
  let (negative, rest) := stripMinus input
  let parts := rest.splitOn '-'
  let widths := [4, 2, 2]
  ensure (1 ≤ parts.length && parts.length ≤ 3 &&
    (parts.zip widths).all fun p => p.1.length = p.2 && p.1.all Char.isDigit) .form
  let digits : Int := Decimals.value (parts.getD 0 [])
  ensure (!(negative && digits = 0)) .signedZero
  let year := if negative then -digits else digits
  let month : Int := (parts[1]?.map Decimals.value).getD 1
  let day : Int := (parts[2]?.map Decimals.value).getD 1
  ensure (1 ≤ month && month ≤ 12) .month
  ensure (1 ≤ day && day ≤ daysInMonth year month) .day
  let precision := ["year", "month", "day"].getD (parts.length - 1) ""
  return { coordinate := coordinate year month day, precision }

/-- The whole seconds of a coordinate without a fraction. -/
def wholeSeconds (c : Hash) : Option Int :=
  let b := asBytes c
  if b.drop 24 ≠ List.replicate 8 0 then none
  else
    let seconds := (BitVec.ofNat 64 (beNat (b.extract 16 24))).toInt
    let fill : UInt8 := if seconds < 0 then 0xff else 0x00
    if b.head? = some (fill ^^^ 0x80) ∧ (b.extract 1 16).all (· = fill) then some seconds else none

def checkedAdd (a b : Int) : Option Int := if fitsI64 (a + b) then some (a + b) else none

/-- `{:0w}` of a number that is not negative. -/
def padded (width : Nat) (n : Int) : Text := fixed width n.toNat

/-- The text of a date that `render` matches on the precision. -/
def calendarText (precision : String) (y m d : Int) : Option Text :=
  let year := if y < 0 then '-' :: padded 4 (-y) else padded 4 y
  if precision = "year" ∧ m = 1 ∧ d = 1 then some year
  else if precision = "month" ∧ d = 1 then some (year ++ '-' :: padded 2 m)
  else if precision = "day" then some (year ++ '-' :: padded 2 m ++ '-' :: padded 2 d)
  else none

def render (t : AssertedTime) : Option Text := do
  let seconds ← checkedAdd (← wholeSeconds t.coordinate) unixToJ2000Secs
  if seconds % 86400 ≠ 0 then none
  else
    let (y, m, d) := civilFromDays (seconds / 86400)
    if ¬ (-9999 ≤ y ∧ y ≤ 9999) then none
    else
      let text ← calendarText t.precision y m d
      if parse text = .ok t then some text else none

/-! ## Days -/

theorem daysInMonth_eq (year month : Int) : daysInMonth year month = monthLength year month := by
  have hleap : (year % 4 = 0 ∧ (year % 100 ≠ 0 ∨ year % 400 = 0)) = Leap year := rfl
  unfold daysInMonth monthLength
  simp only [hleap]
  by_cases hmonth : month = 2
  · rw [if_pos hmonth, if_pos hmonth]
    by_cases hlong : Leap year
    · rw [if_pos ⟨hmonth, hlong⟩, if_pos hlong]
    · rw [if_neg (fun h => hlong h.2), if_neg hlong]
  · rw [if_neg (fun h => hmonth h.1), if_neg hmonth, if_neg hmonth]

/-- An era, rounded down. -/
theorem era_eq {k n : Int} (hk : 0 < k) :
    (if 0 ≤ n then n else n - (k - 1)).tdiv k = n / k := by
  by_cases hn : 0 ≤ n
  · rw [if_pos hn, Int.tdiv_eq_ediv_of_nonneg hn]
  · have hsplit := Int.mul_ediv_add_emod n k
    have h0 := Int.emod_nonneg n hk.ne'
    have h1 := Int.emod_lt_of_pos n hk
    rw [if_neg hn, tdiv_eq _ hk]
    by_cases hlast : n % k = k - 1
    · have heq : n - (k - 1) = k * (n / k) := by omega
      rw [heq, Int.mul_emod_right, Int.mul_ediv_cancel_left _ hk.ne', if_neg (fun h => h.2 rfl)]
    · have heq : n - (k - 1) = n % k + 1 + k * (n / k - 1) := by
        rw [Int.mul_sub]
        omega
      have hmod : (n - (k - 1)) % k = n % k + 1 := by
        rw [heq, Int.add_mul_emod_self_left, Int.emod_eq_of_lt (by omega) (by omega)]
      have hdiv : (n - (k - 1)) / k = n / k - 1 := by
        rw [heq, Int.add_mul_ediv_left _ _ hk.ne', Int.ediv_eq_zero_of_lt (by omega) (by omega)]
        omega
      rw [hmod, hdiv, if_pos ⟨by omega, by omega⟩]
      omega

/-- 1 January 1970 has the number 719162. -/
theorem daysFromCivil_eq (t : Date) :
    daysFromCivil t.year t.month t.day = t.number - 719162 := by
  have hmonth := t.month_mem
  have hera : (if 0 ≤ t.marchYear then t.marchYear else t.marchYear - 399).tdiv 400 =
    t.marchYear / 400 := era_eq (k := 400) (by decide)
  have hmp : (t.month + 9).tmod 12 = (t.month + 9) % 12 := Int.tmod_eq_emod_of_nonneg (by omega)
  have hnumber := t.number_march
  have hyear : (if t.month ≤ 2 then t.year - 1 else t.year) = t.marchYear := rfl
  unfold daysFromCivil
  simp only [hyear, hera, hmp]
  rw [Int.tdiv_eq_ediv_of_nonneg (by omega), Int.tdiv_eq_ediv_of_nonneg (by omega),
    Int.tdiv_eq_ediv_of_nonneg (by omega), hnumber]
  clear hyear hera hmp hnumber
  omega

theorem civilFromDays_eq (z : Int) : civilFromDays z = civil (z + 719162) := by
  have hz : z + 719162 + 306 = z + 719468 := by omega
  have hera : (if 0 ≤ z + 719468 then z + 719468 else z + 719468 - 146096).tdiv 146097 =
    (z + 719468) / 146097 := era_eq (k := 146097) (by decide)
  unfold civilFromDays civil
  simp only [hera, hz]
  obtain ⟨doe, hdoe⟩ : ∃ doe, z + 719468 - (z + 719468) / 146097 * 146097 = doe := ⟨_, rfl⟩
  have h0 : 0 ≤ doe := by omega
  have h1 : doe ≤ 146096 := by omega
  obtain ⟨yoe, hyoe, hyoe0, -, hstart, -⟩ := yearOfEra_spec h0 h1
  have hquotients : (doe - doe.tdiv 1460 + doe.tdiv 36524 - doe.tdiv 146096).tdiv 365 = yoe := by
    rw [Int.tdiv_eq_ediv_of_nonneg h0, Int.tdiv_eq_ediv_of_nonneg h0, Int.tdiv_eq_ediv_of_nonneg h0,
      Int.tdiv_eq_ediv_of_nonneg (by omega), hyoe]
  obtain ⟨doy, hdoy⟩ : ∃ doy, doe - (365 * yoe + yoe / 4 - yoe / 100) = doy := ⟨_, rfl⟩
  have hmp : (5 * doy + 2).tdiv 153 = (5 * doy + 2) / 153 :=
    Int.tdiv_eq_ediv_of_nonneg (by omega)
  have hstart : (153 * ((5 * doy + 2) / 153) + 2).tdiv 5 = (153 * ((5 * doy + 2) / 153) + 2) / 5 :=
    Int.tdiv_eq_ediv_of_nonneg (by omega)
  rw [hdoe, hquotients, hyoe, Int.tdiv_eq_ediv_of_nonneg hyoe0,
    Int.tdiv_eq_ediv_of_nonneg hyoe0, hdoy, hmp, hstart]

/-! ## Whole seconds -/

theorem all_eq_replicate {bs : Bytes} {n : Nat} {b : UInt8} (h : bs.length = n) :
    bs.all (· = b) = true ↔ bs = List.replicate n b := by
  rw [List.eq_replicate_iff, List.all_eq_true]
  simp [h]

theorem toInt_ofNat {q : Nat} (h : q < 2 ^ 64) :
    (BitVec.ofNat 64 q).toInt = if q < 2 ^ 63 then (q : Int) else q - 2 ^ 64 := by
  rw [BitVec.toInt_eq_toNat_cond, BitVec.toNat_ofNat, Nat.mod_eq_of_lt h]
  split <;> split <;> omega

/-- The first byte, and a fill of the next fifteen. -/
theorem filled_iff {n : Nat} {b fill : UInt8} (hlt : n < 2 ^ 256) :
    some (UInt8.ofNat (n / 256 ^ 31)) = some b ∧
        beBytes 15 (n / 256 ^ 16) = List.replicate 15 fill ↔
      n / 256 ^ 16 = b.toNat * 256 ^ 15 + beNat (List.replicate 15 fill) := by
  have hb : UInt8.ofNat (n / 256 ^ 31) = b ↔ n / 256 ^ 31 = b.toNat := by
    rw [← UInt8.toNat_inj, UInt8.toNat_ofNat', Nat.mod_eq_of_lt]
    omega
  have hfill := beNat_lt (List.replicate 15 fill)
  rw [List.length_replicate] at hfill
  rw [Option.some_inj, hb, beBytes_eq_iff List.length_replicate]
  generalize beNat (List.replicate 15 fill) = f at *
  omega

/-- The last eight bytes are zero, and the first sixteen are the sign of the eight between. -/
theorem wholeSeconds_eq (c : Hash) (s : Int) :
    wholeSeconds c = some s ↔ fitsI64 s ∧ (c.toNat : Int) = s * 2 ^ 64 + 2 ^ 255 := by
  have hlt : c.toNat < 2 ^ 256 := c.isLt
  have hlast : (asBytes c).drop 24 = beBytes 8 c.toNat := beBytes_drop 24 8 _
  have hmiddle : (asBytes c).extract 16 24 = beBytes 8 (c.toNat / 256 ^ 8) :=
    beBytes_extract 16 8 8 _
  have hfill : (asBytes c).extract 1 16 = beBytes 15 (c.toNat / 256 ^ 16) :=
    beBytes_extract 1 15 16 _
  have hhead : (asBytes c).head? = some (UInt8.ofNat (c.toNat / 256 ^ 31)) := by
    rw [asBytes, V1.hashBytes, beBytes_cons]
    rfl
  have hmod : c.toNat / 256 ^ 8 % 256 ^ 8 < 2 ^ 64 := Nat.mod_lt _ (by decide)
  have hzero : beBytes 8 c.toNat = List.replicate 8 0 ↔ c.toNat % 256 ^ 8 = 0 :=
    beBytes_eq_iff rfl
  unfold wholeSeconds fitsI64
  simp only [hlast, hmiddle, hfill, hhead, beNat_beBytes_mod, ne_eq, toInt_ofNat hmod, hzero,
    all_eq_replicate (beBytes_length 15 _), filled_iff hlt]
  generalize c.toNat = n at *
  by_cases hfrac : n % 256 ^ 8 = 0
  · rw [if_neg (not_not.mpr hfrac)]
    by_cases hneg : n / 256 ^ 8 % 256 ^ 8 < 2 ^ 63
    · have hsign : ¬ ((n / 256 ^ 8 % 256 ^ 8 : Nat) : Int) < 0 := by omega
      have hpositive : ((0 : UInt8) ^^^ 128).toNat * 256 ^ 15 + beNat (List.replicate 15 0) =
        2 ^ 127 := rfl
      rw [if_pos hneg, if_neg hsign, hpositive]
      split <;> simp only [Option.some.injEq, reduceCtorEq, false_iff] <;> omega
    · have hsign : ((n / 256 ^ 8 % 256 ^ 8 : Nat) : Int) - 2 ^ 64 < 0 := by omega
      have hnegative : ((255 : UInt8) ^^^ 128).toNat * 256 ^ 15 + beNat (List.replicate 15 255) =
        2 ^ 127 - 1 := rfl
      rw [if_neg hneg, if_pos hsign, hnegative]
      split <;> simp only [Option.some.injEq, reduceCtorEq, false_iff] <;> omega
  · rw [if_pos hfrac]
    simp only [reduceCtorEq, false_iff]
    omega

/-- The coordinates of whole seconds. -/
theorem wholeSeconds_toCanon (c : Hash) (s : Int) :
    wholeSeconds c = some s ↔ fitsI64 s ∧ c = (wholeTicks s).toCanon := by
  rw [wholeSeconds_eq]
  refine and_congr_right fun hs => ?_
  rw [← wholeTicks_toInt hs, ← Tick.toNat_toCanon, Int.natCast_inj, BitVec.toNat_inj]

/-! ## Dates to a precision -/

inductive Precision where
  | year | month | day
  deriving Repr, DecidableEq

def Precision.name : Precision → String
  | .year => "year"
  | .month => "month"
  | .day => "day"

/-- A date with four digits of a year, the first one of what it is known to. -/
structure Asserted where
  date : Date
  precision : Precision
  bounded : -9999 ≤ date.year ∧ date.year ≤ 9999
  first_month : precision = .year → date.month = 1
  first_day : precision ≠ .day → date.day = 1

namespace Asserted

def negative (a : Asserted) : Bool := decide (a.date.year < 0)

def parts (a : Asserted) : List Text :=
  fixed 4 a.date.year.natAbs :: match a.precision with
    | .year => []
    | .month => [fixed 2 a.date.month.natAbs]
    | .day => [fixed 2 a.date.month.natAbs, fixed 2 a.date.day.natAbs]

def text (a : Asserted) : Text :=
  (if a.negative then ['-'] else []) ++ ['-'].intercalate a.parts

def time (a : Asserted) : AssertedTime where
  coordinate := (wholeTicks (secondsOf a.date.number)).toCanon
  precision := a.precision.name

end Asserted

/-- Two or four digits each. -/
def WellFormed (parts : List Text) : Prop :=
  (1 ≤ parts.length ∧ parts.length ≤ 3) ∧
    ∀ p ∈ parts.zip [4, 2, 2], p.1.length = p.2 ∧ Digits p.1

theorem coordinate_eq (t : Date) :
    coordinate t.year t.month t.day = (wholeTicks (secondsOf t.number)).toCanon := by
  unfold coordinate
  rw [daysFromCivil_eq]
  dsimp only
  congr 2
  unfold secondsOf unixToJ2000Secs
  omega

namespace Asserted
variable {a : Asserted}

theorem parts_wellFormed (a : Asserted) : WellFormed a.parts := by
  have hyear := a.bounded
  have hmonth := a.date.month_mem
  have hday := a.date.day_mem
  have hlength := monthLength_le a.date.year a.date.month
  have hy : (fixed 4 a.date.year.natAbs).length = 4 :=
    Decimals.fixed_length (by decide) (by omega)
  have hm : (fixed 2 a.date.month.natAbs).length = 2 :=
    Decimals.fixed_length (by decide) (by omega)
  have hd : (fixed 2 a.date.day.natAbs).length = 2 :=
    Decimals.fixed_length (by decide) (by omega)
  have hdigits : ∀ w n, Digits (fixed w n) := fun w n => Decimals.fixed_digits
  unfold WellFormed parts
  cases a.precision with
  | year => simp [hy, hdigits]
  | month => simp [hy, hm, hdigits]
  | day => simp [hy, hm, hd, hdigits]

end Asserted

def yearOf (negative : Bool) (parts : List Text) : Int :=
  if negative then -(Decimals.value (parts.getD 0 []) : Int) else Decimals.value (parts.getD 0 [])

def monthOf (parts : List Text) : Int := (parts[1]?.map Decimals.value).getD 1

def dayOf (parts : List Text) : Int := (parts[2]?.map Decimals.value).getD 1

/-- What is checked of the parts. -/
structure Checks (negative : Bool) (parts : List Text) : Prop where
  form : WellFormed parts
  sign : ¬ (negative = true ∧ Decimals.value (parts.getD 0 []) = 0)
  month : 1 ≤ monthOf parts ∧ monthOf parts ≤ 12
  day : 1 ≤ dayOf parts ∧ dayOf parts ≤ daysInMonth (yearOf negative parts) (monthOf parts)

namespace Asserted
variable {a : Asserted}

theorem yearOf_parts (a : Asserted) : yearOf a.negative a.parts = a.date.year := by
  unfold yearOf negative parts
  rw [List.getD_cons_zero, Decimals.value_fixed]
  by_cases hneg : a.date.year < 0
  · rw [if_pos (decide_eq_true hneg)]
    omega
  · rw [if_neg (by simp [hneg])]
    omega

theorem monthOf_parts (a : Asserted) : monthOf a.parts = a.date.month := by
  have hmonth := a.date.month_mem
  have habs : (a.date.month.natAbs : Int) = a.date.month := by omega
  unfold monthOf parts
  cases h : a.precision with
  | year => exact (a.first_month h).symm
  | month => simp [Decimals.value_fixed, habs]
  | day => simp [Decimals.value_fixed, habs]

theorem dayOf_parts (a : Asserted) : dayOf a.parts = a.date.day := by
  have hday := a.date.day_mem
  have habs : (a.date.day.natAbs : Int) = a.date.day := by omega
  unfold dayOf parts
  cases h : a.precision with
  | year => exact (a.first_day (by rw [h]; decide)).symm
  | month => exact (a.first_day (by rw [h]; decide)).symm
  | day => simp [Decimals.value_fixed, habs]

theorem checks (a : Asserted) : Checks a.negative a.parts where
  form := a.parts_wellFormed
  sign := by
    unfold negative parts
    rw [List.getD_cons_zero, Decimals.value_fixed, decide_eq_true_eq]
    omega
  month := by
    rw [monthOf_parts]
    exact a.date.month_mem
  day := by
    rw [dayOf_parts, yearOf_parts, monthOf_parts, daysInMonth_eq]
    exact a.date.day_mem

/-- What is checked makes a date. -/
theorem exists_of_checks {negative : Bool} {parts : List Text} (h : Checks negative parts) :
    ∃ a : Asserted, a.negative = negative ∧ a.parts = parts := by
  obtain ⟨⟨hlen, hparts⟩, hsign, hmonth, hday⟩ := h
  rw [daysInMonth_eq] at hday
  have hfixed : ∀ {w : Nat} {p : Text}, 0 < w → p.length = w ∧ Digits p →
      fixed w (Decimals.value p) = p := fun hw hp => Decimals.fixed_value hw hp.2 hp.1
  cases parts with
  | nil => exact absurd hlen.1 (by decide)
  | cons y parts =>
    have hy : y.length = 4 ∧ Digits y := hparts (y, 4) List.mem_cons_self
    have hlt : Decimals.value y < 10 ^ 4 := hy.1 ▸ Decimals.value_lt hy.2
    have habs : (yearOf negative (y :: parts)).natAbs = Decimals.value y := by
      unfold yearOf
      rw [List.getD_cons_zero]
      split <;> omega
    have hnegative : decide (yearOf negative (y :: parts) < 0) = negative := by
      unfold yearOf
      rw [List.getD_cons_zero] at hsign ⊢
      cases negative with
      | true =>
        rw [if_pos rfl]
        exact decide_eq_true (by have := mt (And.intro rfl) hsign; omega)
      | false =>
        rw [if_neg Bool.false_ne_true]
        exact decide_eq_false (by omega)
    have hbounded : -9999 ≤ yearOf negative (y :: parts) ∧ yearOf negative (y :: parts) ≤ 9999 := by
      omega
    match parts, hlen.2, hparts with
    | [], _, _ =>
      refine ⟨⟨⟨_, _, _, hmonth, hday⟩, .year, hbounded, fun _ => rfl, fun _ => rfl⟩, hnegative, ?_⟩
      simp only [Asserted.parts, habs, hfixed (by decide) hy]
    | [m], _, hparts =>
      have hm : m.length = 2 ∧ Digits m := hparts (m, 2) (by simp)
      refine ⟨⟨⟨_, _, _, hmonth, hday⟩, .month, hbounded, nofun, fun _ => rfl⟩, hnegative, ?_⟩
      simp only [Asserted.parts, habs, hfixed (by decide) hy]
      simp [monthOf, hfixed _ hm]
    | [m, d], _, hparts =>
      have hm : m.length = 2 ∧ Digits m := hparts (m, 2) (by simp)
      have hd : d.length = 2 ∧ Digits d := hparts (d, 2) (by simp)
      refine ⟨⟨⟨_, _, _, hmonth, hday⟩, .day, hbounded, nofun, fun h => absurd rfl h⟩,
        hnegative, ?_⟩
      simp only [Asserted.parts, habs, hfixed (by decide) hy]
      simp [monthOf, dayOf, hfixed _ hm, hfixed _ hd]
    | _ :: _ :: _ :: rest, hlen, _ =>
      simp only [List.length_cons] at hlen
      omega

theorem precision_name (a : Asserted) :
    ["year", "month", "day"].getD (a.parts.length - 1) "" = a.precision.name := by
  unfold parts Precision.name
  cases a.precision <;> rfl

end Asserted

/-! ## Texts -/

theorem ensure_ok {c : Bool} {e : TimeError} {u : Unit} : ensure c e = .ok u ↔ c = true := by
  cases c <;> simp [ensure]

theorem wellFormed_iff (parts : List Text) :
    (1 ≤ parts.length && parts.length ≤ 3 &&
      (parts.zip [4, 2, 2]).all fun p => p.1.length = p.2 && p.1.all Char.isDigit) = true ↔
        WellFormed parts := by
  unfold WellFormed Digits
  simp only [Bool.and_eq_true, decide_eq_true_eq, List.all_eq_true]

theorem parse_ok {input : Text} {t : AssertedTime} {negative : Bool} {parts : List Text}
    (hs : stripMinus input = (negative, ['-'].intercalate parts))
    (hparts : (['-'].intercalate parts).splitOn '-' = parts) :
    parse input = .ok t ↔ Checks negative parts ∧ t =
      { coordinate := coordinate (yearOf negative parts) (monthOf parts) (dayOf parts)
        precision := ["year", "month", "day"].getD (parts.length - 1) "" } := by
  have hyear : (if negative = true then -(Decimals.value (parts.getD 0 []) : Int)
      else Decimals.value (parts.getD 0 [])) = yearOf negative parts := rfl
  have hmonth : (((parts[1]?.map Decimals.value).getD 1 : Nat) : Int) = monthOf parts := rfl
  have hday : (((parts[2]?.map Decimals.value).getD 1 : Nat) : Int) = dayOf parts := rfl
  unfold parse
  rw [hs]
  simp only [hparts, Programs.bind_ok, ensure_ok, wellFormed_iff, hyear, hmonth, hday]
  constructor
  · rintro ⟨_, hform, _, hsign, _, hm, _, hd, h⟩
    refine ⟨⟨hform, ?_, by simpa using hm, by simpa using hd⟩, (Except.ok.inj h).symm⟩
    rintro ⟨hneg, hzero⟩
    rw [hneg, hzero] at hsign
    exact absurd hsign (by decide)
  · rintro ⟨hchecks, rfl⟩
    refine ⟨(), hchecks.form, (), ?_, (), by simpa using hchecks.month, (),
      by simpa using hchecks.day, rfl⟩
    have hsign := hchecks.sign
    rw [Bool.not_eq_true', Bool.and_eq_false_iff, decide_eq_false_iff_not]
    cases negative with
    | true => exact .inr fun hzero => hsign ⟨rfl, by exact_mod_cast hzero⟩
    | false => exact .inl rfl

theorem stripMinus_append (input : Text) :
    (if (stripMinus input).1 then ['-'] else []) ++ (stripMinus input).2 = input := by
  unfold stripMinus
  split <;> rfl

theorem minus_not_digit : ¬ ('-').isDigit = true := by decide

namespace Asserted

theorem parts_digits {a : Asserted} {p : Text} (hp : p ∈ a.parts) : Digits p := by
  unfold parts at hp
  rcases List.mem_cons.mp hp with rfl | hp
  · exact Decimals.fixed_digits
  · cases h : a.precision with
    | year =>
      rw [h] at hp
      nomatch hp
    | month =>
      rw [h] at hp
      obtain rfl := List.mem_singleton.mp hp
      exact Decimals.fixed_digits
    | day =>
      rw [h] at hp
      rcases List.mem_pair.mp hp with rfl | rfl
      · exact Decimals.fixed_digits
      · exact Decimals.fixed_digits

theorem splitOn_parts (a : Asserted) : (['-'].intercalate a.parts).splitOn '-' = a.parts :=
  List.splitOn_intercalate '-' (fun _ hp hminus => minus_not_digit (parts_digits hp '-' hminus))
    (List.cons_ne_nil _ _)

theorem stripMinus_text (a : Asserted) :
    stripMinus a.text = (a.negative, ['-'].intercalate a.parts) := by
  unfold text
  cases h : a.negative with
  | true => rfl
  | false =>
    rw [if_neg Bool.false_ne_true, List.nil_append]
    unfold stripMinus
    split
    case h_1 rest heq =>
      -- The part before the first minus is the year, which is not empty.
      have hparts := a.splitOn_parts
      have hlen := (a.parts_wellFormed.2 (fixed 4 _, 4) List.mem_cons_self).1
      rw [heq, show '-' :: rest = [] ++ '-' :: rest from rfl,
        List.splitOn_append_cons_self_of_not_mem List.not_mem_nil] at hparts
      rw [← (List.cons.inj hparts).1] at hlen
      nomatch hlen
    · rfl

theorem parse_text (a : Asserted) : parse a.text = .ok a.time := by
  rw [parse_ok a.stripMinus_text a.splitOn_parts]
  refine ⟨a.checks, ?_⟩
  rw [yearOf_parts, monthOf_parts, dayOf_parts, coordinate_eq, precision_name]
  rfl

end Asserted

/-- The texts that are read are those of a date to a precision. -/
theorem parse_iff {s : Text} {t : AssertedTime} :
    parse s = .ok t ↔ ∃ a : Asserted, a.text = s ∧ a.time = t := by
  constructor
  · intro h
    obtain ⟨negative, parts, hs, hparts⟩ : ∃ negative parts,
        stripMinus s = (negative, ['-'].intercalate parts) ∧
          (['-'].intercalate parts).splitOn '-' = parts :=
      ⟨(stripMinus s).1, (stripMinus s).2.splitOn '-', by rw [List.intercalate_splitOn],
        by rw [List.intercalate_splitOn]⟩
    obtain ⟨hchecks, rfl⟩ := (parse_ok hs hparts).mp h
    obtain ⟨a, rfl, rfl⟩ := Asserted.exists_of_checks hchecks
    refine ⟨a, ?_, ?_⟩
    · rw [← stripMinus_append s, hs]
      rfl
    · have hparse := a.parse_text
      rw [parse_ok a.stripMinus_text a.splitOn_parts] at hparse
      exact hparse.2
  · rintro ⟨a, rfl, rfl⟩
    exact a.parse_text

namespace Asserted

theorem fitsI64_seconds (a : Asserted) : fitsI64 (secondsOf a.date.number) ∧
    fitsI64 (secondsOf a.date.number + unixToJ2000Secs) := by
  have hyear := a.bounded
  have hday := a.date.dayOfYear_mem
  have hlength := yearLength_le a.date.year
  unfold fitsI64 secondsOf unixToJ2000Secs Date.number yearStart
  omega

theorem wholeSeconds_time (a : Asserted) :
    wholeSeconds a.time.coordinate = some (secondsOf a.date.number) :=
  (wholeSeconds_toCanon _ _).mpr ⟨a.fitsI64_seconds.1, rfl⟩

/-- The days that are shown. -/
theorem days_time (a : Asserted) :
    (secondsOf a.date.number + unixToJ2000Secs) % 86400 = 0 ∧
      civilFromDays ((secondsOf a.date.number + unixToJ2000Secs) / 86400) =
        (a.date.year, a.date.month, a.date.day) := by
  have hseconds : secondsOf a.date.number + unixToJ2000Secs = (a.date.number - 719162) * 86400 := by
    unfold secondsOf unixToJ2000Secs
    omega
  rw [hseconds, Int.mul_emod_left, Int.mul_ediv_cancel _ (by decide), civilFromDays_eq,
    Int.sub_add_cancel, civil_number]
  exact ⟨rfl, rfl⟩

theorem signed_year (a : Asserted) :
    (if a.date.year < 0 then '-' :: padded 4 (-a.date.year) else padded 4 a.date.year) =
      (if a.negative then ['-'] else []) ++ fixed 4 a.date.year.natAbs := by
  by_cases hneg : a.date.year < 0
  · have habs : (-a.date.year).toNat = a.date.year.natAbs := by omega
    have hnegative : a.negative = true := decide_eq_true hneg
    rw [if_pos hneg, hnegative, padded, habs]
    rfl
  · have habs : a.date.year.toNat = a.date.year.natAbs := by omega
    have hnegative : a.negative = false := decide_eq_false hneg
    rw [if_neg hneg, hnegative, padded, habs]
    rfl

theorem calendarText_eq (a : Asserted) :
    calendarText a.precision.name a.date.year a.date.month a.date.day = some a.text := by
  have hmonth : padded 2 a.date.month = fixed 2 a.date.month.natAbs := by
    have := a.date.month_mem
    rw [padded, show a.date.month.toNat = a.date.month.natAbs by omega]
  have hday : padded 2 a.date.day = fixed 2 a.date.day.natAbs := by
    have := a.date.day_mem
    rw [padded, show a.date.day.toNat = a.date.day.natAbs by omega]
  unfold calendarText text parts
  simp only [signed_year, hmonth, hday]
  cases h : a.precision with
  | year =>
    rw [if_pos ⟨rfl, a.first_month h, a.first_day (by rw [h]; decide)⟩]
    simp [List.intercalate]
  | month =>
    rw [if_neg (fun hyear => absurd hyear.1 (by decide)),
      if_pos ⟨rfl, a.first_day (by rw [h]; decide)⟩]
    simp [List.intercalate]
  | day =>
    rw [if_neg (fun hyear => absurd hyear.1 (by decide)),
      if_neg (fun hmonth => absurd hmonth.1 (by decide)), if_pos (by rfl)]
    simp [List.intercalate]

theorem exists_of_calendarText {t : Date} {p : String} {s : Text}
    (hyear : -9999 ≤ t.year ∧ t.year ≤ 9999)
    (h : calendarText p t.year t.month t.day = some s) :
    ∃ a : Asserted, a.date = t ∧ a.precision.name = p ∧ a.text = s := by
  have hprecision : (p = "year" ∧ t.month = 1 ∧ t.day = 1) ∨ (p = "month" ∧ t.day = 1) ∨
      p = "day" := by
    by_contra hnone
    rw [not_or, not_or] at hnone
    rw [calendarText, if_neg hnone.1, if_neg hnone.2.1, if_neg hnone.2.2] at h
    nomatch h
  obtain ⟨a, rfl, rfl⟩ : ∃ a : Asserted, a.date = t ∧ a.precision.name = p := by
    rcases hprecision with ⟨rfl, hmonth, hday⟩ | ⟨rfl, hday⟩ | rfl
    · exact ⟨⟨t, .year, hyear, fun _ => hmonth, fun _ => hday⟩, rfl, rfl⟩
    · exact ⟨⟨t, .month, hyear, nofun, fun _ => hday⟩, rfl, rfl⟩
    · exact ⟨⟨t, .day, hyear, nofun, fun hne => absurd rfl hne⟩, rfl, rfl⟩
  rw [a.calendarText_eq] at h
  exact ⟨a, rfl, rfl, Option.some.inj h⟩

theorem toNat_time (a : Asserted) :
    (a.time.coordinate.toNat : Int) = secondsOf a.date.number * 2 ^ 64 + 2 ^ 255 := by
  rw [← wholeTicks_toInt a.fitsI64_seconds.1]
  exact Tick.toNat_toCanon _

theorem render_time (a : Asserted) : render a.time = some a.text := by
  obtain ⟨hmod, hcivil⟩ := a.days_time
  have hadd : checkedAdd (secondsOf a.date.number) unixToJ2000Secs =
      some (secondsOf a.date.number + unixToJ2000Secs) := if_pos a.fitsI64_seconds.2
  unfold render
  simp only [Option.bind_eq_bind, a.wholeSeconds_time, Option.bind_some, hadd]
  rw [if_neg (not_not.mpr hmod), hcivil]
  dsimp only
  rw [if_neg (not_not.mpr a.bounded), show a.time.precision = a.precision.name from rfl,
    a.calendarText_eq, Option.bind_some]
  exact if_pos a.parse_text

end Asserted

theorem parse_of_render {s : Text} {t : AssertedTime} (h : render t = some s) :
    parse s = .ok t := by
  simp only [render, Option.bind_eq_bind, Option.bind_eq_some_iff] at h
  obtain ⟨_, -, _, -, h⟩ := h
  split at h
  · nomatch h
  · split at h
    · nomatch h
    · obtain ⟨text, -, h⟩ := Option.bind_eq_some_iff.mp h
      split at h
      case isTrue hparse =>
        obtain rfl := Option.some.inj h
        exact hparse
      case isFalse => nomatch h

/-- The times that are shown are those of a date to a precision. -/
theorem render_iff {s : Text} {t : AssertedTime} :
    render t = some s ↔ ∃ a : Asserted, a.text = s ∧ a.time = t := by
  constructor
  · intro h
    exact parse_iff.mp (parse_of_render h)
  · rintro ⟨a, rfl, rfl⟩
    exact a.render_time

/-! ## Order -/

theorem coordinate_lt {a b : Asserted} :
    a.time.coordinate < b.time.coordinate ↔ a.date.Before b.date := by
  rw [← Date.number_lt_iff]
  unfold Asserted.time
  rw [Tick.toCanon_lt, BitVec.slt_iff_toInt_lt,
    wholeTicks_lt a.fitsI64_seconds.1 b.fitsI64_seconds.1]
  unfold secondsOf
  omega

end Clockchain.V1.Publisher.Time
