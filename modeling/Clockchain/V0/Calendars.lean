import Clockchain.Calendar
import Clockchain.V0.Chronology
import Clockchain.V0.Ticks

/-!
# Calendars

`v1_coordinate` of `cc-migrator/src/main.rs` and `year_coord` of `ops/corpus_audit.py`, beside
`yearTick` and `entryCoordinate`. All but the first are the days of the Gregorian calendar; the
first rounds its quotients toward zero, which is a day late in the common years before -4800.
-/

namespace Clockchain.V0.Migrator
open Codec Calendar Programs
open V1.Publisher (isWhitespace)
open Publisher (Text decimal Value yearTick wholeTicks entryCoordinate dayTick digits daysOf
  unixToJ2000Secs context_ok ensure_ok)
set_option autoImplicit false

/-! ## The source -/

def fitsI64 (n : Int) : Prop := -2 ^ 63 ≤ n ∧ n < 2 ^ 63

instance (n : Int) : Decidable (fitsI64 n) := inferInstanceAs (Decidable (_ ∧ _))

/-- `str::trim`. -/
def trim (s : Text) : Text := Words.strip isWhitespace s

/-- The digits and the sign of a number. -/
def signed : Text → Bool × Text
  | '-' :: rest => (true, rest)
  | '+' :: rest => (false, rest)
  | s => (false, s)

/-- `str::parse::<i64>`. -/
def parseI64 (s : Text) : Option Int :=
  let (negative, ds) := signed s
  if ds.isEmpty || !ds.all Char.isDigit then none
  else
    let n : Int := if negative then -(digits ds) else digits ds
    if fitsI64 n then some n else none

/-- `i64::clamp`. -/
def clamp (n lo hi : Int) : Int := if n < lo then lo else if hi < n then hi else n

/-- The division rounds toward zero. The product overflows half a day before the seconds do, which
is left out. -/
def v1Coordinate (year monthNum day : Text) : Option Tick := do
  let y ← parseI64 (trim year)
  let m := clamp ((parseI64 (trim monthNum)).getD 1) 1 12
  let d := clamp ((parseI64 (trim day)).getD 1) 1 31
  let a := (14 - m).tdiv 12
  let yy := y + 4800 - a
  let mm := m + 12 * a - 3
  let jdn := d + (153 * mm + 2).tdiv 5 + 365 * yy + yy.tdiv 4 - yy.tdiv 100 + yy.tdiv 400 - 32045
  let secs := (jdn - 2451545) * 86400 - 43200
  return wholeTicks secs

/-- `divmod` and `//` round down. -/
def yearCoord (year : Int) : Int :=
  let y := year - 1
  let era := y / 400
  let yoe := y % 400
  let days := era * 146097 + yoe * 365 + yoe / 4 - yoe / 100 + 306 - 719468
  (days * 86400 - 946728000) * 2 ^ 64 + 2 ^ 255

/-- `Tick::ORIGIN`. -/
def origin : Tick := 0

/-! ## Seconds -/

/-- From noon on 1 January 2000 to the beginning of a day. -/
def secondsOf (number : Int) : Int := (number - 730119) * 86400 - 43200

theorem wholeTicks_eq (n : Int) : wholeTicks n = BitVec.ofInt 256 (n * 2 ^ 64) := by
  have hpow : BitVec.twoPow 256 64 = BitVec.ofInt 256 (2 ^ 64) := by decide
  rw [wholeTicks, BitVec.shiftLeft_eq_mul_twoPow, hpow, BitVec.ofInt_mul]

theorem wholeTicks_add (a b : Int) : wholeTicks a + wholeTicks b = wholeTicks (a + b) := by
  rw [wholeTicks_eq, wholeTicks_eq, wholeTicks_eq, Int.add_mul, BitVec.ofInt_add]

theorem wholeTicks_toInt {n : Int} (h : fitsI64 n) : (wholeTicks n).toInt = n * 2 ^ 64 := by
  unfold fitsI64 at h
  rw [wholeTicks_eq, BitVec.toInt_ofInt]
  exact Int.bmod_eq_of_le (by omega) (by omega)

theorem wholeTicks_lt {a b : Int} (ha : fitsI64 a) (hb : fitsI64 b) :
    (wholeTicks a).toInt < (wholeTicks b).toInt ↔ a < b := by
  rw [wholeTicks_toInt ha, wholeTicks_toInt hb]
  omega

theorem wholeTicks_injective {a b : Int} (ha : fitsI64 a) (hb : fitsI64 b)
    (h : wholeTicks a = wholeTicks b) : a = b := by
  have htoInt := congrArg BitVec.toInt h
  rw [wholeTicks_toInt ha, wholeTicks_toInt hb] at htoInt
  omega

/-- The quotient toward zero is the next one up below zero. -/
theorem tdiv_eq {k : Int} (n : Int) (hk : 0 < k) :
    n.tdiv k = if n < 0 ∧ n % k ≠ 0 then n / k + 1 else n / k := by
  have hsign : k.sign = 1 := Int.sign_eq_one_of_pos hk
  rw [Int.tdiv_eq_ediv, hsign]
  by_cases h : 0 ≤ n ∨ k ∣ n
  · rw [if_pos h, if_neg, Int.add_zero]
    rintro ⟨hneg, hmod⟩
    exact hmod (Int.emod_eq_zero_of_dvd (h.resolve_left (by omega)))
  · rw [not_or] at h
    rw [if_neg (by tauto), if_pos ⟨by omega, fun hmod => h.2 (Int.dvd_of_emod_eq_zero hmod)⟩]

theorem yearTick_eq (y : Int) : yearTick y = wholeTicks (secondsOf (yearStart y)) := by
  have hera : (if 0 ≤ y - 1 then y - 1 else y - 1 - 399).tdiv 400 = (y - 1) / 400 := by
    by_cases hpos : 0 ≤ y - 1
    · rw [if_pos hpos, Int.tdiv_eq_ediv_of_nonneg hpos]
    · rw [if_neg hpos, tdiv_eq _ (by decide)]
      split <;> omega
  unfold yearTick secondsOf yearStart unixToJ2000Secs
  dsimp only
  rw [hera]
  congr 1
  omega

/-- A day of a year, as `entryCoordinate` adds it. -/
theorem yearTick_add_day (t : Date) :
    yearTick t.year + wholeTicks (86400 * (t.dayOfYear - 1)) = wholeTicks (secondsOf t.number) := by
  rw [yearTick_eq, wholeTicks_add]
  congr 1
  unfold secondsOf Date.number
  omega

theorem yearTick_succ (y : Int) :
    yearTick (y + 1) - yearTick y = wholeTicks (86400 * yearLength y) := by
  have hsum : yearTick y + wholeTicks (86400 * yearLength y) = yearTick (y + 1) := by
    rw [yearTick_eq, yearTick_eq, wholeTicks_add, yearStart_succ]
    congr 1
    unfold secondsOf
    omega
  rw [← hsum, BitVec.add_comm, BitVec.add_sub_cancel]

theorem yearCoord_eq (y : Int) : yearCoord y = secondsOf (yearStart y) * 2 ^ 64 + 2 ^ 255 := by
  unfold yearCoord secondsOf yearStart
  dsimp only
  omega

theorem yearCoord_toCanon {y : Int} (h : fitsI64 (secondsOf (yearStart y))) :
    yearCoord y = (yearTick y).toCanon.toNat := by
  rw [Tick.toNat_toCanon, yearTick_eq, wholeTicks_toInt h, yearCoord_eq]

theorem yearStart_lt {x y : Int} : yearStart x < yearStart y ↔ x < y := by
  constructor
  · intro h
    by_contra hle
    exact absurd (yearStart_mono (Int.not_lt.mp hle)) (Int.not_le.mpr h)
  · intro h
    have hnext := yearStart_succ x
    have hmono := yearStart_mono (show x + 1 ≤ y from h)
    unfold yearLength at hnext
    split at hnext <;> omega

/-! ## Texts of numbers -/

theorem isWhitespace_of_digit {c : Char} (h : c.isDigit = true ∨ c = '-') :
    isWhitespace c = false := by
  have hrange : 45 ≤ c.toNat ∧ c.toNat ≤ 57 := by
    rcases h with h | rfl
    · have hdigit : 48 ≤ c.toNat ∧ c.toNat ≤ 57 := Char.isDigit_iff_toNat.mp h
      omega
    · decide
  unfold isWhitespace
  simp
  omega

theorem trim_of_solid {s : Text} (h : ∀ c ∈ s, isWhitespace c = false) : trim s = s :=
  Words.strip_of_none h

theorem digits_toDigits (n : Nat) : digits (Nat.toDigits 10 n) = n := by
  have h := Nat.ofDigitChars_ten_toDigits (n := n)
  exact h

theorem parse_signed {s ds : Text} {negative : Bool} (hs : signed s = (negative, ds))
    (hne : ds ≠ []) (h : ∀ c ∈ ds, c.isDigit = true)
    (hfits : fitsI64 (if negative then -(digits ds) else digits ds)) :
    parseI64 s = some (if negative then -(digits ds : Int) else digits ds) := by
  have hall : (ds.isEmpty || !ds.all Char.isDigit) = false := by
    rw [List.all_eq_true.mpr h, List.isEmpty_eq_false_iff.mpr hne]
    rfl
  unfold parseI64
  rw [hs]
  dsimp only
  rw [hall, if_neg Bool.false_ne_true, if_pos hfits]

theorem signed_digits {ds : Text} (h : ∀ c ∈ ds, c.isDigit = true) : signed ds = (false, ds) := by
  unfold signed
  split
  · exact absurd (h _ List.mem_cons_self) (by decide)
  · exact absurd (h _ List.mem_cons_self) (by decide)
  · rfl

theorem parse_digits {ds : Text} (hne : ds ≠ []) (h : ∀ c ∈ ds, c.isDigit = true)
    (hlt : digits ds < 2 ^ 63) : parseI64 (trim ds) = some (digits ds : Int) := by
  rw [trim_of_solid fun c hc => isWhitespace_of_digit (.inl (h c hc))]
  exact parse_signed (signed_digits h) hne h
    (by unfold fitsI64; rw [if_neg Bool.false_ne_true]; omega)

theorem parse_decimal {n : Int} (h : fitsI64 n) : parseI64 (trim (decimal n)) = some n := by
  have hdigit : ∀ c ∈ Nat.toDigits 10 n.natAbs, c.isDigit = true := fun c hc =>
    Nat.isDigit_of_mem_toDigits (by decide) (by decide) hc
  have hne : Nat.toDigits 10 n.natAbs ≠ [] := Nat.toDigits_ne_nil
  have hvalue := digits_toDigits n.natAbs
  unfold decimal
  unfold fitsI64 at h
  by_cases hneg : n < 0
  · have habs : (-(n.natAbs : Int)) = n := by omega
    have hsigned : signed ('-' :: Nat.toDigits 10 n.natAbs) = (true, Nat.toDigits 10 n.natAbs) :=
        rfl
    rw [if_pos hneg, trim_of_solid, parse_signed hsigned hne hdigit, if_pos rfl, hvalue, habs]
    · rw [if_pos rfl, hvalue, habs]
      exact h
    · intro c hc
      rcases List.mem_cons.mp hc with rfl | hc
      · exact isWhitespace_of_digit (.inr rfl)
      · exact isWhitespace_of_digit (.inl (hdigit c hc))
  · rw [if_neg hneg, parse_digits hne hdigit (by omega), hvalue]
    congr 1
    omega

/-! ## The date of a legacy row -/

/-- A year that begins in March, before -4800, and has no leap day. -/
def Late (t : Date) : Prop := t.marchYear < -4800 ∧ ¬ Leap t.marchYear

instance (t : Date) : Decidable (Late t) := inferInstanceAs (Decidable (_ ∧ _))

/-- The sum of the three quotients, rounded toward zero. -/
theorem quotients_eq (y : Int) :
    (y + 4800).tdiv 4 - (y + 4800).tdiv 100 + (y + 4800).tdiv 400 =
      y / 4 - y / 100 + y / 400 + 1164 + if y < -4800 ∧ ¬ Leap y then 1 else 0 := by
  rw [tdiv_eq _ (by decide), tdiv_eq _ (by decide), tdiv_eq _ (by decide)]
  unfold Leap
  by_cases hneg : y < -4800
  · by_cases h4 : (y + 4800) % 4 = 0
    · by_cases h100 : (y + 4800) % 100 = 0
      · split <;> split <;> split <;> split <;> omega
      · split <;> split <;> split <;> split <;> omega
    · split <;> split <;> split <;> split <;> omega
  · split <;> split <;> split <;> split <;> omega

def dayLate (t : Date) : Int := if Late t then 1 else 0

/-- What the code computes of a date. -/
theorem v1Coordinate_eq {year monthNum day : Text} {t : Date}
    (hy : parseI64 (trim year) = some t.year) (hm : parseI64 (trim monthNum) = some t.month)
    (hd : parseI64 (trim day) = some t.day) :
    v1Coordinate year monthNum day = some (wholeTicks (secondsOf (t.number + dayLate t))) := by
  have hmonth := t.month_mem
  have hday := t.day_mem
  have hlength := monthLength_le t.year t.month
  have hclampm : clamp t.month 1 12 = t.month := by
    rw [clamp, if_neg (by omega), if_neg (by omega)]
  have hclampd : clamp t.day 1 31 = t.day := by
    rw [clamp, if_neg (by omega), if_neg (by omega)]
  have ha : t.year + 4800 - (14 - t.month).tdiv 12 = t.marchYear + 4800 := by
    unfold Date.marchYear
    rw [tdiv_eq _ (by decide)]
    split <;> split <;> omega
  have hmm : t.month + 12 * (14 - t.month).tdiv 12 - 3 = (t.month + 9) % 12 := by
    rw [tdiv_eq _ (by decide)]
    split <;> omega
  have hmdays : (153 * ((t.month + 9) % 12) + 2).tdiv 5 = (153 * ((t.month + 9) % 12) + 2) / 5 :=
    Int.tdiv_eq_ediv_of_nonneg (by omega)
  have hquotients : _ = _ + dayLate t := quotients_eq t.marchYear
  have hnumber := t.number_march
  unfold v1Coordinate
  rw [hy, hm, hd]
  simp only [Option.bind_eq_bind, Option.bind_some, Option.getD_some, hclampm, hclampd, ha, hmm,
    hmdays, Option.pure_def]
  congr 2
  unfold secondsOf
  omega

theorem fitsI64_year {t : Date} (h : fitsI64 (secondsOf t.number)) : fitsI64 t.year := by
  have hday := t.dayOfYear_mem
  have hlength := yearLength_le t.year
  unfold fitsI64 secondsOf Date.number yearStart at h
  unfold fitsI64
  omega

theorem fitsI64_dayLate {t : Date} (h : fitsI64 (secondsOf t.number)) :
    fitsI64 (secondsOf (t.number + dayLate t)) := by
  by_cases hlate : Late t
  · have hnumber := t.number_march
    have hmonth := t.month_mem
    have hday := t.dayOfYear_mem
    have hbefore := hlate.1
    rw [dayLate, if_pos hlate]
    have hearly : t.number < 0 := by
      have hmono := yearStart_mono (show t.year ≤ -4799 by
        unfold Date.marchYear at hbefore
        split at hbefore <;> omega)
      have hlength := yearLength_le t.year
      have hstart : yearStart (-4799) < -366 := by decide
      unfold Date.number
      omega
    unfold fitsI64 secondsOf at *
    omega
  · rw [dayLate, if_neg hlate, Int.add_zero]
    exact h

theorem v1Coordinate_decimal {t : Date} (h : fitsI64 (secondsOf t.number)) :
    v1Coordinate (decimal t.year) (decimal t.month) (decimal t.day) =
      some (wholeTicks (secondsOf (t.number + dayLate t))) := by
  have hmonth := t.month_mem
  have hday := t.day_mem
  have hlength := monthLength_le t.year t.month
  exact v1Coordinate_eq (parse_decimal (fitsI64_year h))
    (parse_decimal (by unfold fitsI64; omega)) (parse_decimal (by unfold fitsI64; omega))

/-- The coordinate is that of the day of the year, unless it is late. -/
theorem v1Coordinate_iff {t : Date} (h : fitsI64 (secondsOf t.number)) :
    v1Coordinate (decimal t.year) (decimal t.month) (decimal t.day) =
      some (yearTick t.year + wholeTicks (86400 * (t.dayOfYear - 1))) ↔ ¬ Late t := by
  rw [v1Coordinate_decimal h, yearTick_add_day, Option.some_inj]
  constructor
  · intro heq hlate
    have hseconds := wholeTicks_injective (fitsI64_dayLate h) h heq
    rw [dayLate, if_pos hlate] at hseconds
    unfold secondsOf at hseconds
    omega
  · intro hlate
    rw [dayLate, if_neg hlate, Int.add_zero]

/-- A late day has the coordinate of the day after it. -/
theorem v1Coordinate_lt {t u : Date} {a b : Tick} (ht : fitsI64 (secondsOf t.number))
    (hu : fitsI64 (secondsOf u.number))
    (ha : v1Coordinate (decimal t.year) (decimal t.month) (decimal t.day) = some a)
    (hb : v1Coordinate (decimal u.year) (decimal u.month) (decimal u.day) = some b)
    (hbefore : t.Before u) :
    a.toInt < b.toInt ↔ ¬ (Late t ∧ ¬ Late u ∧ u.number = t.number + 1) := by
  rw [v1Coordinate_decimal ht, Option.some_inj] at ha
  rw [v1Coordinate_decimal hu, Option.some_inj] at hb
  have hnumber := Date.number_lt hbefore
  rw [← ha, ← hb, wholeTicks_lt (fitsI64_dayLate ht) (fitsI64_dayLate hu)]
  unfold secondsOf dayLate
  by_cases hlate : Late t
  · by_cases hlate' : Late u
    · simp only [hlate, hlate', if_true, not_true_eq_false, false_and, and_false,
        not_false_eq_true, iff_true]
      omega
    · simp only [hlate, hlate', if_true, if_false, not_false_eq_true, true_and]
      omega
  · simp only [hlate, if_false, false_and, not_false_eq_true, iff_true]
    by_cases hlate' : Late u
    · rw [if_pos hlate']
      omega
    · rw [if_neg hlate']
      omega

/-! ## The date of an entry -/

theorem daysOf_length (leap : Bool) : (daysOf leap).length = 12 := by cases leap <;> rfl

/-- The table of the source is that of the months. -/
theorem daysOf_month {y : Int} {leap : Bool} (h : leap = true ↔ Leap y) {m : Nat} (h1 : 1 ≤ m)
    (h12 : m ≤ 12) : ((daysOf leap).getD (m - 1) 0 : Int) = monthLength y m ∧
      (((daysOf leap).take (m - 1)).sum : Int) = monthStart y m := by
  have hcases : m = 1 ∨ m = 2 ∨ m = 3 ∨ m = 4 ∨ m = 5 ∨ m = 6 ∨ m = 7 ∨ m = 8 ∨ m = 9 ∨ m = 10 ∨
      m = 11 ∨ m = 12 := by omega
  cases leap with
  | false =>
    have hleap : ¬ Leap y := fun hl => Bool.false_ne_true (h.mpr hl)
    rcases hcases with rfl | rfl | rfl | rfl | rfl | rfl | rfl | rfl | rfl | rfl | rfl | rfl <;>
      simp [daysOf, monthStart, monthLength, hleap, List.range, List.range.loop]
  | true =>
    have hleap : Leap y := h.mp rfl
    rcases hcases with rfl | rfl | rfl | rfl | rfl | rfl | rfl | rfl | rfl | rfl | rfl | rfl <;>
      simp [daysOf, monthStart, monthLength, hleap, List.range, List.range.loop]

theorem dayTick_ok {year : Int} {date : Text} {tick : Tick} (h : dayTick year date = .ok tick) :
    ∃ t : Date, parseI64 (trim (date.take 4)) = some t.year ∧
      parseI64 (trim ((date.drop 5).take 2)) = some t.month ∧
      parseI64 (trim (date.drop 8)) = some t.day ∧ 1 ≤ t.year ∧ t.year ≤ 2100 ∧
      tick = yearTick t.year + wholeTicks (86400 * (t.dayOfYear - 1)) := by
  simp only [dayTick, bind_ok, ensure_ok, Bool.and_eq_true, decide_eq_true_eq] at h
  obtain ⟨_, ⟨⟨⟨hlen, -⟩, -⟩, hall⟩, _, ⟨⟨hyear, hy1⟩, hy⟩, _, hmonth, _, hday, h⟩ := h
  obtain rfl := Except.ok.inj h
  have hdigit : ∀ c ∈ date.take 4 ++ (date.drop 5).take 2 ++ date.drop 8, c.isDigit = true :=
    List.all_eq_true.mp hall
  have hy_ne : date.take 4 ≠ [] := List.ne_nil_of_length_pos (by rw [List.length_take]; omega)
  have hm_ne : (date.drop 5).take 2 ≠ [] :=
    List.ne_nil_of_length_pos (by rw [List.length_take, List.length_drop]; omega)
  have hd_ne : date.drop 8 ≠ [] := List.ne_nil_of_length_pos (by rw [List.length_drop]; omega)
  have hmax : ∀ leap m, (daysOf leap).getD m 0 ≤ 31 := by
    intro leap m
    rw [List.getD_eq_getElem?_getD]
    by_cases hm : m < 12
    · cases leap <;> (revert m; decide)
    · rw [List.getElem?_eq_none (by rw [daysOf_length]; omega)]
      decide
  have hparse_y := parse_digits hy_ne (fun c hc => hdigit c
    (List.mem_append_left _ (List.mem_append_left _ hc))) (by omega)
  have hparse_m := parse_digits hm_ne (fun c hc => hdigit c
    (List.mem_append_left _ (List.mem_append_right _ hc))) (by omega)
  have hparse_d := parse_digits hd_ne (fun c hc => hdigit c (List.mem_append_right _ hc)) (by
    have := hmax _ _ |>.trans' hday.2
    omega)
  generalize digits (date.take 4) = y at *
  generalize digits ((date.drop 5).take 2) = m at *
  generalize digits (date.drop 8) = d at *
  have hleap : (decide (y % 4 = 0) && (decide (y % 100 ≠ 0) || decide (y % 400 = 0))) = true ↔
      Leap (y : Int) := by
    rw [Bool.and_eq_true, Bool.or_eq_true, decide_eq_true_eq, decide_eq_true_eq, decide_eq_true_eq]
    unfold Leap
    omega
  obtain ⟨hlength, hstart⟩ := daysOf_month hleap hmonth.1 hmonth.2
  refine ⟨⟨y, m, d, by omega, by omega⟩, hparse_y, hparse_m, hparse_d, ?_, ?_, ?_⟩
  · dsimp only
    omega
  · dsimp only
    omega
  · unfold Date.dayOfYear
    dsimp only
    rw [← hstart, hyear]
    congr 2
    omega

theorem entryCoordinate_dated {entry date : Value} {tick : Tick}
    (hdate : (entry.get "prov_asserted").get? "event_date" = some date)
    (h : entryCoordinate entry = .ok tick) :
    ∃ year text, (entry.get "year").asI64 = some year ∧ date.asStr = some text ∧
      dayTick year text.toList = .ok tick := by
  simp only [entryCoordinate, bind_ok] at h
  obtain ⟨year, hyear, h⟩ := h
  rw [hdate] at h
  simp only [bind_ok] at h
  obtain ⟨_, -, text, htext, h⟩ := h
  exact ⟨year, text, context_ok.mp hyear, context_ok.mp htext, h⟩

/-! ## The conversions agree -/

theorem not_late {t : Date} (h : 1 ≤ t.year) : ¬ Late t := by
  intro hlate
  have hbefore := hlate.1
  unfold Date.marchYear at hbefore
  split at hbefore <;> omega

theorem fitsI64_recent {t : Date} (h1 : 1 ≤ t.year) (h2 : t.year ≤ 2100) :
    fitsI64 (secondsOf t.number) := by
  have hday := t.dayOfYear_mem
  have hlength := yearLength_le t.year
  unfold fitsI64 secondsOf Date.number yearStart
  omega

/-- A dated entry has the coordinate of its date, read from the date's own digits or written
anew. -/
theorem entryCoordinate_date {entry date : Value} {tick : Tick}
    (hdate : (entry.get "prov_asserted").get? "event_date" = some date)
    (h : entryCoordinate entry = .ok tick) : ∃ text t, date.asStr = some text ∧
      fitsI64 (secondsOf t.number) ∧ ¬ Late t ∧
      v1Coordinate (text.toList.take 4) ((text.toList.drop 5).take 2) (text.toList.drop 8) =
        some tick ∧
      v1Coordinate (decimal t.year) (decimal t.month) (decimal t.day) = some tick := by
  obtain ⟨year, text, -, htext, hday⟩ := entryCoordinate_dated hdate h
  obtain ⟨t, hy, hm, hd, h1, h2, htick⟩ := dayTick_ok hday
  have hfits := fitsI64_recent h1 h2
  have hlate := not_late h1
  have hdecimal := (v1Coordinate_iff hfits).mpr hlate
  rw [← htick] at hdecimal
  refine ⟨text, t, htext, hfits, hlate, ?_, hdecimal⟩
  rw [v1Coordinate_eq hy hm hd, ← v1Coordinate_decimal hfits, hdecimal]

/-- Every conversion gives the days of the calendar, except that a legacy row's date is a day late
in the common March years before -4800, and there meets the date after it. -/
theorem calendars_agree_iff (t : Date) :
    (fitsI64 (secondsOf t.number) →
      (v1Coordinate (decimal t.year) (decimal t.month) (decimal t.day) =
        some (yearTick t.year + wholeTicks (86400 * (t.dayOfYear - 1))) ↔ ¬ Late t)) ∧
    (∀ y, fitsI64 (secondsOf (yearStart y)) → yearCoord y = (yearTick y).toCanon.toNat) ∧
    (∀ (entry date : Value) (tick : Tick),
      (entry.get "prov_asserted").get? "event_date" = some date →
      entryCoordinate entry = .ok tick → ∃ text t, date.asStr = some text ∧
        fitsI64 (secondsOf t.number) ∧ ¬ Late t ∧
        v1Coordinate (text.toList.take 4) ((text.toList.drop 5).take 2) (text.toList.drop 8) =
          some tick ∧
        v1Coordinate (decimal t.year) (decimal t.month) (decimal t.day) = some tick) ∧
    (∀ y, yearTick (y + 1) - yearTick y = wholeTicks (86400 * if Leap y then 366 else 365)) ∧
    yearTick 2000 = origin - wholeTicks 43200 ∧
    (∀ y z, y < z → yearCoord y < yearCoord z) ∧
    (∀ y z, fitsI64 (secondsOf (yearStart y)) → fitsI64 (secondsOf (yearStart z)) → y < z →
      (yearTick y).toInt < (yearTick z).toInt) ∧
    ∀ (u : Date) (a b : Tick), fitsI64 (secondsOf t.number) → fitsI64 (secondsOf u.number) →
      v1Coordinate (decimal t.year) (decimal t.month) (decimal t.day) = some a →
      v1Coordinate (decimal u.year) (decimal u.month) (decimal u.day) = some b →
      t.Before u → (a.toInt < b.toInt ↔ ¬ (Late t ∧ ¬ Late u ∧ u.number = t.number + 1)) := by
  refine ⟨fun h => v1Coordinate_iff h, fun y h => yearCoord_toCanon h,
    fun entry date tick hdate h => entryCoordinate_date hdate h, yearTick_succ, by decide, ?_, ?_,
    fun u a b ht hu ha hb hbefore => v1Coordinate_lt ht hu ha hb hbefore⟩
  · intro y z h
    have hstart := yearStart_lt.mpr h
    rw [yearCoord_eq, yearCoord_eq]
    unfold secondsOf
    omega
  · intro y z hy hz h
    have hstart := yearStart_lt.mpr h
    rw [yearTick_eq, yearTick_eq, wholeTicks_lt hy hz]
    unfold secondsOf
    omega

namespace Dates

def march1 : Date := ⟨-4801, 3, 1, by decide, by decide⟩
def leapDay : Date := ⟨-4800, 2, 29, by decide, by decide⟩
def nextDay : Date := ⟨-4800, 3, 1, by decide, by decide⟩

def entry : Value := .obj [("year", .int 1969), ("prov_asserted", .obj [
  ("event_date", .str "1969-07-20"), ("date_precision", .str "day")])]

end Dates

open Dates

/-- 1 March -4801 gets the coordinate of 2 March, and 29 February -4800 that of 1 March. -/
theorem march1_late :
    v1Coordinate "-4801".toList "3".toList "1".toList ≠
      some (yearTick (-4801) + wholeTicks (86400 * (march1.dayOfYear - 1))) ∧
    v1Coordinate "-4801".toList "3".toList "1".toList =
      some (yearTick (-4801) + wholeTicks (86400 * march1.dayOfYear)) ∧
    leapDay.Before nextDay ∧
    v1Coordinate "-4800".toList "2".toList "29".toList =
      v1Coordinate "-4800".toList "3".toList "1".toList := by
  decide

/-- The conversions at a day of 1969, at the year 0, and around the leap day of -4800. -/
theorem calendars_agree_iff_apollo :
    (v1Coordinate (decimal march1.year) (decimal march1.month) (decimal march1.day) =
      some (yearTick march1.year + wholeTicks (86400 * (march1.dayOfYear - 1))) ↔ ¬ Late march1) ∧
    yearCoord 0 = (yearTick 0).toCanon.toNat ∧
    (∃ tick, entryCoordinate entry = .ok tick ∧
      v1Coordinate "1969".toList "07".toList "20".toList = some tick) ∧
    (yearTick (-1)).toInt < (yearTick 0).toInt := by
  obtain ⟨hday, hyear, hentry, -, -, -, hmono, -⟩ := calendars_agree_iff march1
  refine ⟨hday (by decide), hyear 0 (by decide), ?_, hmono _ _ (by decide) (by decide)
    (by decide)⟩
  have hok : ∃ tick, entryCoordinate entry = .ok tick := ⟨_, rfl⟩
  obtain ⟨tick, hok⟩ := hok
  obtain ⟨text, t, htext, -, -, htick, -⟩ := hentry entry (.str "1969-07-20") tick rfl hok
  obtain rfl := Option.some.inj htext
  exact ⟨tick, hok, htick⟩

end Clockchain.V0.Migrator
