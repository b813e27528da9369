import Mathlib.Algebra.Order.Ring.Int
import Mathlib.Algebra.BigOperators.Group.List.Basic

/-!
# The Gregorian calendar

Dates of the proleptic Gregorian calendar, in which year 0 exists, and their numbers, the days since
1 January of year 1. The count by years that begin in March has a closed form, and so has its
inverse.
-/

namespace Calendar
set_option autoImplicit false

/-! ## Dates -/

def Leap (y : Int) : Prop := y % 4 = 0 ∧ (y % 100 ≠ 0 ∨ y % 400 = 0)

instance (y : Int) : Decidable (Leap y) := inferInstanceAs (Decidable (_ ∧ _))

def yearLength (y : Int) : Int := if Leap y then 366 else 365

def monthLength (y m : Int) : Int :=
  if m = 2 then if Leap y then 29 else 28
  else if m = 4 ∨ m = 6 ∨ m = 9 ∨ m = 11 then 30
  else 31

structure Date where
  year : Int
  month : Int
  day : Int
  month_mem : 1 ≤ month ∧ month ≤ 12
  day_mem : 1 ≤ day ∧ day ≤ monthLength year month
  deriving DecidableEq

/-- The days before 1 January. -/
def yearStart (y : Int) : Int := 365 * (y - 1) + (y - 1) / 4 - (y - 1) / 100 + (y - 1) / 400

/-- The days of the year before a month. -/
def monthStart (y m : Int) : Int :=
  ((List.range (m - 1).toNat).map fun i => monthLength y (i + 1)).sum

namespace Date

def dayOfYear (t : Date) : Int := monthStart t.year t.month + t.day

def number (t : Date) : Int := yearStart t.year + t.dayOfYear - 1

def Before (t u : Date) : Prop :=
  t.year < u.year ∨ t.year = u.year ∧ (t.month < u.month ∨ t.month = u.month ∧ t.day < u.day)

instance (t u : Date) : Decidable (t.Before u) := inferInstanceAs (Decidable (_ ∨ _))

end Date

/-- The date with a number: eras of 400 years, and years from March on. -/
def civil (n : Int) : Int × Int × Int :=
  let z := n + 306
  let era := z / 146097
  let doe := z - era * 146097
  let yoe := (doe - doe / 1460 + doe / 36524 - doe / 146096) / 365
  let doy := doe - (365 * yoe + yoe / 4 - yoe / 100)
  let mp := (5 * doy + 2) / 153
  let d := doy - (153 * mp + 2) / 5 + 1
  let m := if mp < 10 then mp + 3 else mp - 9
  (yoe + era * 400 + (if m ≤ 2 then 1 else 0), m, d)

/-! ## Years and months -/

theorem yearLength_le (y : Int) : yearLength y ≤ 366 := by
  unfold yearLength
  split <;> decide

theorem monthLength_le (y m : Int) : monthLength y m ≤ 31 := by
  unfold monthLength
  split
  · split <;> decide
  · split <;> decide

theorem yearStart_succ (y : Int) : yearStart (y + 1) = yearStart y + yearLength y := by
  unfold yearStart yearLength
  rw [Int.add_sub_cancel]
  by_cases hleap : Leap y
  · rw [if_pos hleap]
    unfold Leap at hleap
    omega
  · rw [if_neg hleap]
    unfold Leap at hleap
    omega

theorem yearStart_mono {x y : Int} (h : x ≤ y) : yearStart x ≤ yearStart y := by
  unfold yearStart
  omega

theorem monthStart_eq {m : Int} (y : Int) (h : 1 ≤ m ∧ m ≤ 12) : monthStart y m =
    if m ≤ 2 then 31 * (m - 1)
    else (153 * (m - 3) + 2) / 5 + 59 + (if Leap y then 1 else 0) := by
  have hcases : m = 1 ∨ m = 2 ∨ m = 3 ∨ m = 4 ∨ m = 5 ∨ m = 6 ∨ m = 7 ∨ m = 8 ∨ m = 9 ∨ m = 10 ∨
      m = 11 ∨ m = 12 := by omega
  by_cases hleap : Leap y
  · rcases hcases with rfl | rfl | rfl | rfl | rfl | rfl | rfl | rfl | rfl | rfl | rfl | rfl <;>
      simp [monthStart, monthLength, hleap, List.range, List.range.loop]
  · rcases hcases with rfl | rfl | rfl | rfl | rfl | rfl | rfl | rfl | rfl | rfl | rfl | rfl <;>
      simp [monthStart, monthLength, hleap, List.range, List.range.loop]

theorem monthLength_cases {m : Int} (y : Int) (h : 1 ≤ m ∧ m ≤ 12) :
    (m = 2 ∧ monthLength y m = if Leap y then 29 else 28) ∨
      ((m = 4 ∨ m = 6 ∨ m = 9 ∨ m = 11) ∧ monthLength y m = 30) ∨
      ((m = 1 ∨ m = 3 ∨ m = 5 ∨ m = 7 ∨ m = 8 ∨ m = 10 ∨ m = 12) ∧ monthLength y m = 31) := by
  unfold monthLength
  by_cases htwo : m = 2
  · rw [if_pos htwo]
    exact .inl ⟨htwo, rfl⟩
  · rw [if_neg htwo]
    by_cases hthirty : m = 4 ∨ m = 6 ∨ m = 9 ∨ m = 11
    · rw [if_pos hthirty]
      exact .inr (.inl ⟨hthirty, rfl⟩)
    · rw [if_neg hthirty]
      exact .inr (.inr ⟨by omega, rfl⟩)

/-- A month ends where the next one begins, or with the year. -/
theorem monthStart_le {m m' : Int} (y : Int) (h : 1 ≤ m) (h' : m' ≤ 12) (hlt : m < m') :
    monthStart y m + monthLength y m ≤ monthStart y m' := by
  have hm : 1 ≤ m ∧ m ≤ 12 := by omega
  have hm' : 1 ≤ m' ∧ m' ≤ 12 := by omega
  rw [monthStart_eq y hm, monthStart_eq y hm']
  rcases monthLength_cases y hm with ⟨hcase, hlength⟩ | ⟨hcase, hlength⟩ | ⟨hcase, hlength⟩ <;>
    rw [hlength] <;> split <;> split <;> omega

theorem monthStart_le_year {m : Int} (y : Int) (h : 1 ≤ m ∧ m ≤ 12) :
    0 ≤ monthStart y m ∧ monthStart y m + monthLength y m ≤ yearLength y := by
  rw [monthStart_eq y h]
  unfold yearLength
  rcases monthLength_cases y h with ⟨hcase, hlength⟩ | ⟨hcase, hlength⟩ | ⟨hcase, hlength⟩ <;>
    rw [hlength] <;> split <;> split <;> omega

namespace Date

theorem dayOfYear_mem (t : Date) : 1 ≤ t.dayOfYear ∧ t.dayOfYear ≤ yearLength t.year := by
  have hmonth := monthStart_le_year t.year t.month_mem
  have hday := t.day_mem
  unfold dayOfYear
  omega

/-! ## Numbers in the order of the dates -/

theorem number_lt {t u : Date} (h : t.Before u) : t.number < u.number := by
  have ht := t.dayOfYear_mem
  have hu := u.dayOfYear_mem
  unfold number
  rcases h with hyear | ⟨hyear, hmonth⟩
  · have hnext := yearStart_succ t.year
    have hmono := yearStart_mono (show t.year + 1 ≤ u.year from hyear)
    omega
  · unfold dayOfYear
    have hday := t.day_mem
    have hday' := u.day_mem
    rw [hyear] at hday ⊢
    rcases hmonth with hmonth | ⟨hmonth, hless⟩
    · have hle := monthStart_le u.year t.month_mem.1 u.month_mem.2 hmonth
      omega
    · rw [hmonth]
      omega

theorem eq_or_before (t u : Date) : t = u ∨ t.Before u ∨ u.Before t := by
  obtain ⟨y, m, d, hm, hd⟩ := t
  obtain ⟨y', m', d', hm', hd'⟩ := u
  by_cases h : y = y' ∧ m = m' ∧ d = d'
  · obtain ⟨rfl, rfl, rfl⟩ := h
    exact .inl rfl
  · right
    unfold Before
    dsimp only
    omega

theorem number_lt_iff (t u : Date) : t.number < u.number ↔ t.Before u := by
  refine ⟨fun h => ?_, number_lt⟩
  rcases eq_or_before t u with rfl | hbefore | hbefore
  · exact absurd h (lt_irrefl _)
  · exact hbefore
  · exact absurd (number_lt hbefore) (by omega)

theorem number_injective {t u : Date} (h : t.number = u.number) : t = u := by
  rcases eq_or_before t u with heq | hbefore | hbefore
  · exact heq
  · exact absurd (number_lt hbefore) (by omega)
  · exact absurd (number_lt hbefore) (by omega)

/-! ## Years from March on -/

/-- The year that began in March. -/
def marchYear (t : Date) : Int := if t.month ≤ 2 then t.year - 1 else t.year

theorem number_march (t : Date) : t.number = 365 * t.marchYear + t.marchYear / 4 -
    t.marchYear / 100 + t.marchYear / 400 + (153 * ((t.month + 9) % 12) + 2) / 5 + t.day - 307 := by
  have hmonth := t.month_mem
  unfold number dayOfYear marchYear
  rw [monthStart_eq t.year t.month_mem]
  by_cases htwo : t.month ≤ 2
  · rw [if_pos htwo, if_pos htwo]
    unfold yearStart
    omega
  · rw [if_neg htwo, if_neg htwo]
    unfold yearStart
    by_cases hleap : Leap t.year
    · rw [if_pos hleap]
      unfold Leap at hleap
      omega
    · rw [if_neg hleap]
      unfold Leap at hleap
      omega

end Date

/-! ## The inverse -/

/-- A quotient that is capped at three. -/
theorem capped (k n : Int) (hk : 0 < k) (h0 : 0 ≤ n) (h1 : n ≤ 4 * k) :
    ∃ c r, n = k * c + r ∧ 0 ≤ c ∧ c ≤ 3 ∧ 0 ≤ r ∧ (r < k ∨ (r = k ∧ c = 3)) := by
  by_cases h : n = 4 * k
  · exact ⟨3, k, by omega, by omega, by omega, by omega, .inr ⟨rfl, rfl⟩⟩
  · refine ⟨n / k, n % k, (Int.mul_ediv_add_emod n k).symm, Int.ediv_nonneg h0 hk.le, ?_,
      Int.emod_nonneg n hk.ne', .inl (Int.emod_lt_of_pos n hk)⟩
    have : n / k < 4 := Int.ediv_lt_of_lt_mul hk (by omega)
    omega

/-- The year of an era that a day is in. -/
theorem yearOfEra_spec {doe : Int} (h0 : 0 ≤ doe) (h1 : doe ≤ 146096) :
    ∃ yoe, (doe - doe / 1460 + doe / 36524 - doe / 146096) / 365 = yoe ∧ 0 ≤ yoe ∧ yoe ≤ 399 ∧
      365 * yoe + yoe / 4 - yoe / 100 ≤ doe ∧
      doe < 365 * (yoe + 1) + (yoe + 1) / 4 - (yoe + 1) / 100 + (yoe + 1) / 400 := by
  -- Centuries, blocks of four years, years; the last one of each can be a day longer.
  obtain ⟨c, r, rfl, hc0, hc3, hr0, hr⟩ := capped 36524 doe (by decide) h0 h1
  obtain ⟨q, t, rfl, hq0, hq, ht0, ht⟩ :
      ∃ q t, r = 1461 * q + t ∧ 0 ≤ q ∧ q ≤ 24 ∧ 0 ≤ t ∧ t ≤ 1460 :=
    ⟨r / 1461, r % 1461, by omega, by omega, by omega, by omega, by omega⟩
  obtain ⟨s, d, rfl, hs0, hs3, hd0, hd⟩ := capped 365 t (by decide) ht0 ht
  refine ⟨100 * c + 4 * q + s, ?_, by omega, by omega, ?_, ?_⟩
  · obtain rfl | rfl | rfl | rfl : c = 0 ∨ c = 1 ∨ c = 2 ∨ c = 3 := by omega
    all_goals
      obtain rfl | rfl | rfl | rfl : s = 0 ∨ s = 1 ∨ s = 2 ∨ s = 3 := by omega
      all_goals omega
  · have h4 : (100 * c + 4 * q + s) / 4 = 25 * c + q := by omega
    have h100 : (100 * c + 4 * q + s) / 100 = c := by omega
    omega
  · by_cases hlast : q = 24 ∧ s = 3
    · obtain ⟨rfl, rfl⟩ := hlast
      omega
    · have h100 : (100 * c + 4 * q + s + 1) / 100 = c := by omega
      have h400 : (100 * c + 4 * q + s + 1) / 400 = 0 := by omega
      obtain rfl | hs : s = 3 ∨ s ≤ 2 := by omega
      · omega
      · have h4 : (100 * c + 4 * q + s + 1) / 4 = 25 * c + q := by omega
        omega

/-- A day of a year that begins in March, as a day of a month. -/
theorem dayOfMarchYear_spec {y doy : Int} (h0 : 0 ≤ doy) (h1 : doy ≤ 365)
    (h2 : doy = 365 → Leap (y + 1)) :
    ∃ t : Date, t.marchYear = y ∧ (153 * ((t.month + 9) % 12) + 2) / 5 + t.day - 1 = doy ∧
      t.month = (if (5 * doy + 2) / 153 < 10 then (5 * doy + 2) / 153 + 3
        else (5 * doy + 2) / 153 - 9) ∧
      t.day = doy - (153 * ((5 * doy + 2) / 153) + 2) / 5 + 1 ∧
      t.year = y + (if t.month ≤ 2 then 1 else 0) := by
  obtain ⟨mp, hmp⟩ : ∃ mp, (5 * doy + 2) / 153 = mp := ⟨_, rfl⟩
  have hbounds : 0 ≤ mp ∧ mp ≤ 11 := by omega
  rw [hmp]
  by_cases hten : mp < 10
  · rw [if_pos hten]
    have hmonth : 1 ≤ mp + 3 ∧ mp + 3 ≤ 12 := by omega
    have hlength : doy - (153 * mp + 2) / 5 + 1 ≤ monthLength y (mp + 3) := by
      rcases monthLength_cases y hmonth with ⟨hcase, hlength⟩ | ⟨hcase, hlength⟩ |
        ⟨hcase, hlength⟩ <;> rw [hlength] <;> omega
    refine ⟨⟨y, mp + 3, doy - (153 * mp + 2) / 5 + 1, hmonth, by omega, hlength⟩, ?_, ?_, rfl,
      rfl, ?_⟩
    · exact if_neg (by dsimp only; omega)
    · dsimp only
      have hmod : (mp + 3 + 9) % 12 = mp := by omega
      rw [hmod]
      omega
    · rw [if_neg (by dsimp only; omega)]
      dsimp only
      omega
  · rw [if_neg hten]
    have hmonth : 1 ≤ mp - 9 ∧ mp - 9 ≤ 12 := by omega
    have hlength : doy - (153 * mp + 2) / 5 + 1 ≤ monthLength (y + 1) (mp - 9) := by
      rcases monthLength_cases (y + 1) hmonth with ⟨hcase, hlength⟩ | ⟨hcase, hlength⟩ |
        ⟨hcase, hlength⟩
      · rw [hlength]
        by_cases hleap : Leap (y + 1)
        · rw [if_pos hleap]
          omega
        · rw [if_neg hleap]
          have hne : doy ≠ 365 := fun heq => hleap (h2 heq)
          omega
      · omega
      · rw [hlength]
        omega
    refine ⟨⟨y + 1, mp - 9, doy - (153 * mp + 2) / 5 + 1, hmonth, by omega, hlength⟩, ?_, ?_,
      rfl, rfl, ?_⟩
    · refine (if_pos (by dsimp only; omega)).trans ?_
      dsimp only
      omega
    · dsimp only
      have hmod : (mp - 9 + 9) % 12 = mp := by omega
      rw [hmod]
      omega
    · rw [if_pos (by dsimp only; omega)]

/-- Only a leap year has a last day to spare. -/
theorem leap_of_last {yoe : Int} (era : Int) (h0 : 0 ≤ yoe) (h1 : yoe ≤ 399)
    (h : yoe / 4 - yoe / 100 < (yoe + 1) / 4 - (yoe + 1) / 100 + (yoe + 1) / 400) :
    Leap (yoe + era * 400 + 1) := by
  have h4 : (yoe + 1) % 4 = 0 := by
    by_contra hne
    have : (yoe + 1) / 4 = yoe / 4 := by omega
    have : (yoe + 1) / 400 = 0 := by omega
    omega
  by_cases h100 : (yoe + 1) % 100 = 0
  · have : (yoe + 1) / 4 = yoe / 4 + 1 := by omega
    have : (yoe + 1) / 100 = yoe / 100 + 1 := by omega
    exact ⟨by omega, .inr (by omega)⟩
  · exact ⟨by omega, .inl (by omega)⟩

/-- Every number is that of a date, and it is the one computed. -/
theorem civil_spec (n : Int) :
    ∃ t : Date, t.number = n ∧ civil n = (t.year, t.month, t.day) := by
  obtain ⟨era, hera⟩ : ∃ era, (n + 306) / 146097 = era := ⟨_, rfl⟩
  obtain ⟨doe, hdoe⟩ : ∃ doe, n + 306 - era * 146097 = doe := ⟨_, rfl⟩
  obtain ⟨yoe, hyoe, h0, h1, hstart, hend⟩ :=
    yearOfEra_spec (show 0 ≤ doe by omega) (by omega)
  obtain ⟨doy, hdoy⟩ : ∃ doy, doe - (365 * yoe + yoe / 4 - yoe / 100) = doy := ⟨_, rfl⟩
  have hle : doy ≤ 365 := by omega
  have hleap : doy = 365 → Leap (yoe + era * 400 + 1) := by
    intro hlast
    exact leap_of_last era h0 h1 (by omega)
  obtain ⟨t, hyear, hday, hmonth', hday', hyear'⟩ :=
    dayOfMarchYear_spec (y := yoe + era * 400) (by omega) hle hleap
  refine ⟨t, ?_, ?_⟩
  · have h4 : (yoe + era * 400) / 4 = yoe / 4 + 100 * era := by omega
    have h100 : (yoe + era * 400) / 100 = yoe / 100 + 4 * era := by omega
    have h400 : (yoe + era * 400) / 400 = era := by omega
    rw [t.number_march, hyear, h4, h100, h400]
    omega
  · unfold civil
    dsimp only
    rw [hera, hdoe, hyoe, hdoy, ← hmonth', ← hday', hyear']

theorem civil_number (t : Date) : civil t.number = (t.year, t.month, t.day) := by
  obtain ⟨u, hnumber, hcivil⟩ := civil_spec t.number
  rw [hcivil, Date.number_injective hnumber]

end Calendar
