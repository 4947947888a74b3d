import UBoot.Lib.Calendar

namespace UBoot.Rtc.Date

open Lib.Calendar

/-- `struct rtc_time`. -/
structure RtcTime where
  tmSec : ℤ
  tmMin : ℤ
  tmHour : ℤ
  tmMday : ℤ
  tmMon : ℤ
  tmYear : ℤ
  tmWday : ℤ
  tmYday : ℤ
  tmIsdst : ℤ
deriving DecidableEq

def startOfTime : ℤ := 1970

def secday : ℤ := 86400

/-- The macro `leapyear`. -/
def leapyear (year : ℤ) : Prop := year.tmod 4 = 0

instance : DecidablePred leapyear := fun year ↦ inferInstanceAs (Decidable (year.tmod 4 = 0))

def daysInYear (a : ℤ) : ℤ := if leapyear a then 366 else 365

/-- The initial value of `month_days`. -/
def monthDays : List ℤ := [31, 28, 31, 30, 31, 30, 31, 31, 30, 31, 30, 31]

def monthOffset : List ℤ := [0, 31, 59, 90, 120, 151, 181, 212, 243, 273, 304, 334]

/-- An entry of an array, `none` outside of it. -/
def entry (table : List ℤ) (i : ℤ) : Option ℤ := if 0 ≤ i then table[i.toNat]? else none

def gregorianDay (tm : RtcTime) : Option RtcTime :=
  let lastYear := tm.tmYear - 1
  let leapsToDate := lastYear.tdiv 4 - lastYear.tdiv 100 + lastYear.tdiv 400
  let day : ℤ :=
    if tm.tmYear.tmod 4 = 0 ∧ (tm.tmYear.tmod 100 ≠ 0 ∨ tm.tmYear.tmod 400 = 0) ∧ 2 < tm.tmMon
    then 1 else 0
  (entry monthOffset (tm.tmMon - 1)).map fun offset ↦
    { tm with tmWday := (day + (lastYear * 365 + leapsToDate + offset + tm.tmMday)).tmod 7 }

theorem daysInYear_pos (a : ℤ) : 0 < daysInYear a := by
  rw [daysInYear]
  split_ifs <;> decide

/-- `for (; day >= days_in_year (i); i++)`. -/
def skipYears (i day : ℤ) : ℤ × ℤ :=
  if daysInYear i ≤ day then skipYears (i + 1) (day - daysInYear i) else (i, day)
termination_by day.toNat
decreasing_by
  have hpos := daysInYear_pos i
  omega

/-- `for (; day >= days_in_month (i); i++)`, where the list is `month_days` from `i` on. -/
def skipMonths : List ℤ → ℤ → ℤ → Option (ℤ × ℤ)
  | [], _, _ => none
  | days :: table, i, day => if days ≤ day then skipMonths table (i + 1) (day - days) else some (i, day)

/-- `month_days` is static and is what the call before left. -/
def toTm (table : List ℤ) (tim : ℤ) (tm : RtcTime) : Option (List ℤ × RtcTime) := do
  let hms := tim.tmod secday
  let (year, day) := skipYears startOfTime (tim.tdiv secday)
  let table := if leapyear year then table.set 1 29 else table
  let (mon, day) ← skipMonths table 1 day
  let tm ← gregorianDay
    { tm with
      tmHour := hms.tdiv 3600
      tmMin := (hms.tmod 3600).tdiv 60
      tmSec := (hms.tmod 3600).tmod 60
      tmYear := year
      tmMon := mon
      tmMday := day + 1 }
  return (table.set 1 28, tm)

def mktime (year mon day hour min sec : UInt32) : UInt32 :=
  let (mon, year) := if (mon - 2).toInt32 ≤ 0 then (mon - 2 + 12, year - 1) else (mon - 2, year)
  ((((year / 4 - year / 100 + year / 400 + 367 * mon / 12 + day) + year * 365 - 719499) * 24 +
    hour) * 60 + min) * 60 + sec

/-- The conversions one after the other. -/
def toTms : List ℤ → List (ℤ × RtcTime) → Option (List ℤ × List RtcTime)
  | table, [] => some (table, [])
  | table, (tim, tm) :: calls => do
    let (table, tm) ← toTm table tim tm
    let (table, tms) ← toTms table calls
    return (table, tm :: tms)

/-- The fields from the year to the second. -/
def RtcTime.stamp (tm : RtcTime) : List ℤ :=
  [tm.tmYear, tm.tmMon, tm.tmMday, tm.tmHour, tm.tmMin, tm.tmSec]

def RtcTime.seconds (tm : RtcTime) : UInt32 :=
  mktime (.ofInt tm.tmYear) (.ofInt tm.tmMon) (.ofInt tm.tmMday) (.ofInt tm.tmHour) (.ofInt tm.tmMin)
    (.ofInt tm.tmSec)

/-- The first day of 1970. -/
def epoch : ℕ := daysBeforeYear 1970

/-- The date and the time of day `t` seconds behind the start of 1970. -/
structure IsTime (t : ℕ) (d : Lib.Calendar.Date) (tm : RtcTime) : Prop where
  number : d.dayNumber = epoch + t / 86400
  year : tm.tmYear = d.year
  mon : tm.tmMon = d.month
  mday : tm.tmMday = d.day
  wday : tm.tmWday = d.weekday
  hour : tm.tmHour = (t % 86400 / 3600 : ℕ)
  min : tm.tmMin = (t % 3600 / 60 : ℕ)
  sec : tm.tmSec = (t % 60 : ℕ)

theorem epoch_eq : epoch = 719528 := by
  have heq := daysBeforeYear_eq 1970
  rw [epoch]
  omega

section Years

variable {i y day : ℕ}

theorem leapyear_iff (h : 1970 ≤ y) (hy : y < 2100) : leapyear y ↔ IsLeap y := by
  rw [leapyear, IsLeap, Int.tmod_eq_emod_of_nonneg (Nat.cast_nonneg y)]
  omega

theorem daysInYear_eq (h : 1970 ≤ y) (hy : y < 2100) : daysInYear y = yearLength y := by
  rw [daysInYear, yearLength]
  by_cases hleap : IsLeap y
  · rw [if_pos hleap, if_pos ((leapyear_iff h hy).mpr hleap)]
    rfl
  · rw [if_neg hleap, if_neg fun hl ↦ hleap ((leapyear_iff h hy).mp hl)]
    rfl

/-- Up to 2099 every fourth year is a leap year. -/
theorem skipYears_eq (h : 1970 ≤ i) (hday : daysBeforeYear i + day < daysBeforeYear 2100) :
    ∃ y rest : ℕ, skipYears i day = (↑y, ↑rest) ∧ 1970 ≤ y ∧ y < 2100 ∧ rest < yearLength y ∧
      daysBeforeYear y + rest = daysBeforeYear i + day := by
  induction day using Nat.strong_induction_on generalizing i with
  | _ day ih =>
    have hi : i < 2100 := daysBeforeYear_strictMono.lt_iff_lt.mp (by omega)
    rw [skipYears, daysInYear_eq h hi]
    by_cases hle : yearLength i ≤ day
    · have hpos : 0 < yearLength i := by
        rw [yearLength]
        split_ifs <;> decide
      have hnext : daysBeforeYear (i + 1) = daysBeforeYear i + yearLength i := rfl
      obtain ⟨y, rest, hskip, hy, hlt, hrest, hsum⟩ :=
        ih (day - yearLength i) (by omega) (i := i + 1) (by omega) (by omega)
      rw [if_pos (by exact_mod_cast hle), ← Nat.cast_sub hle]
      exact ⟨y, rest, hskip, hy, hlt, hrest, by omega⟩
    · rw [if_neg (by exact_mod_cast hle)]
      exact ⟨i, day, rfl, h, hi, by omega, rfl⟩

end Years

section Months

variable {y : ℕ}

theorem skipMonths_eq (y n i day : ℕ) (h : daysBeforeMonth y i + day < daysBeforeMonth y (i + n)) :
    ∃ m rest : ℕ, i ≤ m ∧ m < i + n ∧
      skipMonths ((List.range' i n).map fun m ↦ (monthLength y m : ℤ)) i day = some (↑m, ↑rest) ∧
      rest < monthLength y m ∧ daysBeforeMonth y m + rest = daysBeforeMonth y i + day := by
  induction n generalizing i day with
  | zero =>
    rw [Nat.add_zero] at h
    omega
  | succ n ih =>
    rw [List.range'_succ, List.map_cons, skipMonths]
    by_cases hle : monthLength y i ≤ day
    · have hnext : daysBeforeMonth y (i + 1) = daysBeforeMonth y i + monthLength y i := rfl
      have hlast : i + (n + 1) = i + 1 + n := by omega
      obtain ⟨m, rest, hm, hlt, hskip, hrest, hsum⟩ :=
        ih (i + 1) (day - monthLength y i) (by rw [← hlast]; omega)
      rw [if_pos (by exact_mod_cast hle), ← Nat.cast_sub hle]
      exact ⟨m, rest, by omega, by omega, hskip, hrest, by omega⟩
    · rw [if_neg (by exact_mod_cast hle)]
      exact ⟨i, day, le_refl i, by omega, rfl, by omega, rfl⟩

theorem table_eq (h : leapyear y ↔ IsLeap y) :
    (if leapyear y then monthDays.set 1 29 else monthDays) =
      (List.range' 1 12).map fun m ↦ (monthLength y m : ℤ) := by
  by_cases hleap : IsLeap y
  · rw [if_pos (h.mpr hleap)]
    simp [List.range', monthLength, monthDays, hleap]
  · rw [if_neg fun hl ↦ hleap (h.mp hl)]
    simp [List.range', monthLength, monthDays, hleap]

theorem table_restored (year : ℤ) :
    (if leapyear year then monthDays.set 1 29 else monthDays).set 1 28 = monthDays := by
  split_ifs <;> rfl

end Months

section Weekday

variable {d : Lib.Calendar.Date} {tm : RtcTime}

theorem monthOffset_eq (d : Lib.Calendar.Date) :
    entry monthOffset (d.month - 1) =
      some (daysBeforeMonth d.year d.month - if IsLeap d.year ∧ 2 < d.month then 1 else 0 : ℤ) := by
  have hpos := d.month_pos
  have hle := d.month_le
  generalize d.month = m at hpos hle
  interval_cases m <;> by_cases hleap : IsLeap d.year <;>
    simp [entry, monthOffset, daysBeforeMonth, monthLength, hleap]

/-- The weekday of every date from year 1 on. -/
theorem gregorianDay_eq (hy : tm.tmYear = d.year) (hm : tm.tmMon = d.month) (hd : tm.tmMday = d.day)
    (hyear : 1 ≤ d.year) : gregorianDay tm = some { tm with tmWday := d.weekday } := by
  have hleap : ((d.year : ℤ).tmod 4 = 0 ∧
      ((d.year : ℤ).tmod 100 ≠ 0 ∨ (d.year : ℤ).tmod 400 = 0) ∧ (2 : ℤ) < d.month) ↔
      IsLeap d.year ∧ 2 < d.month := by
    rw [IsLeap, and_assoc, Int.tmod_eq_emod_of_nonneg (Nat.cast_nonneg _),
      Int.tmod_eq_emod_of_nonneg (Nat.cast_nonneg _), Int.tmod_eq_emod_of_nonneg (Nat.cast_nonneg _)]
    omega
  have hlast : (0 : ℤ) ≤ d.year - 1 := by omega
  rw [gregorianDay, hy, hm, hd, monthOffset_eq, Option.map_some]
  simp only [hleap, Int.tdiv_eq_ediv_of_nonneg hlast]
  have hnumber := daysBeforeYear_eq d.year
  have hday := d.day_pos
  have hsum : (d.dayNumber : ℤ) =
      daysBeforeYear d.year + daysBeforeMonth d.year d.month + d.day - 1 := by
    rw [Lib.Calendar.Date.dayNumber]
    omega
  have hfrom (leap : ℤ) : leap + ((d.year - 1) * 365 +
      ((d.year - 1) / 4 - (d.year - 1) / 100 + (d.year - 1) / 400) +
      (daysBeforeMonth d.year d.month - leap) + d.day) = d.dayNumber - 365 := by omega
  have hge : (0 : ℤ) ≤ d.dayNumber - 365 := by omega
  have hweekday : ((d.dayNumber : ℤ) - 365) % 7 = d.weekday := by
    rw [Lib.Calendar.Date.weekday]
    omega
  rw [hfrom, Int.tmod_eq_emod_of_nonneg hge, hweekday]

end Weekday

/-- What `to_tm` gives, with the table as it was. -/
theorem toTm_eq {t : ℕ} (ht : t < 2 ^ 31) (tm : RtcTime) :
    ∃ d tm', toTm monthDays t tm = some (monthDays, tm') ∧ IsTime t d tm' := by
  have hepoch := epoch_eq
  have hend := daysBeforeYear_eq 2100
  obtain ⟨y, rest, hyears, hy, hlt, hrest, hsum⟩ :=
    skipYears_eq (i := 1970) le_rfl
      (show daysBeforeYear 1970 + t / 86400 < daysBeforeYear 2100 by rw [epoch] at hepoch; omega)
  obtain ⟨m, day, hm, hmlt, hmonths, hday, hsumday⟩ := skipMonths_eq y 12 1 rest (by
    have hyear : daysBeforeMonth y (1 + 12) = yearLength y := daysBeforeMonth_thirteen y
    have hone : daysBeforeMonth y 1 = 0 := rfl
    omega)
  let d : Lib.Calendar.Date := ⟨y, m, day + 1, hm, by omega, by omega, hday⟩
  have htdiv : (t : ℤ).tdiv secday = (t / 86400 : ℕ) := rfl
  have htmod : (t : ℤ).tmod secday = (t % 86400 : ℕ) := rfl
  have htable := table_eq (leapyear_iff hy hlt)
  rw [toTm, htdiv, htmod, show startOfTime = (1970 : ℕ) from rfl, hyears]
  dsimp only
  rw [htable, show (1 : ℤ) = (1 : ℕ) from rfl, hmonths, ← htable]
  simp only [Option.bind_eq_bind, Option.bind_some]
  rw [gregorianDay_eq (d := d) rfl rfl rfl (show 1 ≤ y by omega), Option.bind_some, table_restored]
  refine ⟨d, _, rfl, ?_, rfl, rfl, rfl, rfl, rfl, ?_, ?_⟩
  · have hone : daysBeforeMonth y 1 = 0 := rfl
    change daysBeforeYear y + daysBeforeMonth y m + (day + 1 - 1) = daysBeforeYear 1970 + t / 86400
    omega
  · change ((t % 86400 % 3600 / 60 : ℕ) : ℤ) = _
    rw [Nat.mod_mod_of_dvd t (by decide)]
  · change ((t % 86400 % 3600 % 60 : ℕ) : ℤ) = _
    rw [Nat.mod_mod_of_dvd t (by decide), Nat.mod_mod_of_dvd t (by decide)]

section Mktime

theorem ofNat_div {n k : ℕ} (h : n < 2 ^ 32) (hk : k < 2 ^ 32) :
    UInt32.ofNat n / UInt32.ofNat k = UInt32.ofNat (n / k) := (UInt32.ofNat_div h hk).symm

theorem daysBeforeMonth_winter (y : ℕ) {m : ℕ} (hpos : 1 ≤ m) (hle : m ≤ 2) :
    daysBeforeMonth y m + 336 = 367 * (m + 10) / 12 := by
  interval_cases m <;> rfl

theorem daysBeforeMonth_march (y : ℕ) {m : ℕ} (hlt : 2 < m) (hle : m ≤ 12) :
    daysBeforeMonth y m = 367 * (m - 2) / 12 + 29 + if IsLeap y then 1 else 0 := by
  interval_cases m <;> by_cases hleap : IsLeap y <;> simp [daysBeforeMonth, monthLength, hleap]

/-- The formula of `mktime` for the day, where years begin with March. -/
theorem gauss_eq (d : Lib.Calendar.Date) {y mon : ℕ}
    (hyear : d.month ≤ 2 ∧ d.year = y + 1 ∧ mon = d.month + 10 ∨
      2 < d.month ∧ d.year = y ∧ mon = d.month - 2) :
    y / 4 + y / 400 + 367 * mon / 12 + d.day + y * 365 + 29 = d.dayNumber + y / 100 := by
  have hday := d.day_pos
  have hnext := daysBeforeYear_succ y
  rw [Lib.Calendar.Date.dayNumber]
  rcases hyear with ⟨hle, hy, rfl⟩ | ⟨hlt, rfl, rfl⟩
  · have hmonth := daysBeforeMonth_winter d.year d.month_pos hle
    rw [← hy] at hnext
    omega
  · have hmonth := daysBeforeMonth_march d.year hlt d.month_le
    rw [daysBeforeYear, yearLength] at hnext
    split_ifs at hnext hmonth <;> omega

theorem gauss_eq_uint32 (d : Lib.Calendar.Date) {y mon : ℕ} (hlt : y < 2 ^ 32)
    (hyear : d.month ≤ 2 ∧ d.year = y + 1 ∧ mon = d.month + 10 ∨
      2 < d.month ∧ d.year = y ∧ mon = d.month - 2) :
    (UInt32.ofNat y / 4 - UInt32.ofNat y / 100 + UInt32.ofNat y / 400 + 367 * UInt32.ofNat mon / 12 +
      UInt32.ofNat d.day) + UInt32.ofNat y * 365 - 719499 = UInt32.ofNat d.dayNumber - 719528 := by
  have hmon : 367 * mon < 2 ^ 32 := by
    have hle := d.month_le
    omega
  have h4 : UInt32.ofNat y / 4 = UInt32.ofNat (y / 4) := ofNat_div hlt (by decide)
  have h100 : UInt32.ofNat y / 100 = UInt32.ofNat (y / 100) := ofNat_div hlt (by decide)
  have h400 : UInt32.ofNat y / 400 = UInt32.ofNat (y / 400) := ofNat_div hlt (by decide)
  have h12 : 367 * UInt32.ofNat mon / 12 = UInt32.ofNat (367 * mon / 12) := by
    rw [← ofNat_div hmon (by decide), UInt32.ofNat_mul]
    rfl
  have hgauss := congrArg UInt32.ofNat (gauss_eq d hyear)
  simp only [UInt32.ofNat_add, UInt32.ofNat_mul] at hgauss
  rw [h4, h100, h400, h12]
  have h365 : UInt32.ofNat 365 = 365 := rfl
  have h29 : UInt32.ofNat 29 = 29 := rfl
  grind

theorem mktime_eq (d : Lib.Calendar.Date) (hpos : 1 ≤ d.year) (hlt : d.year < 2 ^ 32)
    (hour min sec : ℕ) :
    mktime (.ofNat d.year) (.ofNat d.month) (.ofNat d.day) (.ofNat hour) (.ofNat min) (.ofNat sec) =
      (((UInt32.ofNat d.dayNumber - 719528) * 24 + .ofNat hour) * 60 + .ofNat min) * 60 +
        .ofNat sec := by
  rw [mktime]
  by_cases hle : d.month ≤ 2
  · obtain ⟨y, hy⟩ : ∃ y, d.year = y + 1 := ⟨d.year - 1, by omega⟩
    have hmon : (UInt32.ofNat d.month - 2).toInt32 ≤ 0 := by
      have hmonth := d.month_pos
      generalize d.month = m at hmonth hle
      interval_cases m <;> decide
    have hlast : UInt32.ofNat d.year - 1 = UInt32.ofNat y := by
      rw [hy, UInt32.ofNat_add, show UInt32.ofNat 1 = 1 from rfl]
      grind
    have hfirst : UInt32.ofNat d.month - 2 + 12 = UInt32.ofNat (d.month + 10) := by
      rw [UInt32.ofNat_add, show UInt32.ofNat 10 = 10 from rfl]
      grind
    rw [if_pos hmon]
    dsimp only
    rw [hlast, hfirst, gauss_eq_uint32 d (by omega) (.inl ⟨hle, hy, rfl⟩)]
  · have hmon : ¬ (UInt32.ofNat d.month - 2).toInt32 ≤ 0 := by
      have hmonth := d.month_le
      generalize d.month = m at hmonth hle
      push Not at hle
      interval_cases m <;> decide
    have hge : 2 ≤ d.month := by omega
    have hfirst : UInt32.ofNat d.month - 2 = UInt32.ofNat (d.month - 2) :=
      (UInt32.ofNat_sub hge).symm
    rw [if_neg hmon]
    dsimp only
    rw [hfirst, gauss_eq_uint32 d hlt (.inr ⟨by omega, rfl, rfl⟩)]

theorem ofInt_natCast (n : ℕ) : UInt32.ofInt n = UInt32.ofNat n := by
  rw [UInt32.ofInt, ← UInt32.toNat_inj, UInt32.toNat_ofNat', UInt32.toNat_ofNat']
  omega

/-- `mktime` undoes `to_tm`. -/
theorem IsTime.seconds {t : ℕ} {d : Lib.Calendar.Date} {tm : RtcTime} (h : IsTime t d tm)
    (ht : t < 2 ^ 31) : tm.seconds.toNat = t := by
  have hepoch := epoch_eq
  have hnumber := h.number
  have hbefore : daysBeforeYear d.year ≤ d.dayNumber :=
    (Nat.le_add_right _ _).trans d.daysBeforeMonth_le
  have hle : d.year ≤ daysBeforeYear d.year := daysBeforeYear_strictMono.le_apply
  have hyear : 1970 < d.year + 1 := by
    apply daysBeforeYear_strictMono.lt_iff_lt.mp
    have hafter := d.dayNumber_lt_next_year
    rw [epoch] at hnumber
    omega
  have hday : UInt32.ofNat d.dayNumber - 719528 = UInt32.ofNat (t / 86400) := by
    rw [hnumber, hepoch, UInt32.ofNat_add, show UInt32.ofNat 719528 = 719528 from rfl]
    grind
  have hhours : t / 86400 * 24 + t % 86400 / 3600 = t / 3600 := by omega
  have hminutes : t / 3600 * 60 + t % 3600 / 60 = t / 60 := by omega
  have hsum : ((t / 86400 * 24 + t % 86400 / 3600) * 60 + t % 3600 / 60) * 60 + t % 60 = t := by
    rw [hhours, hminutes, Nat.div_add_mod']
  rw [RtcTime.seconds, h.year, h.mon, h.mday, h.hour, h.min, h.sec]
  simp only [ofInt_natCast]
  rw [mktime_eq d (by omega) (by omega), hday]
  have hofNat := congrArg UInt32.ofNat hsum
  simp only [UInt32.ofNat_add, UInt32.ofNat_mul] at hofNat
  rw [show (24 : UInt32) = UInt32.ofNat 24 from rfl, show (60 : UInt32) = UInt32.ofNat 60 from rfl,
    hofNat, UInt32.toNat_ofNat_of_lt' (by change t < 2 ^ 32; omega)]

end Mktime

theorem IsTime.stamp_lt {t t' : ℕ} {d d' : Lib.Calendar.Date} {tm tm' : RtcTime}
    (h : IsTime t d tm) (h' : IsTime t' d' tm') (hlt : t < t') : tm.stamp < tm'.stamp := by
  have hnumber := h.number
  have hnumber' := h'.number
  have hle : d.dayNumber ≤ d'.dayNumber := by omega
  have hlex := Date.lex_of_dayNumber_le hle
  have hsame : d.year = d'.year → d.month = d'.month → d.day = d'.day →
      t / 86400 = t' / 86400 := by
    intro hy hm hd
    have heq : d.dayNumber = d'.dayNumber := by
      rw [Date.dayNumber, Date.dayNumber, hy, hm, hd]
    omega
  simp only [RtcTime.stamp, List.cons_lt_cons_iff, h.year, h.mon, h.mday, h.hour, h.min, h.sec,
    h'.year, h'.mon, h'.mday, h'.hour, h'.min, h'.sec, Nat.cast_lt, Nat.cast_inj]
  rcases hlex with hy | ⟨hy, hm | ⟨hm, hle⟩⟩
  · exact .inl hy
  · exact .inr ⟨hy, .inl hm⟩
  · rcases hle.lt_or_eq with hd | hd
    · exact .inr ⟨hy, .inr ⟨hm, .inl hd⟩⟩
    · have hdays := hsame hy hm hd
      refine .inr ⟨hy, .inr ⟨hm, .inr ⟨hd, ?_⟩⟩⟩
      omega

/-- `to_tm` and `mktime` on the times of a signed 32-bit count. -/
structure Conversions : Prop where
  date : ∀ t : ℕ, t < 2 ^ 31 → ∀ tm, ∃ d tm',
    toTm monthDays t tm = some (monthDays, tm') ∧ IsTime t d tm'
  inverse : ∀ t : ℕ, t < 2 ^ 31 → ∀ tm tm', toTm monthDays t tm = some (monthDays, tm') →
    tm'.seconds.toNat = t
  increasing : ∀ t t' : ℕ, t < t' → t' < 2 ^ 31 → ∀ tm tm' r r',
    toTm monthDays t tm = some (monthDays, r) → toTm monthDays t' tm' = some (monthDays, r') →
    r.stamp < r'.stamp
  calls : ∀ calls : List (ℕ × RtcTime), (∀ c ∈ calls, c.1 < 2 ^ 31) → ∃ tms,
    toTms monthDays (calls.map fun c ↦ (↑c.1, c.2)) = some (monthDays, tms) ∧
      List.Forall₂ (fun c tm ↦ toTm monthDays c.1 c.2 = some (monthDays, tm)) calls tms

theorem isTime_of_toTm {t : ℕ} (ht : t < 2 ^ 31) {tm tm' : RtcTime}
    (h : toTm monthDays t tm = some (monthDays, tm')) : ∃ d, IsTime t d tm' := by
  obtain ⟨d, r, hr, hd⟩ := toTm_eq ht tm
  rw [hr] at h
  cases h
  exact ⟨d, hd⟩

theorem toTms_eq (calls : List (ℕ × RtcTime)) (h : ∀ c ∈ calls, c.1 < 2 ^ 31) :
    ∃ tms, toTms monthDays (calls.map fun c ↦ (↑c.1, c.2)) = some (monthDays, tms) ∧
      List.Forall₂ (fun c tm ↦ toTm monthDays c.1 c.2 = some (monthDays, tm)) calls tms := by
  induction calls with
  | nil => exact ⟨[], rfl, .nil⟩
  | cons c calls ih =>
    obtain ⟨d, tm, htm, -⟩ := toTm_eq (h c (by simp)) c.2
    obtain ⟨tms, hrun, hall⟩ := ih fun c hc ↦ h c (by simp [hc])
    refine ⟨tm :: tms, ?_, .cons htm hall⟩
    rw [List.map_cons, toTms, htm]
    simp only [Option.bind_eq_bind, Option.bind_some]
    rw [hrun]
    rfl

theorem conversions : Conversions where
  date := fun _ ht tm ↦ toTm_eq ht tm
  inverse := by
    intro t ht tm tm' h
    obtain ⟨d, hd⟩ := isTime_of_toTm ht h
    exact hd.seconds ht
  increasing := by
    intro t t' hlt ht tm tm' r r' hr hr'
    obtain ⟨d, hd⟩ := isTime_of_toTm (hlt.trans ht) hr
    obtain ⟨d', hd'⟩ := isTime_of_toTm ht hr'
    exact hd.stamp_lt hd' hlt
  calls := toTms_eq

end UBoot.Rtc.Date
