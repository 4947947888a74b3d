import UBoot.Lib.CString
import UBoot.Rtc.Date

namespace UBoot.Common.CmdDate

open Lib.CString Rtc.Date

def dot : UInt8 := 0x2e

def cnvrt2 (str : CStr) : Option ℕ :=
  if first str < 0x30 ∨ 0x39 < first str then none
  else if first str.tail < 0x30 ∨ 0x39 < first str.tail then none
  else some (10 * ((first str).toNat - 0x30) + ((first str.tail).toNat - 0x30))

/-- `cnvrt2 (str, &val)` with the test `val > max`. -/
def upTo (max : ℕ) (str : CStr) : Option ℕ := (cnvrt2 str).filter (· ≤ max)

/-- Goes on with a value. Without one the result is -1 and `*tmp` stays as it is. -/
def withVal (tmp : RtcTime) (val : Option ℕ) (next : ℕ → Option (ℤ × RtcTime)) :
    Option (ℤ × RtcTime) :=
  match val with
  | none => some (-1, tmp)
  | some val => next val

/-- The `switch` of `mk_date`. -/
def mkDateFields (datestr : CStr) (tmp : RtcTime) : Option (ℤ × RtcTime) :=
  if datestr.length = 8 ∨ datestr.length = 10 ∨ datestr.length = 12 then
    withVal tmp (upTo 12 datestr) fun mon ↦
      let tmp := { tmp with tmMon := mon }
      withVal tmp (upTo (if mon = 2 then 29 else 31) (datestr.drop 2)) fun mday ↦
        let tmp := { tmp with tmMday := mday }
        withVal tmp (upTo 23 (datestr.drop 4)) fun hour ↦
          let tmp := { tmp with tmHour := hour }
          withVal tmp (upTo 59 (datestr.drop 6)) fun min ↦
            (gregorianDay { tmp with tmMin := min }).map fun tmp ↦ (0, tmp)
  else some (-1, tmp)

/-- `mk_date` behind the seconds. -/
def mkDateYear (datestr : CStr) (tmp : RtcTime) : Option (ℤ × RtcTime) :=
  if datestr.length = 12 then
    withVal tmp (cnvrt2 (datestr.drop 8)) fun century ↦
      withVal tmp (cnvrt2 (datestr.drop 10)) fun year ↦
        mkDateFields datestr { tmp with tmYear := 100 * century + year }
  else if datestr.length = 10 then
    withVal tmp (cnvrt2 (datestr.drop 8)) fun year ↦
      mkDateFields datestr { tmp with tmYear := 100 * tmp.tmYear.tdiv 100 + year }
  else mkDateFields datestr tmp

/-- The result and `*tmp`; `none` when `GregorianDay` reads outside of its table. -/
def mkDate (datestr : CStr) (tmp : RtcTime) : Option (ℤ × RtcTime) :=
  match cut datestr dot with
  | none => mkDateYear datestr { tmp with tmSec := 0 }
  | some (datestr, ptr) =>
    if ptr.length ≠ 2 then some (-1, tmp)
    else withVal tmp (cnvrt2 ptr) fun sec ↦ mkDateYear datestr { tmp with tmSec := sec }

/-- Two decimal digits. -/
def two (n : ℕ) : CStr := [UInt8.ofNat (0x30 + n / 10), UInt8.ofNat (0x30 + n % 10)]

/-- A date as it is typed: `MMDDhhmm`, the year with or without the century, and the seconds. -/
structure DateText where
  mon : ℕ
  mday : ℕ
  hour : ℕ
  min : ℕ
  year : Option (Option (Fin 100) × Fin 100)
  sec : Option (Fin 100)
  mon_pos : 1 ≤ mon
  mon_le : mon ≤ 12
  mday_le : mday ≤ if mon = 2 then 29 else 31
  hour_le : hour ≤ 23
  min_le : min ≤ 59

def yearText : Option (Option (Fin 100) × Fin 100) → CStr
  | none => []
  | some (none, year) => two year
  | some (some century, year) => two century ++ two year

def secText : Option (Fin 100) → CStr
  | none => []
  | some sec => dot :: two sec

def DateText.text (d : DateText) : CStr :=
  two d.mon ++ two d.mday ++ two d.hour ++ two d.min ++ yearText d.year ++ secText d.sec

/-- The year that is meant when the clock shows `now`. -/
def yearValue (now : ℤ) : Option (Option (Fin 100) × Fin 100) → ℤ
  | none => now
  | some (none, year) => 100 * now.tdiv 100 + year
  | some (some century, year) => 100 * century + year

/-- The fields that are typed, in the current time. -/
def DateText.fields (d : DateText) (now : RtcTime) : RtcTime :=
  { now with
    tmSec := d.sec.elim 0 fun sec ↦ sec.val
    tmMin := d.min
    tmHour := d.hour
    tmMday := d.mday
    tmMon := d.mon
    tmYear := yearValue now.tmYear d.year }

/-- `mk_date` accepts what has the form of a date, takes its fields over, and stays inside the table of
`GregorianDay`. -/
structure Grammar (s : CStr) (now : RtcTime) : Prop where
  inside : (mkDate s now).isSome
  accepted : (∃ tmp, mkDate s now = some (0, tmp)) ↔ ∃ d : DateText, d.text = s
  fields : ∀ (d : DateText) tmp, d.text = s → mkDate s now = some (0, tmp) →
    tmp = { d.fields now with tmWday := tmp.tmWday }

section Digits

variable {n v : ℕ} {s rest : CStr}

theorem two_digits : ∀ n < 100, cnvrt2 (two n) = some n := by
  decide

theorem cnvrt2_append (h : n < 100) (rest : CStr) : cnvrt2 (two n ++ rest) = some n :=
  two_digits n h

theorem ofNat_digit {c : UInt8} (hge : ¬ c < 0x30) (hle : ¬ 0x39 < c) :
    c.toNat - 0x30 < 10 ∧ UInt8.ofNat (0x30 + (c.toNat - 0x30)) = c := by
  rw [UInt8.lt_iff_toNat_lt] at hge hle
  have hlow : (0x30 : UInt8).toNat = 0x30 := rfl
  have hhigh : (0x39 : UInt8).toNat = 0x39 := rfl
  have hsum : 0x30 + (c.toNat - 0x30) = c.toNat := by omega
  rw [hsum, UInt8.ofNat_toNat]
  exact ⟨by omega, rfl⟩

theorem cnvrt2_eq_some (h : cnvrt2 s = some v) : v < 100 ∧ s = two v ++ s.drop 2 := by
  rw [cnvrt2] at h
  split_ifs at h with h₁ h₂
  rw [not_or] at h₁ h₂
  obtain ⟨hlt₁, hc₁⟩ := ofNat_digit h₁.1 h₁.2
  obtain ⟨hlt₂, hc₂⟩ := ofNat_digit h₂.1 h₂.2
  cases s with
  | nil => exact absurd (by decide) h₁.1
  | cons a s =>
    cases s with
    | nil => exact absurd (show (0 : UInt8) < 0x30 by decide) h₂.1
    | cons b s =>
      simp only [List.tail_cons, first_cons] at h hlt₁ hlt₂ hc₁ hc₂
      have hv := Option.some.inj h
      have htens : v / 10 = a.toNat - 0x30 := by omega
      have hones : v % 10 = b.toNat - 0x30 := by omega
      refine ⟨by omega, ?_⟩
      rw [two, htens, hones, hc₁, hc₂]
      rfl

theorem upTo_eq_some {max : ℕ} (h : upTo max s = some v) :
    v ≤ max ∧ v < 100 ∧ s = two v ++ s.drop 2 := by
  rw [upTo, Option.filter_eq_some_iff] at h
  exact ⟨of_decide_eq_true h.2, cnvrt2_eq_some h.1⟩

theorem upTo_append {max : ℕ} (h : n < 100) (hle : n ≤ max) (rest : CStr) :
    upTo max (two n ++ rest) = some n := by
  rw [upTo, cnvrt2_append h, Option.filter_some, if_pos (decide_eq_true hle)]

end Digits

section Chain

variable {tmp tmp' : RtcTime} {val : Option ℕ} {next : ℕ → Option (ℤ × RtcTime)}

theorem withVal_eq_zero :
    withVal tmp val next = some (0, tmp') ↔ ∃ v, val = some v ∧ next v = some (0, tmp') := by
  cases val with
  | none => simp [withVal]
  | some v => simp [withVal]

theorem withVal_isSome (h : ∀ v, val = some v → (next v).isSome) : (withVal tmp val next).isSome := by
  cases val with
  | none => rfl
  | some v => exact h v rfl

theorem gregorianDay_isSome (hpos : 1 ≤ tmp.tmMon) (hle : tmp.tmMon ≤ 12) :
    (gregorianDay tmp).isSome := by
  have hlt : (tmp.tmMon - 1).toNat < monthOffset.length := by
    change (tmp.tmMon - 1).toNat < 12
    omega
  rw [gregorianDay, Option.isSome_map, entry, if_pos (by omega), List.getElem?_eq_getElem hlt]
  rfl

theorem gregorianDay_fields (h : gregorianDay tmp = some tmp') :
    tmp' = { tmp with tmWday := tmp'.tmWday } := by
  rw [gregorianDay, Option.map_eq_some_iff] at h
  obtain ⟨offset, -, rfl⟩ := h
  rfl

end Chain

section Grammar

variable {s str : CStr} {now tmp : RtcTime}

theorem mkDateFields_isSome (h : str.take 2 ≠ two 0) : (mkDateFields str now).isSome := by
  rw [mkDateFields]
  split_ifs
  · refine withVal_isSome fun mon hmon ↦ withVal_isSome fun _ _ ↦ withVal_isSome fun _ _ ↦
      withVal_isSome fun _ _ ↦ ?_
    obtain ⟨hle, -, hstr⟩ := upTo_eq_some hmon
    have hpos : mon ≠ 0 := by
      rintro rfl
      rw [hstr] at h
      exact h rfl
    rw [Option.isSome_map]
    exact gregorianDay_isSome (by dsimp only; omega) (by dsimp only; omega)
  · rfl

theorem mkDateYear_isSome (h : str.take 2 ≠ two 0) : (mkDateYear str now).isSome := by
  rw [mkDateYear]
  split_ifs
  · exact withVal_isSome fun _ _ ↦ withVal_isSome fun _ _ ↦ mkDateFields_isSome h
  · exact withVal_isSome fun _ _ ↦ mkDateFields_isSome h
  · exact mkDateFields_isSome h

theorem take_front {ptr : CStr} (hs : s = str ++ dot :: ptr) (h : s.take 2 ≠ two 0) :
    str.take 2 ≠ two 0 := by
  intro htake
  have hlength := congrArg List.length htake
  rw [List.length_take] at hlength
  rw [hs, List.take_append_of_le_length (min_eq_left_iff.mp hlength), htake] at h
  exact h rfl

theorem mkDate_isSome (h : s.take 2 ≠ two 0) : (mkDate s now).isSome := by
  rw [mkDate]
  cases hcut : cut s dot with
  | none => exact mkDateYear_isSome h
  | some r =>
    obtain ⟨hs, -⟩ := cut_eq_some.mp hcut
    dsimp only
    split_ifs
    · rfl
    · exact withVal_isSome fun _ _ ↦ mkDateYear_isSome (take_front hs h)

theorem mkDateFields_append {mon mday hour min : ℕ} (hmon : mon ≤ 12)
    (hmday : mday ≤ if mon = 2 then 29 else 31) (hhour : hour ≤ 23) (hmin : min ≤ 59) {rest : CStr}
    (hrest : rest.length = 0 ∨ rest.length = 2 ∨ rest.length = 4) :
    mkDateFields (two mon ++ (two mday ++ (two hour ++ (two min ++ rest)))) now =
      (gregorianDay
        { now with tmMon := mon, tmMday := mday, tmHour := hour, tmMin := min }).map
          fun tmp ↦ (0, tmp) := by
  have hlt : mday < 100 := by
    split_ifs at hmday <;> omega
  have hlength : (two mon ++ (two mday ++ (two hour ++ (two min ++ rest)))).length =
      rest.length + 8 := rfl
  have h2 : (two mon ++ (two mday ++ (two hour ++ (two min ++ rest)))).drop 2 =
      two mday ++ (two hour ++ (two min ++ rest)) := rfl
  have h4 : (two mon ++ (two mday ++ (two hour ++ (two min ++ rest)))).drop 4 =
      two hour ++ (two min ++ rest) := rfl
  have h6 : (two mon ++ (two mday ++ (two hour ++ (two min ++ rest)))).drop 6 =
      two min ++ rest := rfl
  rw [mkDateFields, if_pos (by omega), h2, h4, h6, upTo_append (by omega) hmon,
    upTo_append (by omega) hhour, upTo_append (by omega) hmin]
  simp only [withVal]
  rw [upTo_append hlt hmday]

theorem of_mkDateFields (h : mkDateFields str now = some (0, tmp)) :
    ∃ mon mday hour min, mon ≤ 12 ∧ mday ≤ (if mon = 2 then 29 else 31) ∧ hour ≤ 23 ∧ min ≤ 59 ∧
      str = two mon ++ (two mday ++ (two hour ++ (two min ++ str.drop 8))) ∧
      (str.length = 8 ∨ str.length = 10 ∨ str.length = 12) := by
  rw [mkDateFields] at h
  split_ifs at h with hlength
  · simp only [withVal_eq_zero] at h
    obtain ⟨mon, hmon, mday, hmday, hour, hhour, min, hmin, -⟩ := h
    obtain ⟨hle₁, -, htext₁⟩ := upTo_eq_some hmon
    obtain ⟨hle₂, -, htext₂⟩ := upTo_eq_some hmday
    obtain ⟨hle₃, -, htext₃⟩ := upTo_eq_some hhour
    obtain ⟨hle₄, -, htext₄⟩ := upTo_eq_some hmin
    rw [List.drop_drop] at htext₂ htext₃ htext₄
    refine ⟨mon, mday, hour, min, hle₁, hle₂, hle₃, hle₄, ?_, hlength⟩
    rw [← htext₄, ← htext₃, ← htext₂, ← htext₁]
  · cases h

/-- The text in front of the dot. -/
def DateText.front (d : DateText) : CStr :=
  two d.mon ++ (two d.mday ++ (two d.hour ++ (two d.min ++ yearText d.year)))

theorem DateText.text_eq (d : DateText) : d.text = d.front ++ secText d.sec := by
  simp only [text, front, List.append_assoc]

theorem dot_not_mem_two : ∀ n < 100, dot ∉ two n := by
  decide

theorem DateText.dot_not_mem_front (d : DateText) : dot ∉ d.front := by
  have hmday : d.mday < 100 := by
    have hle := d.mday_le
    split_ifs at hle <;> omega
  have hyear : dot ∉ yearText d.year := by
    rcases d.year with _ | ⟨_ | century, year⟩
    · exact List.not_mem_nil
    · exact dot_not_mem_two year year.isLt
    · rw [yearText, List.mem_append, not_or]
      exact ⟨dot_not_mem_two century century.isLt, dot_not_mem_two year year.isLt⟩
  simp only [front, List.mem_append, not_or]
  exact ⟨dot_not_mem_two _ (d.mon_le.trans_lt (by decide)), dot_not_mem_two _ hmday,
    dot_not_mem_two _ (d.hour_le.trans_lt (by decide)),
    dot_not_mem_two _ (d.min_le.trans_lt (by decide)), hyear⟩

theorem mkDateYear_front (d : DateText) (now : RtcTime) :
    mkDateYear d.front now =
      mkDateFields d.front { now with tmYear := yearValue now.tmYear d.year } := by
  have hdrop : d.front.drop 8 = yearText d.year := rfl
  have hlast : d.front.drop 10 = (yearText d.year).drop 2 := rfl
  have hlength : d.front.length = (yearText d.year).length + 8 := rfl
  rw [mkDateYear, hlength, hdrop, hlast]
  rcases d.year with _ | ⟨_ | century, year⟩
  · rfl
  · have hread : cnvrt2 (yearText (some (none, year))) = some year.val :=
      two_digits year year.isLt
    rw [hread]
    rfl
  · have hcentury : cnvrt2 (yearText (some (some century, year))) = some century.val :=
      cnvrt2_append century.isLt _
    have hyear : cnvrt2 ((yearText (some (some century, year))).drop 2) = some year.val :=
      two_digits year year.isLt
    rw [hcentury, hyear]
    rfl

theorem mkDateFields_front (d : DateText) (now : RtcTime) :
    mkDateFields d.front now =
      (gregorianDay { now with
        tmMon := d.mon, tmMday := d.mday, tmHour := d.hour, tmMin := d.min }).map
          fun tmp ↦ (0, tmp) := by
  refine mkDateFields_append d.mon_le d.mday_le d.hour_le d.min_le ?_
  rcases d.year with _ | ⟨_ | century, year⟩
  · exact .inl rfl
  · exact .inr (.inl rfl)
  · exact .inr (.inr rfl)

theorem mkDate_text (d : DateText) (now : RtcTime) :
    mkDate d.text now = (gregorianDay (d.fields now)).map fun tmp ↦ (0, tmp) := by
  rw [mkDate, d.text_eq]
  cases hsec : d.sec with
  | none =>
    have hcut : cut (d.front ++ secText none) dot = none := by
      rw [cut_eq_none, secText, List.append_nil]
      exact d.dot_not_mem_front
    rw [hcut, secText, List.append_nil]
    dsimp only
    rw [mkDateYear_front, mkDateFields_front, DateText.fields, hsec]
    rfl
  | some sec =>
    have hcut : cut (d.front ++ secText (some sec)) dot = some (d.front, two sec) :=
      cut_eq_some.mpr ⟨rfl, d.dot_not_mem_front⟩
    have htwo : ¬ (two sec.val).length ≠ 2 := not_not_intro rfl
    rw [hcut]
    dsimp only
    rw [if_neg htwo, two_digits sec sec.isLt]
    dsimp only [withVal]
    rw [mkDateYear_front, mkDateFields_front, DateText.fields, hsec]
    rfl

theorem exists_front (year : Option (Option (Fin 100) × Fin 100)) (hyear : yearText year = str.drop 8)
    (h : mkDateFields str now = some (0, tmp)) (htake : str.take 2 ≠ two 0)
    (sec : Option (Fin 100)) : ∃ d : DateText, d.front = str ∧ d.sec = sec := by
  obtain ⟨mon, mday, hour, min, hmon, hmday, hhour, hmin, hstr, -⟩ := of_mkDateFields h
  have hpos : 1 ≤ mon := by
    by_contra! hzero
    obtain rfl : mon = 0 := by omega
    rw [hstr] at htake
    exact htake rfl
  refine ⟨⟨mon, mday, hour, min, year, sec, hpos, hmon, hmday, hhour, hmin⟩, ?_, rfl⟩
  rw [DateText.front, hyear]
  exact hstr.symm

theorem exists_of_mkDateYear (h : mkDateYear str now = some (0, tmp)) (htake : str.take 2 ≠ two 0)
    (sec : Option (Fin 100)) : ∃ d : DateText, d.front = str ∧ d.sec = sec := by
  rw [mkDateYear] at h
  split_ifs at h with h12 h10
  · simp only [withVal_eq_zero] at h
    obtain ⟨century, hcentury, year, hyear, hfields⟩ := h
    obtain ⟨hlt, htext⟩ := cnvrt2_eq_some hcentury
    obtain ⟨hlt', htext'⟩ := cnvrt2_eq_some hyear
    rw [List.drop_drop] at htext htext'
    rw [List.drop_eq_nil_of_le (i := 10 + 2) h12.le, List.append_nil] at htext'
    refine exists_front (some (some ⟨century, hlt⟩, ⟨year, hlt'⟩)) ?_ hfields htake sec
    rw [htext, htext']
    rfl
  · simp only [withVal_eq_zero] at h
    obtain ⟨year, hyear, hfields⟩ := h
    obtain ⟨hlt, htext⟩ := cnvrt2_eq_some hyear
    rw [List.drop_drop, List.drop_eq_nil_of_le (i := 8 + 2) h10.le, List.append_nil] at htext
    exact exists_front (some (none, ⟨year, hlt⟩)) htext.symm hfields htake sec
  · obtain ⟨-, -, -, -, -, -, -, -, -, hlength⟩ := of_mkDateFields h
    refine exists_front none ?_ h htake sec
    exact (List.drop_eq_nil_of_le (by omega)).symm

theorem exists_of_mkDate (h : mkDate s now = some (0, tmp)) (htake : s.take 2 ≠ two 0) :
    ∃ d : DateText, d.text = s := by
  rw [mkDate] at h
  cases hcut : cut s dot with
  | none =>
    rw [hcut] at h
    obtain ⟨d, hfront, hsec⟩ := exists_of_mkDateYear h htake none
    refine ⟨d, ?_⟩
    rw [d.text_eq, hsec, hfront]
    exact List.append_nil s
  | some r =>
    rw [hcut] at h
    dsimp only at h
    by_cases hlength : r.2.length ≠ 2
    · rw [if_pos hlength] at h
      cases h
    rw [if_neg hlength, withVal_eq_zero] at h
    obtain ⟨sec, hread, hyear⟩ := h
    obtain ⟨hs, -⟩ := cut_eq_some.mp hcut
    obtain ⟨hlt, htext⟩ := cnvrt2_eq_some hread
    rw [List.drop_eq_nil_of_le (not_not.mp hlength).le, List.append_nil] at htext
    obtain ⟨d, hfront, hsec⟩ := exists_of_mkDateYear hyear (take_front hs htake) (some ⟨sec, hlt⟩)
    refine ⟨d, ?_⟩
    rw [d.text_eq, hsec, hfront, hs, htext]
    rfl

end Grammar

/-- What `mk_date` accepts, for strings whose month is not 00. The day may be 00 and the seconds any two
digits. -/
theorem mk_date_grammar (s : CStr) (now : RtcTime) (h : s.take 2 ≠ ascii "00") : Grammar s now where
  inside := mkDate_isSome h
  accepted := by
    constructor
    · rintro ⟨tmp, htmp⟩
      exact exists_of_mkDate htmp h
    · rintro ⟨d, rfl⟩
      have hpos : 1 ≤ (d.fields now).tmMon := show (1 : ℤ) ≤ d.mon by exact_mod_cast d.mon_pos
      have hle : (d.fields now).tmMon ≤ 12 := show (d.mon : ℤ) ≤ 12 by exact_mod_cast d.mon_le
      obtain ⟨tmp, htmp⟩ := Option.isSome_iff_exists.mp (gregorianDay_isSome hpos hle)
      exact ⟨tmp, by rw [mkDate_text, htmp, Option.map_some]⟩
  fields := by
    rintro d tmp rfl htmp
    rw [mkDate_text, Option.map_eq_some_iff] at htmp
    obtain ⟨tmp', hday, heq⟩ := htmp
    cases heq
    exact gregorianDay_fields hday

def newYear : RtcTime := ⟨0, 0, 0, 1, 1, 1970, 4, 0, 0⟩

theorem mk_date_grammar_sample :
    (ascii "022923592024.58").take 2 ≠ ascii "00" ∧ Grammar (ascii "022923592024.58") newYear :=
  ⟨by decide, mk_date_grammar _ newYear (by decide)⟩

/-- 99 seconds, and day 0 of January. -/
theorem mk_date_accepts_more :
    mkDate (ascii "01010000.99") newYear = some (0, { newYear with tmSec := 99 }) ∧
      mkDate (ascii "01000000") newYear = some (0, { newYear with tmMday := 0, tmWday := 3 }) := by
  decide

example : mkDate (ascii "00010000") newYear = none := by decide

end UBoot.Common.CmdDate
