import UBoot.Include.Flash

namespace UBoot.Common.AbbrevSpec

open Lib.CString LibGeneric.Vsprintf Include.Flash

def colon : UInt8 := 0x3a

def dash : UInt8 := 0x2d

/-- An `unsigned long` that is stored in an `int`. -/
def asInt (x : UInt32) : ℤ := if x.toNat < 2147483648 then x.toNat else x.toNat - 4294967296

/-- `n = simple_strtoul (str, &ep, 10)` with the test `ep == str || *ep != '\0'`. -/
def number (str : CStr) : Option ℤ :=
  let r := simpleStrtoul str 10
  if r.2 = str ∨ r.2 ≠ [] then none else some (asInt r.1)

/-- What `abbrev_spec` returns: 0, -1, or 1 with the bank, the first and the last sector. -/
inductive Abbrev
  | other
  | bad
  | found (bank first last : ℤ)
deriving DecidableEq

/-- The bank with this number, if it is known. -/
def findBank (flash : FlashTable) (bank : ℤ) : Option FlashInfo :=
  if bank < 1 ∨ flash.info.length < bank then none
  else (flash.info[(bank - 1).toNat]?).filter fun fp ↦ fp.flashId != flashUnknown

/-- `abbrev_spec` behind the colon, where `p` is the string behind the dash. -/
def sectorRange (bank : ℤ) (fp : FlashInfo) (str : CStr) (p : Option CStr) : Abbrev :=
  match number str with
  | none => .bad
  | some first =>
    if fp.sectors ≤ first then .bad
    else
      match p with
      | none => .found bank first first
      | some p =>
        match number p with
        | none => .bad
        | some last => if last < first ∨ fp.sectors ≤ last then .bad else .found bank first last

def abbrevSpec (flash : FlashTable) (str : CStr) : Abbrev :=
  match cut str colon with
  | none => .other
  | some (str, p) =>
    match (number str).bind fun bank ↦ (findBank flash bank).map fun fp ↦ (bank, fp) with
    | none => .bad
    | some (bank, fp) =>
      match cut p dash with
      | none => sectorRange bank fp p none
      | some (str, p) => sectorRange bank fp str (some p)

/-- A string of decimal digits. -/
def IsDecimal (t : CStr) : Prop := t ≠ [] ∧ ∀ c ∈ t, isdigit c = true

instance : DecidablePred IsDecimal := fun t ↦
  inferInstanceAs (Decidable (t ≠ [] ∧ ∀ c ∈ t, isdigit c = true))

def decimalValue (t : CStr) : ℕ := t.foldl (fun n c ↦ n * 10 + (c.toNat - 0x30)) 0

def decimalNumber (t : CStr) : Option ℤ := if IsDecimal t then some (decimalValue t) else none

/-- A string `B:SF` or `B:SF-SL` by its parts. -/
structure Fields where
  bank : CStr
  first : CStr
  last : Option CStr

def Fields.text (f : Fields) : CStr :=
  f.bank ++ colon :: (f.first ++ f.last.elim [] (dash :: ·))

def Fields.numbers (f : Fields) : List CStr := f.bank :: f.first :: f.last.toList

/-- The fields, read as `read` does, name sectors of a known bank. -/
structure Fields.Name (f : Fields) (read : CStr → Option ℤ) (flash : FlashTable)
    (bank first last : ℤ) : Prop where
  readBank : read f.bank = some bank
  readFirst : read f.first = some first
  readLast : f.last.elim (some first) read = some last
  known : ∃ fp ∈ findBank flash bank, last < fp.sectors
  ordered : first ≤ last

/-- The grammar of the ranges. -/
def Names (flash : FlashTable) (str : CStr) (bank first last : ℤ) : Prop :=
  ∃ f : Fields, str = f.text ∧ f.Name decimalNumber flash bank first last

/-- What is asked of the result. -/
structure Correct (flash : FlashTable) (str : CStr) : Prop where
  found : ∀ bank first last,
    abbrevSpec flash str = .found bank first last ↔ Names flash str bank first last
  other : abbrevSpec flash str = .other ↔ colon ∉ str
  bad : abbrevSpec flash str = .bad ↔
    colon ∈ str ∧ ∀ bank first last, ¬ Names flash str bank first last

/-- A number in the notation of the grammar that fits an `int`. -/
def Plain (t : CStr) : Prop := IsDecimal t ∧ decimalValue t < 2147483648

/-- A string with a number that is not plain, whose numbers name sectors as `simple_strtoul` reads
them into an `int`. -/
def Misread (flash : FlashTable) (str : CStr) : Prop :=
  ∃ (f : Fields) (bank first last : ℤ), str = f.text ∧ f.Name number flash bank first last ∧
    ∃ t ∈ f.numbers, ¬ Plain t

section Numbers

variable {t : CStr}

/-- A digit of a number to this base. -/
def isDigitOf (base : ℕ) (c : UInt8) : Bool := isxdigit c && digitValue c < base

theorem strtoulDigits_eq (base n : ℕ) (t : CStr) :
    strtoulDigits base (UInt32.ofNat n) t =
      (UInt32.ofNat ((t.takeWhile (isDigitOf base)).foldl (fun n c ↦ n * base + digitValue c) n),
        t.dropWhile (isDigitOf base)) := by
  induction t generalizing n with
  | nil => rfl
  | cons c t ih =>
    rw [strtoulDigits, ← isDigitOf]
    by_cases hc : isDigitOf base c = true
    · rw [if_pos hc, List.takeWhile_cons_of_pos hc, List.dropWhile_cons_of_pos hc, List.foldl_cons,
        ← ih, UInt32.ofNat_add, UInt32.ofNat_mul]
    · rw [if_neg hc, List.takeWhile_cons_of_neg hc, List.dropWhile_cons_of_neg hc]
      rfl

theorem isdigit_iff (c : UInt8) : isdigit c = true ↔ 0x30 ≤ c.toNat ∧ c.toNat ≤ 0x39 := by
  simp [isdigit, UInt8.le_iff_toNat_le]

theorem isxdigit_iff (c : UInt8) :
    isxdigit c = true ↔ isdigit c = true ∨ 0x41 ≤ c.toNat ∧ c.toNat ≤ 0x46 ∨
      0x61 ≤ c.toNat ∧ c.toNat ≤ 0x66 := by
  simp [isxdigit, UInt8.le_iff_toNat_le, or_assoc]

theorem digitValue_of_isdigit {c : UInt8} (h : isdigit c = true) :
    digitValue c = c.toNat - 0x30 := by
  rw [digitValue, if_pos h]

theorem isDigitOf_ten (c : UInt8) : isDigitOf 10 c = isdigit c := by
  rw [isDigitOf]
  by_cases hc : isdigit c = true
  · have hrange := (isdigit_iff c).mp hc
    have hx : isxdigit c = true := (isxdigit_iff c).mpr (.inl hc)
    have hlt : c.toNat - 0x30 < 10 := by omega
    rw [digitValue_of_isdigit hc, hx, hc, decide_eq_true hlt, Bool.and_self]
  · have hge : ¬ digitValue c < 10 := by
      rw [digitValue, if_neg hc]
      omega
    rw [decide_eq_false hge, Bool.and_false, Bool.eq_false_iff.mpr hc]

/-- `simple_strtoul (t, &ep, 10)` reads a number behind `0x` to the base 16. -/
theorem simpleStrtoul_ten (t : CStr) :
    simpleStrtoul t 10 =
      if first t = 0x30 ∧ first (t.drop 1) = 0x78 ∧ isxdigit (first (t.drop 2)) = true then
        strtoulDigits 16 0 (t.drop 2)
      else strtoulDigits 10 0 (if first t = 0x30 then t.drop 1 else t) := by
  rw [simpleStrtoul]
  by_cases hzero : first t = 0x30
  · simp [hzero]
  · simp [hzero]

/-- Digits that are all decimal are read to the end. -/
theorem strtoulDigits_ten {n : ℕ} (h : ∀ c ∈ t, isdigit c = true) :
    strtoulDigits 10 (UInt32.ofNat n) t =
      (UInt32.ofNat (t.foldl (fun n c ↦ n * 10 + (c.toNat - 0x30)) n), []) := by
  have hall : ∀ c ∈ t, isDigitOf 10 c = true := fun c hc ↦ (isDigitOf_ten c).trans (h c hc)
  rw [strtoulDigits_eq, List.takeWhile_eq_self_iff.mpr hall, List.dropWhile_eq_nil_iff.mpr hall]
  congr 2
  apply List.foldl_ext
  intro n c hc
  rw [digitValue_of_isdigit (h c hc)]

theorem strtoulDigits_end {base : ℕ} (h : (strtoulDigits base 0 t).2 = []) :
    ∀ c ∈ t, isDigitOf base c = true := by
  have heq := strtoulDigits_eq base 0 t
  change strtoulDigits base 0 t = _ at heq
  rw [heq] at h
  exact List.dropWhile_eq_nil_iff.mp h

theorem number_of_decimal (h : IsDecimal t) :
    number t = some (asInt (UInt32.ofNat (decimalValue t))) := by
  obtain ⟨hne, hall⟩ := h
  obtain ⟨c, t, rfl⟩ := List.exists_cons_of_ne_nil hne
  have hread : simpleStrtoul (c :: t) 10 = (UInt32.ofNat (decimalValue (c :: t)), []) := by
    rw [simpleStrtoul_ten, if_neg]
    · split_ifs with hzero
      · change c = 0x30 at hzero
        subst hzero
        exact strtoulDigits_ten fun d hd ↦ hall d (List.mem_cons_of_mem _ hd)
      · exact strtoulDigits_ten hall
    · rintro ⟨-, hx, -⟩
      cases t with
      | nil => exact absurd hx (by simp [first])
      | cons d t =>
        have hd := hall d (by simp)
        change d = 0x78 at hx
        rw [hx] at hd
        exact absurd hd (by decide)
  rw [number, hread, if_neg (by simp)]

/-- A number that is read to its end is decimal, or hexadecimal behind `0x`. -/
theorem number_cases {n : ℤ} (h : number t = some n) :
    IsDecimal t ∨ ∃ u, t = 0x30 :: 0x78 :: u ∧ ∀ c ∈ u, isxdigit c = true := by
  rw [number] at h
  split_ifs at h with hend
  rw [not_or, not_not] at hend
  obtain ⟨hne, hend⟩ := hend
  have ht : t ≠ [] := fun ht ↦ hne (hend.trans ht.symm)
  rw [simpleStrtoul_ten] at hend
  split_ifs at hend with hhex hzero
  · obtain ⟨h₀, hx, -⟩ := hhex
    have hall := strtoulDigits_end hend
    obtain _ | ⟨c, _ | ⟨d, u⟩⟩ := t
    · exact absurd rfl ht
    · exact absurd hx (by simp [first])
    · change c = 0x30 at h₀
      change d = 0x78 at hx
      exact .inr ⟨u, by rw [h₀, hx], fun c hc ↦ (Bool.and_eq_true_iff.mp (hall c hc)).1⟩
  · have hall := strtoulDigits_end hend
    obtain ⟨c, t, rfl⟩ := List.exists_cons_of_ne_nil ht
    change c = 0x30 at hzero
    refine .inl ⟨ht, fun d hd ↦ ?_⟩
    rcases List.mem_cons.mp hd with rfl | hd
    · rw [hzero]
      rfl
    · exact (isDigitOf_ten d).symm.trans (hall d hd)
  · have hall := strtoulDigits_end hend
    exact .inl ⟨ht, fun d hd ↦ (isDigitOf_ten d).symm.trans (hall d hd)⟩

theorem number_chars {n : ℤ} (h : number t = some n) : colon ∉ t ∧ dash ∉ t := by
  rcases number_cases h with ⟨-, hall⟩ | ⟨u, rfl, hall⟩
  · exact ⟨fun hc ↦ absurd (hall _ hc) (by decide), fun hc ↦ absurd (hall _ hc) (by decide)⟩
  · have hmem (c : UInt8) (hne : isxdigit c = false) (h₀ : c ≠ 0x30) (h₁ : c ≠ 0x78) :
        c ∉ 0x30 :: 0x78 :: u := by
      intro hc
      simp only [List.mem_cons, h₀, h₁, false_or] at hc
      exact Bool.false_ne_true (hne.symm.trans (hall c hc))
    exact ⟨hmem _ (by decide) (by decide) (by decide), hmem _ (by decide) (by decide) (by decide)⟩

theorem asInt_ofNat {n : ℕ} (h : n < 2147483648) : asInt (UInt32.ofNat n) = n := by
  have hn : (UInt32.ofNat n).toNat = n := UInt32.toNat_ofNat_of_lt' (h.trans (by decide))
  rw [asInt, hn, if_pos h]

theorem Plain.number (h : Plain t) : number t = decimalNumber t := by
  rw [number_of_decimal h.1, asInt_ofNat h.2, decimalNumber, if_pos h.1]

theorem decimalNumber_eq_some {n : ℤ} :
    decimalNumber t = some n ↔ IsDecimal t ∧ (decimalValue t : ℤ) = n := by
  rw [decimalNumber]
  split_ifs with h
  · simp [h]
  · simp [h]

end Numbers

section Grammar

variable {flash : FlashTable} {str : CStr} {f f' : Fields} {bank first last : ℤ}

/-- No field has a separator in it. -/
def Fields.Separated (f : Fields) : Prop := ∀ t ∈ f.numbers, colon ∉ t ∧ dash ∉ t

/-- The fields that `abbrev_spec` finds in a string with a colon. -/
def fieldsOf (str : CStr) : Option Fields :=
  (cut str colon).map fun r ↦
    (cut r.2 dash).elim ⟨r.1, r.2, none⟩ fun q ↦ ⟨r.1, q.1, some q.2⟩

theorem text_of_fieldsOf (h : fieldsOf str = some f) : str = f.text := by
  obtain ⟨⟨b, p⟩, hcut, hparts⟩ := Option.map_eq_some_iff.mp h
  obtain ⟨rfl, -⟩ := cut_eq_some.mp hcut
  dsimp only at hparts
  cases hdash : cut p dash with
  | none =>
    rw [hdash] at hparts
    cases hparts
    simp [Fields.text]
  | some q =>
    rw [hdash] at hparts
    cases hparts
    rw [(cut_eq_some.mp hdash).1]
    rfl

theorem Fields.Separated.fieldsOf (h : f.Separated) : fieldsOf f.text = some f := by
  obtain ⟨b, p, l⟩ := f
  have hb := (h b (by simp [Fields.numbers])).1
  have hp := (h p (by simp [Fields.numbers])).2
  have htext : cut (Fields.text ⟨b, p, l⟩) colon = some (b, p ++ l.elim [] (dash :: ·)) :=
    cut_eq_some.mpr ⟨rfl, hb⟩
  rw [AbbrevSpec.fieldsOf, htext, Option.map_some]
  cases l with
  | none =>
    have hdash : cut (p ++ []) dash = none := cut_eq_none.mpr (by rwa [List.append_nil])
    rw [Option.elim_none, hdash, List.append_nil]
    rfl
  | some l =>
    have hdash : cut (p ++ dash :: l) dash = some (p, l) := cut_eq_some.mpr ⟨rfl, hp⟩
    rw [Option.elim_some, hdash]
    rfl

/-- What `abbrev_spec` makes of its fields. -/
def judge (flash : FlashTable) (f : Fields) : Abbrev :=
  ((number f.bank).bind fun bank ↦ (findBank flash bank).map fun fp ↦ (bank, fp)).elim .bad
    fun r ↦ sectorRange r.1 r.2 f.first f.last

theorem abbrevSpec_eq (flash : FlashTable) (str : CStr) :
    abbrevSpec flash str = (fieldsOf str).elim .other (judge flash) := by
  rw [abbrevSpec, fieldsOf]
  cases cut str colon with
  | none => rfl
  | some r =>
    rw [Option.map_some, Option.elim_some, judge]
    obtain ⟨b, p⟩ := r
    dsimp only
    cases cut p dash with
    | none =>
      dsimp only [Option.elim_none]
      cases (number b).bind fun bank ↦ (findBank flash bank).map fun fp ↦ (bank, fp) <;> rfl
    | some q =>
      dsimp only [Option.elim_some]
      cases (number b).bind fun bank ↦ (findBank flash bank).map fun fp ↦ (bank, fp) <;> rfl

theorem sectorRange_eq_found {fp : FlashInfo} {b : ℤ} {p : CStr} {l : Option CStr} :
    sectorRange b fp p l = .found bank first last ↔
      b = bank ∧ number p = some first ∧ l.elim (some first) number = some last ∧
        first ≤ last ∧ last < fp.sectors := by
  rw [sectorRange]
  cases hp : number p with
  | none => simp
  | some n =>
    dsimp only
    split_ifs with hbig
    · refine iff_of_false (by simp) ?_
      rintro ⟨-, hfirst, -, hle, hlt⟩
      cases hfirst
      omega
    · cases l with
      | none =>
        dsimp only [Option.elim_none]
        constructor
        · intro h
          cases h
          exact ⟨rfl, rfl, rfl, by omega, by omega⟩
        · rintro ⟨rfl, hfirst, hlast, -, -⟩
          cases hfirst
          cases hlast
          rfl
      | some l =>
        dsimp only [Option.elim_some]
        cases number l with
        | none => simp
        | some k =>
          dsimp only
          split_ifs with hrange
          · refine iff_of_false (by simp) ?_
            rintro ⟨-, hfirst, hlast, hle, hlt⟩
            cases hfirst
            cases hlast
            omega
          · constructor
            · intro h
              cases h
              exact ⟨rfl, rfl, rfl, by omega, by omega⟩
            · rintro ⟨rfl, hfirst, hlast, -, -⟩
              cases hfirst
              cases hlast
              rfl

theorem judge_eq_found :
    judge flash f = .found bank first last ↔ f.Name number flash bank first last := by
  rw [judge]
  constructor
  · intro h
    cases hbank : (number f.bank).bind fun bank ↦ (findBank flash bank).map fun fp ↦ (bank, fp) with
    | none =>
      rw [hbank] at h
      cases h
    | some r =>
      rw [hbank, Option.elim_some, sectorRange_eq_found] at h
      obtain ⟨rfl, hfirst, hlast, hle, hlt⟩ := h
      obtain ⟨b, hb, hr⟩ := Option.bind_eq_some_iff.mp hbank
      obtain ⟨fp, hfp, rfl⟩ := Option.map_eq_some_iff.mp hr
      exact ⟨hb, hfirst, hlast, ⟨fp, hfp, hlt⟩, hle⟩
  · intro h
    obtain ⟨fp, hfp, hlt⟩ := h.known
    rw [h.readBank, Option.bind_some, hfp, Option.map_some, Option.elim_some, sectorRange_eq_found]
    exact ⟨rfl, h.readFirst, h.readLast, h.ordered, hlt⟩

/-- Fields that are read as numbers have no separators in them. -/
theorem Fields.Name.separated {read : CStr → Option ℤ}
    (hread : ∀ t n, read t = some n → colon ∉ t ∧ dash ∉ t) (h : f.Name read flash bank first last) :
    f.Separated := by
  intro t ht
  have hlast := h.readLast
  simp only [Fields.numbers, List.mem_cons, Option.mem_toList] at ht
  rcases ht with rfl | rfl | ht
  · exact hread _ _ h.readBank
  · exact hread _ _ h.readFirst
  · rw [Option.mem_def.mp ht] at hlast
    exact hread _ _ hlast

theorem number_separated (t : CStr) (n : ℤ) (h : number t = some n) : colon ∉ t ∧ dash ∉ t :=
  number_chars h

theorem decimal_separated (t : CStr) (n : ℤ) (h : decimalNumber t = some n) :
    colon ∉ t ∧ dash ∉ t :=
  number_chars (number_of_decimal (decimalNumber_eq_some.mp h).1)

/-- The strings that `abbrev_spec` accepts. -/
theorem abbrevSpec_eq_found :
    abbrevSpec flash str = .found bank first last ↔
      ∃ f : Fields, str = f.text ∧ f.Name number flash bank first last := by
  rw [abbrevSpec_eq]
  constructor
  · intro h
    cases hf : fieldsOf str with
    | none =>
      rw [hf] at h
      cases h
    | some f =>
      rw [hf, Option.elim_some, judge_eq_found] at h
      exact ⟨f, text_of_fieldsOf hf, h⟩
  · rintro ⟨f, rfl, h⟩
    rw [(h.separated number_separated).fieldsOf, Option.elim_some, judge_eq_found]
    exact h

theorem sectorRange_ne_other (b : ℤ) (fp : FlashInfo) (p : CStr) (l : Option CStr) :
    sectorRange b fp p l ≠ .other := by
  rw [sectorRange]
  repeat' split
  all_goals simp

theorem judge_ne_other : judge flash f ≠ .other := by
  rw [judge]
  cases (number f.bank).bind fun bank ↦ (findBank flash bank).map fun fp ↦ (bank, fp) with
  | none => simp
  | some r => exact sectorRange_ne_other _ _ _ _

theorem abbrevSpec_eq_other : abbrevSpec flash str = .other ↔ colon ∉ str := by
  rw [abbrevSpec_eq, ← cut_eq_none, fieldsOf]
  cases cut str colon with
  | none => exact iff_of_true rfl rfl
  | some r => exact iff_of_false judge_ne_other (by simp)

theorem findBank_range {fp : FlashInfo} (h : findBank flash bank = some fp) :
    1 ≤ bank ∧ bank ≤ flash.info.length := by
  rw [findBank] at h
  split_ifs at h with hrange
  omega

/-- Numbers that name sectors are small. -/
theorem Fields.Name.plain (h : f.Name decimalNumber flash bank first last) :
    ∀ t ∈ f.numbers, Plain t := by
  obtain ⟨fp, hfp, hlt⟩ := h.known
  have hbanks := flash.banks_lt
  have hsectors := fp.sectors_lt
  obtain ⟨-, hle⟩ := findBank_range hfp
  have hordered := h.ordered
  have hplain (t : CStr) (n : ℤ) (ht : decimalNumber t = some n) (hn : n < 2147483648) :
      Plain t := by
    obtain ⟨hdecimal, hvalue⟩ := decimalNumber_eq_some.mp ht
    exact ⟨hdecimal, by omega⟩
  intro t ht
  have hlast := h.readLast
  simp only [Fields.numbers, List.mem_cons, Option.mem_toList] at ht
  rcases ht with rfl | rfl | ht
  · exact hplain _ _ h.readBank (by omega)
  · exact hplain _ _ h.readFirst (by omega)
  · rw [Option.mem_def.mp ht] at hlast
    exact hplain _ _ hlast (by omega)

theorem name_congr (h : ∀ t ∈ f.numbers, Plain t) :
    f.Name number flash bank first last ↔ f.Name decimalNumber flash bank first last := by
  have hbank : number f.bank = decimalNumber f.bank := (h _ (by simp [Fields.numbers])).number
  have hfirst : number f.first = decimalNumber f.first := (h _ (by simp [Fields.numbers])).number
  have hlast : f.last.elim (some first) number = f.last.elim (some first) decimalNumber := by
    cases hl : f.last with
    | none => rfl
    | some l => exact (h l (by simp [Fields.numbers, hl])).number
  constructor
  · intro hname
    exact ⟨hbank ▸ hname.readBank, hfirst ▸ hname.readFirst, hlast ▸ hname.readLast, hname.known,
      hname.ordered⟩
  · intro hname
    exact ⟨hbank ▸ hname.readBank, hfirst ▸ hname.readFirst, hlast ▸ hname.readLast, hname.known,
      hname.ordered⟩

theorem found_of_names (h : Names flash str bank first last) :
    abbrevSpec flash str = .found bank first last := by
  obtain ⟨f, htext, hname⟩ := h
  exact abbrevSpec_eq_found.mpr ⟨f, htext, (name_congr hname.plain).mpr hname⟩

/-- `abbrev_spec` is correct exactly on the strings that it does not misread. -/
theorem abbrev_spec_correct_iff (flash : FlashTable) (str : CStr) :
    Correct flash str ↔ ¬ Misread flash str := by
  constructor
  · rintro h ⟨f, bank, first, last, rfl, hname, t, ht, hbad⟩
    -- the fields of the text are unique, so that the grammar names the same numbers
    obtain ⟨f', htext, hname'⟩ :=
      (h.found bank first last).mp (abbrevSpec_eq_found.mpr ⟨f, rfl, hname⟩)
    have hf := (hname.separated number_separated).fieldsOf
    rw [htext, (hname'.separated decimal_separated).fieldsOf] at hf
    cases hf
    exact hbad (hname'.plain t ht)
  · intro h
    have hfound (bank first last : ℤ) :
        abbrevSpec flash str = .found bank first last ↔ Names flash str bank first last := by
      refine ⟨fun hfound ↦ ?_, found_of_names⟩
      obtain ⟨f, htext, hname⟩ := abbrevSpec_eq_found.mp hfound
      have hplain : ∀ t ∈ f.numbers, Plain t := fun t ht ↦
        not_not.mp fun hbad ↦ h ⟨f, bank, first, last, htext, hname, t, ht, hbad⟩
      exact ⟨f, htext, (name_congr hplain).mp hname⟩
    refine ⟨hfound, abbrevSpec_eq_other, ?_⟩
    constructor
    · intro hbad
      refine ⟨not_not.mp fun hcolon ↦ ?_, fun bank first last hnames ↦ ?_⟩
      · cases hbad.symm.trans (abbrevSpec_eq_other.mpr hcolon)
      · cases hbad.symm.trans (found_of_names hnames)
    · rintro ⟨hcolon, hnone⟩
      cases hresult : abbrevSpec flash str with
      | other => exact absurd hcolon (abbrevSpec_eq_other.mp hresult)
      | bad => rfl
      | found bank first last => exact absurd ((hfound bank first last).mp hresult) (hnone _ _ _)

end Grammar

/-- One bank with 64 sectors of 64 KiB. -/
def oneBank : FlashTable where
  info := [⟨0x400000, 64, 0x1234, fun k ↦ 0xbf000000 + k * 0x10000, fun _ ↦ 0⟩]
  banks_lt := by decide

/-- 4294967295 is the sector -1, below 64. -/
theorem abbrev_spec_misreads : ¬ Correct oneBank (ascii "1:4294967295") := by
  intro h
  have hfound : abbrevSpec oneBank (ascii "1:4294967295") = .found 1 (-1) (-1) := by
    decide +kernel
  obtain ⟨f, -, hname⟩ := (h.found 1 (-1) (-1)).mp hfound
  obtain ⟨-, hvalue⟩ := decimalNumber_eq_some.mp hname.readFirst
  omega

end UBoot.Common.AbbrevSpec
