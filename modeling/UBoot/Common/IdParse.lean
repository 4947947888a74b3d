import UBoot.Common.AbbrevSpec
import UBoot.Common.CmdJffs2

namespace UBoot.Common.IdParse

open Lib.CString LibGeneric.Vsprintf CmdJffs2 AbbrevSpec

/-- The macro `MTD_DEV_TYPE`. -/
def mtdDevType : DevType → CStr
  | .nor => ascii "nor"
  | .nand => ascii "nand"

def devTypeParse (id : CStr) : Option (DevType × CStr) :=
  if hasPrefix id (ascii "nand") then some (.nand, id.drop 4)
  else if hasPrefix id (ascii "nor") then some (.nor, id.drop 3)
  else none

/-- What is behind the number, the type, and the number in 8 bits. -/
def idParse (id : CStr) : Option (CStr × DevType × UInt8) := do
  let (type, p) ← devTypeParse id
  if isdigit (first p) then
    let r := simpleStrtoul p 0
    return (r.2, type, r.1.toUInt8)
  else none

def digitsValue (base : ℕ) (ds : CStr) : ℕ := ds.foldl (fun n c ↦ n * base + digitValue c) 0

/-- The notations that `simple_strtoul` knows, with the number read without a bound. -/
inductive Numeral : CStr → ℕ → Prop
  | dec {t : CStr} : t ≠ [] → first t ≠ 0x30 → (∀ c ∈ t, isDigitOf 10 c = true) →
      Numeral t (digitsValue 10 t)
  | oct {t : CStr} : (∀ c ∈ t, isDigitOf 8 c = true) → Numeral (0x30 :: t) (digitsValue 8 t)
  | hex {t : CStr} : t ≠ [] → (∀ c ∈ t, isDigitOf 16 c = true) →
      Numeral (0x30 :: 0x78 :: t) (digitsValue 16 t)

section Numbers

variable {t rest p : CStr} {n : ℕ}

theorem isxdigit_of_isDigitOf {base : ℕ} {c : UInt8} (h : isDigitOf base c = true) :
    isxdigit c = true :=
  (Bool.and_eq_true_iff.mp h).1

theorem isDigitOf_sixteen (c : UInt8) : isDigitOf 16 c = isxdigit c := by
  rw [isDigitOf]
  by_cases hx : isxdigit c = true
  · have hletter : (0x61 : UInt8).toNat = 0x61 := rfl
    have hlt : digitValue c < 16 := by
      rw [digitValue]
      rcases (isxdigit_iff c).mp hx with hc | hc | hc
      · have hrange := (isdigit_iff c).mp hc
        rw [if_pos hc]
        omega
      all_goals
        rw [if_neg (by rw [isdigit_iff]; omega)]
        split_ifs with hle
        all_goals
          rw [UInt8.le_iff_toNat_le, hletter] at hle
          omega
    rw [hx, decide_eq_true hlt, Bool.and_self]
  · rw [Bool.eq_false_iff.mpr hx, Bool.false_and]

/-- Digits are read up to the first character that is none. -/
theorem strtoulDigits_append {base : ℕ} {ds : CStr} (hds : ∀ c ∈ ds, isDigitOf base c = true)
    (hrest : isxdigit (first rest) = false) :
    strtoulDigits base 0 (ds ++ rest) = (UInt32.ofNat (digitsValue base ds), rest) := by
  have hstop : rest.takeWhile (isDigitOf base) = [] ∧ rest.dropWhile (isDigitOf base) = rest := by
    cases rest with
    | nil => exact ⟨rfl, rfl⟩
    | cons c rest =>
      have hc : ¬ isDigitOf base c = true := by
        intro hc
        exact Bool.false_ne_true (hrest.symm.trans (isxdigit_of_isDigitOf hc))
      exact ⟨List.takeWhile_cons_of_neg hc, List.dropWhile_cons_of_neg hc⟩
  have heq := strtoulDigits_eq base 0 (ds ++ rest)
  rw [List.takeWhile_append_of_pos hds, List.dropWhile_append_of_pos hds, hstop.1, hstop.2,
    List.append_nil] at heq
  exact heq

theorem first_append (h : t ≠ []) : first (t ++ rest) = first t := by
  obtain ⟨c, t, rfl⟩ := List.exists_cons_of_ne_nil h
  rfl

theorem first_mem (h : t ≠ []) : first t ∈ t := by
  obtain ⟨c, t, rfl⟩ := List.exists_cons_of_ne_nil h
  exact List.mem_cons_self

theorem simpleStrtoul_append (h : Numeral t n) (hrest : isxdigit (first rest) = false)
    (hx : first rest ≠ 0x78) : simpleStrtoul (t ++ rest) 0 = (UInt32.ofNat n, rest) := by
  cases h with
  | dec hne hzero hall =>
    rw [simpleStrtoul, first_append hne, if_neg hzero, if_pos rfl]
    exact strtoulDigits_append hall hrest
  | @oct t hall =>
    have hoct : first (t ++ rest) ≠ 0x78 := by
      by_cases hnil : t = []
      · rw [hnil]
        exact hx
      · rw [first_append hnil]
        intro heq
        have hdigit := isxdigit_of_isDigitOf (hall _ (first_mem hnil))
        rw [heq] at hdigit
        exact Bool.false_ne_true hdigit
    rw [simpleStrtoul, List.cons_append, first_cons, if_pos rfl, List.drop_one, List.tail_cons,
      if_neg (fun h ↦ hoct h.1), if_pos rfl]
    exact strtoulDigits_append hall hrest
  | @hex t hne hall =>
    have hdigit : isxdigit (first (t ++ rest)) = true := by
      rw [first_append hne]
      exact isxdigit_of_isDigitOf (hall _ (first_mem hne))
    rw [simpleStrtoul]
    change (if (0x30 : UInt8) = 0x30 then
      if (0x78 : UInt8) = 0x78 ∧ isxdigit (first (t ++ rest)) = true then
        strtoulDigits 16 0 (t ++ rest) else _ else _) = _
    rw [if_pos rfl, if_pos ⟨rfl, hdigit⟩]
    exact strtoulDigits_append hall hrest

theorem strtoulDigits_split (base : ℕ) (p : CStr) :
    ∃ ds, p = ds ++ (strtoulDigits base 0 p).2 ∧ (∀ c ∈ ds, isDigitOf base c = true) ∧
      (strtoulDigits base 0 p).1 = UInt32.ofNat (digitsValue base ds) ∧
      (isDigitOf base (first p) = true → p ≠ [] → ds ≠ []) := by
  have heq : strtoulDigits base 0 p = _ := strtoulDigits_eq base 0 p
  refine ⟨p.takeWhile (isDigitOf base), ?_, ?_, ?_, ?_⟩
  · rw [heq, List.takeWhile_append_dropWhile]
  · exact fun c hc ↦ List.mem_takeWhile_imp hc
  · rw [heq]
    rfl
  · intro hfirst hne
    obtain ⟨c, p, rfl⟩ := List.exists_cons_of_ne_nil hne
    rw [List.takeWhile_cons_of_pos (by exact hfirst)]
    exact List.cons_ne_nil _ _

/-- What is read at a digit is a number. -/
theorem numeral_of_simpleStrtoul (hdigit : isdigit (first p) = true) :
    ∃ t n, p = t ++ (simpleStrtoul p 0).2 ∧ Numeral t n ∧
      (simpleStrtoul p 0).1 = UInt32.ofNat n := by
  have hp : p ≠ [] := by
    rintro rfl
    exact absurd hdigit (by decide)
  by_cases hzero : first p = 0x30
  · obtain ⟨c, q, rfl⟩ := List.exists_cons_of_ne_nil hp
    rw [first_cons] at hzero
    subst hzero
    by_cases hhex : first q = 0x78 ∧ isxdigit (first (q.drop 1)) = true
    · have hread : simpleStrtoul (0x30 :: q) 0 = strtoulDigits 16 0 (q.drop 1) := by
        rw [simpleStrtoul, first_cons, if_pos rfl, List.drop_one, List.tail_cons, if_pos]
        · rfl
        · exact hhex
      obtain _ | ⟨d, q⟩ := q
      · exact absurd hhex.1 (by decide)
      obtain ⟨hx, hdigit⟩ := hhex
      rw [first_cons] at hx
      subst hx
      obtain ⟨ds, hq, hall, hvalue, hne⟩ := strtoulDigits_split 16 q
      have hq' : q ≠ [] := by
        rintro rfl
        exact absurd hdigit (by decide)
      rw [hread]
      refine ⟨0x30 :: 0x78 :: ds, _, ?_, .hex (hne ?_ hq') hall, hvalue⟩
      · rw [List.cons_append, List.cons_append]
        congr 2
      · rw [isDigitOf_sixteen]
        exact hdigit
    · have hread : simpleStrtoul (0x30 :: q) 0 = strtoulDigits 8 0 q := by
        rw [simpleStrtoul, first_cons, if_pos rfl, List.drop_one, List.tail_cons, if_neg, if_pos rfl]
        exact hhex
      obtain ⟨ds, hq, hall, hvalue, -⟩ := strtoulDigits_split 8 q
      rw [hread]
      refine ⟨0x30 :: ds, _, ?_, .oct hall, hvalue⟩
      rw [List.cons_append, ← hq]
  · have hread : simpleStrtoul p 0 = strtoulDigits 10 0 p := by
      rw [simpleStrtoul, if_neg hzero, if_pos rfl]
    obtain ⟨ds, hq, hall, hvalue, hne⟩ := strtoulDigits_split 10 p
    have hds := hne ((isDigitOf_ten _).trans hdigit) hp
    rw [hread]
    refine ⟨ds, _, hq, .dec hds ?_ hall, hvalue⟩
    rw [hq, first_append hds] at hzero
    exact hzero

theorem Numeral.mem (h : Numeral t n) : ∀ c ∈ t, isxdigit c = true ∨ c = 0x78 := by
  cases h with
  | dec _ _ hall => exact fun c hc ↦ Or.inl (isxdigit_of_isDigitOf (hall c hc))
  | oct hall =>
    intro c hc
    rcases List.mem_cons.mp hc with rfl | hin
    · exact Or.inl (by decide)
    · exact Or.inl (isxdigit_of_isDigitOf (hall c hin))
  | hex _ hall =>
    intro c hc
    rcases List.mem_cons.mp hc with rfl | hc
    · exact Or.inl (by decide)
    · rcases List.mem_cons.mp hc with rfl | hin
      · exact Or.inr rfl
      · exact Or.inl (isxdigit_of_isDigitOf (hall c hin))

theorem Numeral.notMem {c : UInt8} (h : Numeral t n) (hc : isxdigit c = false) (hx : c ≠ 0x78) :
    c ∉ t := by
  intro hin
  rcases h.mem c hin with hdigit | rfl
  · exact Bool.false_ne_true (hc.symm.trans hdigit)
  · exact hx rfl

theorem Numeral.isdigit_first (h : Numeral t n) : isdigit (first t) = true := by
  cases h with
  | dec hne _ hall =>
    rw [← isDigitOf_ten]
    exact hall _ (first_mem hne)
  | oct => rfl
  | hex => rfl

theorem Numeral.ne_nil (h : Numeral t n) : t ≠ [] := by
  rintro rfl
  exact absurd h.isdigit_first (by decide)

theorem Numeral.unique {m : ℕ} (h : Numeral t n) (h' : Numeral t m) : n = m := by
  cases h with
  | dec _ hzero =>
    cases h' with
    | dec => rfl
    | oct => exact absurd rfl hzero
    | hex => exact absurd rfl hzero
  | oct hall =>
    cases h' with
    | dec _ hzero => exact absurd rfl hzero
    | oct => rfl
    | hex => exact absurd (hall 0x78 List.mem_cons_self) (by decide)
  | hex _ _ =>
    cases h' with
    | dec _ hzero => exact absurd rfl hzero
    | oct hall => exact absurd (hall 0x78 List.mem_cons_self) (by decide)
    | hex => rfl

end Numbers

section Id

variable {id t rest : CStr} {type : DevType} {num : UInt8} {n : ℕ}

theorem devTypeParse_append (type : DevType) (p : CStr) :
    devTypeParse (mtdDevType type ++ p) = some (type, p) := by
  cases type <;> simp [devTypeParse, mtdDevType, hasPrefix, ascii]

theorem devTypeParse_eq_some {p : CStr} (h : devTypeParse id = some (type, p)) :
    id = mtdDevType type ++ p := by
  rw [devTypeParse] at h
  split_ifs at h with hnand hnor
  · cases h
    obtain ⟨rest, rfl⟩ := List.isPrefixOf_iff_prefix.mp hnand
    rfl
  · cases h
    obtain ⟨rest, rfl⟩ := List.isPrefixOf_iff_prefix.mp hnor
    rfl

/-- The type and the number in front of a mark are read in one way. -/
theorem id_inj {type' : DevType} {t' u u' : CStr} {n' : ℕ} {c : UInt8} (hc : isxdigit c = false)
    (hx : c ≠ 0x78) (ht : Numeral t n) (ht' : Numeral t' n')
    (h : mtdDevType type ++ (t ++ c :: u) = mtdDevType type' ++ (t' ++ c :: u')) :
    type = type' ∧ n = n' ∧ u = u' := by
  have htype : type = type' := by
    cases type <;> cases type' <;> simp_all [mtdDevType, ascii]
  subst htype
  have hcut : cut (t ++ c :: u) c = some (t, u) := cut_eq_some.mpr ⟨rfl, ht.notMem hc hx⟩
  rw [List.append_cancel_left h, cut_eq_some.mpr ⟨rfl, ht'.notMem hc hx⟩] at hcut
  cases hcut
  exact ⟨rfl, ht.unique ht', rfl⟩

theorem idParse_append (type : DevType) (h : Numeral t n) (hrest : isxdigit (first rest) = false)
    (hx : first rest ≠ 0x78) :
    idParse (mtdDevType type ++ (t ++ rest)) = some (rest, type, UInt8.ofNat n) := by
  rw [idParse, devTypeParse_append]
  simp only [Option.bind_eq_bind, Option.bind_some]
  rw [first_append h.ne_nil, if_pos h.isdigit_first, simpleStrtoul_append h hrest hx]
  simp

theorem exists_of_idParse (h : idParse id = some (rest, type, num)) :
    ∃ t n, id = mtdDevType type ++ (t ++ rest) ∧ Numeral t n ∧ num = UInt8.ofNat n := by
  rw [idParse] at h
  simp only [Option.bind_eq_bind, Option.bind_eq_some_iff] at h
  obtain ⟨⟨type', p⟩, htype, h⟩ := h
  simp only at h
  split_ifs at h with hdigit
  obtain ⟨t, n, hp, hnum, hvalue⟩ := numeral_of_simpleStrtoul hdigit
  cases h
  refine ⟨t, n, ?_, hnum, ?_⟩
  · rw [← hp]
    exact devTypeParse_eq_some htype
  · rw [hvalue]
    simp

end Id

end UBoot.Common.IdParse
