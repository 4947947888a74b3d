import Mathlib.Data.Nat.Digits.Defs
import Mathlib.Data.Nat.Digits.Lemmas
import UBoot.Lib.CString

namespace UBoot.LibGeneric.Vsprintf

open Lib.CString

def isdigit (c : UInt8) : Bool := 0x30 ≤ c && c ≤ 0x39

def isxdigit (c : UInt8) : Bool := isdigit c || (0x41 ≤ c && c ≤ 0x46) || (0x61 ≤ c && c ≤ 0x66)

/-- The value of a hexadecimal digit, letters folded to upper case. -/
def digitValue (c : UInt8) : ℕ :=
  if isdigit c then c.toNat - 0x30 else (if 0x61 ≤ c then c.toNat - 0x20 else c.toNat) - 0x41 + 10

def strtoulDigits (base : ℕ) (result : UInt32) : CStr → UInt32 × CStr
  | [] => (result, [])
  | c :: cp =>
    if isxdigit c && digitValue c < base then
      strtoulDigits base (result * UInt32.ofNat base + UInt32.ofNat (digitValue c)) cp
    else (result, c :: cp)

/-- `simple_strtoul(cp, &endp, base)`: the value and the text at `endp`. -/
def simpleStrtoul (cp : CStr) (base : ℕ) : UInt32 × CStr :=
  if first cp = 0x30 then
    if first (cp.drop 1) = 0x78 ∧ isxdigit (first (cp.drop 2)) = true then
      strtoulDigits 16 0 (cp.drop 2)
    else strtoulDigits (if base = 0 then 8 else base) 0 (cp.drop 1)
  else strtoulDigits (if base = 0 then 10 else base) 0 cp

def simpleStrtol (cp : CStr) (base : ℕ) : UInt32 :=
  if first cp = 0x2d then -(simpleStrtoul (cp.drop 1) base).1 else (simpleStrtoul cp base).1

example : simpleStrtol (ascii "1446") 0 = 1446 ∧ simpleStrtol (ascii "0x10") 0 = 16 ∧
    simpleStrtol (ascii "010") 0 = 8 := by decide

/-- A decimal number as it is printed. -/
def decimal (n : ℕ) : CStr := (Nat.digits 10 n).reverse.map fun d ↦ UInt8.ofNat (0x30 + d)

/-- A digit of `number` with the flag `LARGE`. -/
def hexDigit (d : ℕ) : UInt8 := UInt8.ofNat (if d < 10 then 0x30 + d else 0x37 + d)

/-- `number` for the format `%0<size>X`. -/
def numberHex (size n : ℕ) : CStr :=
  let tmp := if n = 0 then [0] else Nat.digits 16 n
  List.replicate (size - tmp.length) (hexDigit 0) ++ tmp.reverse.map hexDigit

/-- `number` for the format `%lu`. -/
def numberDec (n : ℕ) : CStr := if n = 0 then [0x30] else decimal n

/-- A digit of `number` without the flag `LARGE`. -/
def hexDigitSmall (d : ℕ) : UInt8 := UInt8.ofNat (if d < 10 then 0x30 + d else 0x57 + d)

/-- `number` for the format `%0<size>x`. -/
def numberHexSmall (size n : ℕ) : CStr :=
  let tmp := if n = 0 then [0] else Nat.digits 16 n
  List.replicate (size - tmp.length) (hexDigitSmall 0) ++ tmp.reverse.map hexDigitSmall

theorem digit_char : ∀ d < 10, isxdigit (UInt8.ofNat (0x30 + d)) = true ∧
    digitValue (UInt8.ofNat (0x30 + d)) = d := by
  decide

theorem strtoulDigits_stop {base : ℕ} (hbase : base ≤ 10) (m : UInt32) {rest : CStr}
    (h : isdigit (first rest) = false) : strtoulDigits base m rest = (m, rest) := by
  cases rest with
  | nil => rfl
  | cons c rest =>
    have hc : isdigit c = false := h
    have hvalue : ¬ digitValue c < base := by
      rw [digitValue, if_neg (by simp [hc])]
      omega
    rw [strtoulDigits, if_neg (by simp [hvalue])]

theorem strtoulDigits_decimal (ds : List ℕ) (hds : ∀ d ∈ ds, d < 10) (m : ℕ) {rest : CStr}
    (hrest : isdigit (first rest) = false) :
    strtoulDigits 10 (UInt32.ofNat m) ((ds.map fun d ↦ UInt8.ofNat (0x30 + d)) ++ rest) =
      (UInt32.ofNat (ds.foldl (fun m d ↦ m * 10 + d) m), rest) := by
  induction ds generalizing m with
  | nil => exact strtoulDigits_stop (Nat.le_refl 10) _ hrest
  | cons d ds ih =>
    have hd := hds d (by simp)
    obtain ⟨hx, hv⟩ := digit_char d hd
    rw [List.map_cons, List.cons_append, strtoulDigits, hx, hv, if_pos (by simpa using hd),
      List.foldl_cons, ← ih (fun e he ↦ hds e (by simp [he])), UInt32.ofNat_add, UInt32.ofNat_mul]

theorem foldl_digits (n : ℕ) :
    (Nat.digits 10 n).reverse.foldl (fun m d ↦ m * 10 + d) 0 = n := by
  conv_rhs => rw [← Nat.ofDigits_digits 10 n]
  rw [List.foldl_reverse, Nat.ofDigits_eq_foldr]
  congr 1
  funext d m
  simp [Nat.mul_comm, Nat.add_comm]

theorem first_decimal {n : ℕ} (h : 0 < n) :
    ∃ d, 0 < d ∧ d < 10 ∧ first (decimal n) = UInt8.ofNat (0x30 + d) := by
  have hne : Nat.digits 10 n ≠ [] := Nat.digits_ne_nil_iff_ne_zero.mpr (by omega)
  refine ⟨(Nat.digits 10 n).getLast hne, ?_, ?_, ?_⟩
  · exact Nat.pos_of_ne_zero (Nat.getLast_digit_ne_zero 10 (by omega))
  · exact Nat.digits_lt_base (by decide) (List.getLast_mem hne)
  · rw [decimal, first, List.headD_eq_head?_getD, List.head?_map, List.head?_reverse,
      List.getLast?_eq_getLast_of_ne_nil hne]
    rfl

theorem first_decimal_append {n : ℕ} (h : 0 < n) (rest : CStr) :
    isdigit (first (decimal n ++ rest)) = true ∧ first (decimal n ++ rest) ≠ 0x30 := by
  obtain ⟨d, hpos, hd, hfirst⟩ := first_decimal h
  have hdigit : ∀ d < 10, 0 < d → isdigit (UInt8.ofNat (0x30 + d)) = true ∧
      UInt8.ofNat (0x30 + d) ≠ 0x30 := by decide
  have happend : first (decimal n ++ rest) = first (decimal n) := by
    cases hcons : decimal n with
    | nil =>
      rw [hcons] at hfirst
      have hne := (hdigit d hd hpos).1
      rw [← hfirst] at hne
      exact absurd hne (by decide)
    | cons c cs => rfl
  rw [happend, hfirst]
  exact hdigit d hd hpos

theorem simpleStrtoul_decimal {n : ℕ} (h : 0 < n) {rest : CStr}
    (hrest : isdigit (first rest) = false) :
    simpleStrtoul (decimal n ++ rest) 0 = (UInt32.ofNat n, rest) := by
  rw [simpleStrtoul, if_neg (first_decimal_append h rest).2, if_pos rfl, decimal]
  have hlt : ∀ d ∈ (Nat.digits 10 n).reverse, d < 10 := fun d hd ↦
    Nat.digits_lt_base (by decide) (List.mem_reverse.mp hd)
  have hd := strtoulDigits_decimal (Nat.digits 10 n).reverse hlt 0 hrest
  rwa [foldl_digits] at hd

theorem simpleStrtol_decimal {n : ℕ} (h : 0 < n) : simpleStrtol (decimal n) 0 = UInt32.ofNat n := by
  have hminus : first (decimal n) ≠ 0x2d := by
    intro heq
    have hdigit := (first_decimal_append h []).1
    rw [List.append_nil, heq] at hdigit
    exact absurd hdigit (by decide)
  have hread := simpleStrtoul_decimal h (show isdigit (first []) = false by decide)
  rw [List.append_nil] at hread
  rw [simpleStrtol, if_neg hminus, hread]

theorem numberHex_succ {size n : ℕ} (hsize : 0 < size) :
    numberHex (size + 1) n = numberHex size (n / 16) ++ [hexDigit (n % 16)] := by
  rcases Nat.eq_zero_or_pos n with rfl | hn
  · obtain ⟨k, rfl⟩ := Nat.exists_eq_add_of_lt hsize
    simp [numberHex, List.replicate_succ']
  rw [numberHex, numberHex, if_neg (by omega), Nat.digits_def' (by decide) hn]
  by_cases hq : n / 16 = 0
  · rw [hq, if_pos rfl, Nat.digits_zero]
    obtain ⟨k, rfl⟩ := Nat.exists_eq_add_of_lt hsize
    simp [List.replicate_succ']
  · rw [if_neg hq]
    simp [Nat.add_sub_add_right]

/-- The two digits of a byte. -/
def hexPair (b : ℕ) : CStr := [hexDigit (b / 16), hexDigit (b % 16)]

theorem numberHex_one {d : ℕ} (h : d < 16) : numberHex 1 d = [hexDigit d] := by
  rcases Nat.eq_zero_or_pos d with rfl | hd
  · rfl
  · rw [numberHex, if_neg (by omega), Nat.digits_of_lt 16 d (by omega) h]
    rfl

theorem numberHex_two {b : ℕ} (h : b < 256) : numberHex 2 b = hexPair b := by
  rw [numberHex_succ (by decide), numberHex_one (by omega)]
  rfl

theorem numberHex_add_two {size n : ℕ} (hsize : 0 < size) :
    numberHex (size + 2) n = numberHex size (n / 256) ++ hexPair (n % 256) := by
  have hhigh : n / 16 % 16 = n % 256 / 16 := by omega
  have hlow : n % 16 = n % 256 % 16 := by omega
  rw [numberHex_succ (by omega), numberHex_succ hsize, Nat.div_div_eq_div_mul, hhigh, hlow,
    List.append_assoc]
  rfl

theorem numberHex_eight {n : ℕ} (h : n < 4294967296) :
    numberHex 8 n = hexPair (n / 16777216) ++ hexPair (n / 65536 % 256) ++
      hexPair (n / 256 % 256) ++ hexPair (n % 256) := by
  rw [numberHex_add_two (by decide), numberHex_add_two (by decide), numberHex_add_two (by decide),
    numberHex_two (by omega)]
  simp only [Nat.div_div_eq_div_mul]

end UBoot.LibGeneric.Vsprintf
