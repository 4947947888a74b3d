import UBoot.LibGeneric.Vsprintf

namespace UBoot.LibGeneric.Sprintf

open Lib.CString Vsprintf

/-- The flags of a conversion. -/
structure Flags where
  zeropad : Bool
  sign : Bool
  plus : Bool
  space : Bool
  left : Bool
  special : Bool
  large : Bool

def noFlags : Flags := ⟨false, false, false, false, false, false, false⟩

/-- `digits[d]`. -/
def digit (large : Bool) (d : ℕ) : UInt8 :=
  UInt8.ofNat (if d < 10 then 0x30 + d else if large then 0x37 + d else 0x57 + d)

/-- `number`, what it appends. A `long` without `SIGN` is taken as unsigned. -/
def number (num : ℤ) (base : ℕ) (size precision : ℤ) (type : Flags) : CStr :=
  let zeropad := type.zeropad && !type.left
  let sign :=
    if !type.sign then []
    else if num < 0 then [0x2d] else if type.plus then [0x2b] else if type.space then [0x20] else []
  let special :=
    if !type.special then []
    else if base = 16 then [0x30, digit type.large 33] else if base = 8 then [0x30] else []
  let num := (if type.sign && decide (num < 0) then -num else num) % 4294967296
  let tmp := if num = 0 then [0] else Nat.digits base num.toNat
  let precision := max precision tmp.length
  let size := (size - sign.length - special.length - precision).toNat
  (if !zeropad && !type.left then List.replicate size 0x20 else []) ++ sign ++ special ++
    (if zeropad then List.replicate size 0x30 else []) ++
    List.replicate (precision - tmp.length).toNat 0x30 ++ tmp.reverse.map (digit type.large) ++
    if type.left then List.replicate size 0x20 else []

/-- A variable argument. -/
inductive Arg
  | int (n : ℤ)
  | str (s : Option CStr)

/-- `va_arg (args, int)`. -/
def nextInt : List Arg → Option (ℤ × List Arg)
  | .int n :: args => some (n, args)
  | _ => none

/-- `va_arg (args, char *)`. -/
def nextStr : List Arg → Option (Option CStr × List Arg)
  | .str s :: args => some (s, args)
  | _ => none

/-- The flags behind a `%`. -/
def scanFlags : CStr → Flags → Flags × CStr
  | [], flags => (flags, [])
  | c :: fmt, flags =>
    if c = 0x2d then scanFlags fmt { flags with left := true }
    else if c = 0x2b then scanFlags fmt { flags with plus := true }
    else if c = 0x20 then scanFlags fmt { flags with space := true }
    else if c = 0x23 then scanFlags fmt { flags with special := true }
    else if c = 0x30 then scanFlags fmt { flags with zeropad := true }
    else (flags, c :: fmt)

def skipAtoi : ℤ → CStr → ℤ × CStr
  | i, [] => (i, [])
  | i, c :: s => if isdigit c then skipAtoi (i * 10 + (c.toNat - 0x30)) s else (i, c :: s)

/-- The field width, from the format or, for `*`, from an argument; -1 when there is none. -/
def scanWidth (flags : Flags) (fmt : CStr) (args : List Arg) :
    Option (ℤ × Flags × CStr × List Arg) :=
  if isdigit (first fmt) then some ((skipAtoi 0 fmt).1, flags, (skipAtoi 0 fmt).2, args)
  else if first fmt = 0x2a then do
    let (n, args) ← nextInt args
    if n < 0 then return (-n, { flags with left := true }, fmt.drop 1, args)
    else return (n, flags, fmt.drop 1, args)
  else some (-1, flags, fmt, args)

def scanPrecision (fmt : CStr) (args : List Arg) : Option (ℤ × CStr × List Arg) :=
  if first fmt ≠ 0x2e then some (-1, fmt, args)
  else
    let fmt := fmt.drop 1
    if isdigit (first fmt) then some ((skipAtoi 0 fmt).1, (skipAtoi 0 fmt).2, args)
    else if first fmt = 0x2a then do
      let (n, args) ← nextInt args
      return (max n 0, fmt.drop 1, args)
    else some (0, fmt, args)

/-- The argument of an integer conversion, by its qualifier. -/
def convertInt (qualifier : Option UInt8) (sign : Bool) (n : ℤ) : ℤ :=
  if qualifier = some 0x68 then
    if sign then Int.bmod n 65536 else n % 65536
  else n

/-- The `switch` on the conversion `c`: the text, and the arguments that are left. -/
def convert (flags : Flags) (fieldWidth precision : ℤ) (qualifier : Option UInt8) (c : UInt8)
    (args : List Arg) : Option (CStr × List Arg) :=
  let padded (text : CStr) : CStr :=
    let pad := List.replicate (fieldWidth - text.length).toNat 0x20
    if flags.left then text ++ pad else pad ++ text
  let integer (base : ℕ) (flags : Flags) : Option (CStr × List Arg) := do
    let (n, args) ← nextInt args
    return (number (convertInt qualifier flags.sign n) base fieldWidth precision flags, args)
  match c.toNat with
  | 0x63 => do
    let (n, args) ← nextInt args
    return (padded [UInt8.ofNat (n % 256).toNat], args)
  | 0x73 => do
    let (s, args) ← nextStr args
    let s := s.getD (ascii "<NULL>")
    return (padded (if precision < 0 then s else s.take precision.toNat), args)
  | 0x70 => do
    let (n, args) ← nextInt args
    if fieldWidth = -1 then return (number n 16 8 precision { flags with zeropad := true }, args)
    else return (number n 16 fieldWidth precision flags, args)
  | 0x6e => do
    -- the position is stored through the argument
    let (_, args) ← nextInt args
    return ([], args)
  | 0x25 => some ([0x25], args)
  | 0x6f => integer 8 flags
  | 0x58 => integer 16 { flags with large := true }
  | 0x78 => integer 16 flags
  | 0x64 | 0x69 => integer 10 { flags with sign := true }
  | 0x75 => integer 10 flags
  | _ => some (if c = 0 then [0x25] else [0x25, c], args)

/-- The loop of `vsprintf`. `none` is an argument that is missing. -/
def vsprintfLoop : ℕ → CStr → List Arg → Option CStr
  | 0, _, _ => some []
  | _ + 1, [], _ => some []
  | fuel + 1, c :: fmt, args =>
    if c ≠ 0x25 then do
      let str ← vsprintfLoop fuel fmt args
      return c :: str
    else do
      let (flags, fmt) := scanFlags fmt noFlags
      let (width, flags, fmt, args) ← scanWidth flags fmt args
      let (precision, fmt, args) ← scanPrecision fmt args
      let qualified := first fmt = 0x68 ∨ first fmt = 0x6c ∨ first fmt = 0x71
      let qualifier := if qualified then some (first fmt) else none
      let fmt := if qualified then fmt.drop 1 else fmt
      let (text, args) ← convert flags width precision qualifier (first fmt) args
      let str ← vsprintfLoop fuel (fmt.drop 1) args
      return text ++ str

def sprintf (fmt : CStr) (args : List Arg) : Option CStr := vsprintfLoop fmt.length fmt args

example : sprintf (ascii "<%3d|%-5s|%02X>") [.int (-7), .str (some (ascii "ab")), .int 10] =
    some (ascii "< -7|ab   |0A>") := by decide +kernel

/-- `%d` of a number that is not negative. -/
theorem number_decimal {n : ℕ} (h : n < 4294967296) :
    number n 10 (-1) (-1) { noFlags with sign := true } = numberDec n := by
  have hneg : ¬ (n : ℤ) < 0 := Int.not_lt.mpr (Int.natCast_nonneg n)
  have hmod : (n : ℤ) % 4294967296 = n := Int.emod_eq_of_lt (Int.natCast_nonneg n) (by omega)
  have hdigits (tmp : List ℕ) (htmp : ∀ d ∈ tmp, d < 10) :
      tmp.reverse.map (digit false) = tmp.reverse.map fun d ↦ UInt8.ofNat (0x30 + d) := by
    refine List.map_congr_left fun d hd ↦ ?_
    rw [digit, if_pos (htmp d (List.mem_reverse.mp hd))]
  have htmp : ∀ d ∈ (if (n : ℤ) = 0 then [0] else Nat.digits 10 n), d < 10 := by
    intro d hd
    split_ifs at hd
    · rw [List.mem_singleton.mp hd]
      decide
    · exact Nat.digits_lt_base (by decide) hd
  rw [number]
  simp only [noFlags, hneg, hmod, Int.toNat_natCast, Bool.false_and, Bool.not_false,
    Bool.not_true, decide_false, Bool.and_false, if_false, if_true, Bool.false_eq_true,
    List.length_nil]
  rw [hdigits _ htmp]
  generalize htmp' : (if (n : ℤ) = 0 then [0] else Nat.digits 10 n) = tmp
  have hsize : ((-1 : ℤ) - (0 : ℕ) - (0 : ℕ) - max (-1 : ℤ) (tmp.length : ℤ)).toNat = 0 := by omega
  have hprecision : (max (-1 : ℤ) (tmp.length : ℤ) - (tmp.length : ℤ)).toNat = 0 := by omega
  rw [hsize, hprecision]
  simp only [Bool.and_self, if_true, List.replicate_zero, List.nil_append, List.append_nil]
  rw [← htmp', numberDec]
  by_cases hzero : n = 0
  · rw [if_pos (Int.natCast_eq_zero.mpr hzero), if_pos hzero]
    rfl
  · rw [if_neg (by omega), if_neg hzero, decimal]

end UBoot.LibGeneric.Sprintf
