import UBoot.Common.IdParse
import UBoot.Lib.Memory

namespace UBoot.Common.CmdItest

open Lib.CString Lib.Memory LibGeneric.Vsprintf AbbrevSpec IdParse

inductive Opcode
  | eq | ne | lt | gt | le | ge
deriving DecidableEq

structure OpTbl where
  op : CStr
  opcode : Opcode
deriving DecidableEq

def opTable : List OpTbl :=
  [⟨ascii "-lt", .lt⟩, ⟨ascii "<", .lt⟩, ⟨ascii "-gt", .gt⟩, ⟨ascii ">", .gt⟩, ⟨ascii "-eq", .eq⟩,
    ⟨ascii "==", .eq⟩, ⟨ascii "-ne", .ne⟩, ⟨ascii "!=", .ne⟩, ⟨ascii "<>", .ne⟩, ⟨ascii "-ge", .ge⟩,
    ⟨ascii ">=", .ge⟩, ⟨ascii "-le", .le⟩, ⟨ascii "<=", .le⟩]

def star : UInt8 := 0x2a

/-- The shift instruction takes the amount modulo 32, as `<<<` does. -/
def evalexp (m : Mem) (s : CStr) (w : ℕ) : Int32 :=
  let l : UInt32 :=
    if first s = star then UInt32.ofNat (load32 m (simpleStrtoul s.tail 16).1.toNat)
    else (simpleStrtoul s 16).1
  (l &&& ((1 : UInt32) <<< UInt32.ofNat (w * 8) - 1)).toInt32

/-- The string itself, or the one in memory. -/
def evalstr (m : Mem) (s : CStr) : CStr :=
  if first s = star then
    let p := (simpleStrtoul s.tail 16).1.toNat
    (bytes m p (2 ^ 32 - p)).takeWhile (· ≠ 0)
  else s

def strncmp : ℕ → CStr → CStr → ℤ
  | 0, _, _ => 0
  | count + 1, cs, ct =>
    if first cs ≠ first ct then (first cs).toNat - (first ct).toNat
    else if first cs = 0 then 0
    else strncmp count cs.tail ct.tail

def stringcomp (m : Mem) (s t : CStr) (op : Opcode) : Bool :=
  let l := evalstr m s
  let r := evalstr m t
  let p := strncmp (min l.length r.length) l r
  match op with
  | .eq => p = 0
  | .ne => p ≠ 0
  | .lt => p < 0
  | .gt => 0 < p
  | .le => p ≤ 0
  | .ge => 0 ≤ p

def arithcomp (m : Mem) (s t : CStr) (op : Opcode) (w : ℕ) : Bool :=
  let l := evalexp m s w
  let r := evalexp m t w
  match op with
  | .eq => l = r
  | .ne => l ≠ r
  | .lt => l < r
  | .gt => r < l
  | .le => l ≤ r
  | .ge => r ≤ l

/-- What is printed, and the result. -/
def binaryTest (m : Mem) (op arg1 arg2 : CStr) (w : ℕ) : CStr × Bool :=
  match opTable.find? fun optp ↦
      strncmp op.length op optp.op = 0 ∧ op.length = optp.op.length with
  | none => (ascii "Unknown operator '" ++ op ++ ascii "'\n", false)
  | some optp =>
    ([], if w = 0 then stringcomp m arg1 arg2 optp.opcode else arithcomp m arg1 arg2 optp.opcode w)

/-- A hexadecimal number, in front of which `0x` may stand. -/
inductive HexLiteral : CStr → ℕ → Prop
  | bare {ds : CStr} : ds ≠ [] → (∀ c ∈ ds, isxdigit c = true) → HexLiteral ds (digitsValue 16 ds)
  | marked {ds : CStr} : ds ≠ [] → (∀ c ∈ ds, isxdigit c = true) →
      HexLiteral (0x30 :: 0x78 :: ds) (digitsValue 16 ds)

/-- An operand and its value: a number, or the word at an address. -/
inductive Operand (m : Mem) : CStr → ℕ → Prop
  | literal {s : CStr} {n : ℕ} : HexLiteral s n → Operand m s n
  | reference {s : CStr} {n : ℕ} : HexLiteral s n → Operand m (star :: s) (load32 m (n % 2 ^ 32))

/-- The comparison that an operator stands for. -/
def Opcode.holds (op : Opcode) (l r : ℕ) : Bool :=
  match op with
  | .eq => l = r
  | .ne => l ≠ r
  | .lt => l < r
  | .gt => r < l
  | .le => l ≤ r
  | .ge => r ≤ l

/-- The values are in the order in which an operator gives what it gives for equal ones. -/
def Opcode.Level (op : Opcode) (l r : ℕ) : Prop :=
  match op with
  | .eq | .ne => l = r
  | .lt | .ge => r ≤ l
  | .gt | .le => l ≤ r

theorem Opcode.holds_eq_iff (op : Opcode) (l r : ℕ) : op.holds l r = op.holds 0 0 ↔ op.Level l r := by
  cases op <;> simp [Opcode.holds, Opcode.Level]

section Operands

variable {m : Mem} {s t ds : CStr} {n : ℕ}

theorem strtoulDigits_hex (hds : ∀ c ∈ ds, isxdigit c = true) :
    (strtoulDigits 16 0 ds).1 = UInt32.ofNat (digitsValue 16 ds) := by
  have hall : ∀ c ∈ ds, isDigitOf 16 c = true := fun c hc ↦ by rw [isDigitOf_sixteen, hds c hc]
  have hread := strtoulDigits_append hall (show isxdigit (first ([] : CStr)) = false from rfl)
  rw [List.append_nil] at hread
  rw [hread]

theorem HexLiteral.value (h : HexLiteral s n) : (simpleStrtoul s 16).1 = UInt32.ofNat n := by
  cases h with
  | bare hne hds =>
    by_cases hzero : first s = 0x30
    · obtain ⟨c, ds, rfl⟩ := List.exists_cons_of_ne_nil hne
      rw [first_cons] at hzero
      subst hzero
      have hx : first ds ≠ 0x78 := by
        cases ds with
        | nil => decide
        | cons c ds =>
          intro heq
          have hdigit := hds c (by simp)
          rw [show c = 0x78 from heq] at hdigit
          exact absurd hdigit (by decide)
      rw [simpleStrtoul, first_cons, if_pos rfl, List.drop_one, List.tail_cons,
        if_neg fun h ↦ hx h.1, if_neg (by decide),
        strtoulDigits_hex fun c hc ↦ hds c (List.mem_cons_of_mem _ hc)]
      rfl
    · rw [simpleStrtoul, if_neg hzero, if_neg (by decide), strtoulDigits_hex hds]
  | @marked ds hne hds =>
    have hdigit : isxdigit (first ds) = true := hds _ (first_mem hne)
    rw [simpleStrtoul, first_cons, if_pos rfl, if_pos ⟨rfl, hdigit⟩]
    exact strtoulDigits_hex hds

theorem HexLiteral.first_ne_star (h : HexLiteral s n) : first s ≠ star := by
  cases h with
  | bare hne hds =>
    intro heq
    have hdigit := hds _ (first_mem hne)
    rw [heq] at hdigit
    exact absurd hdigit (by decide)
  | marked => exact (by decide : (0x30 : UInt8) ≠ star)

/-- The bytes that are compared. With `w = 4` the mask is empty. -/
theorem evalexp_eq (h : Operand m s n) {w : ℕ} :
    evalexp m s w = (UInt32.ofNat n &&& ((1 : UInt32) <<< UInt32.ofNat (w * 8) - 1)).toInt32 := by
  cases h with
  | literal h => rw [evalexp, if_neg h.first_ne_star, h.value]
  | @reference s n h =>
    have haddress : (UInt32.ofNat n).toNat = n % 2 ^ 32 := UInt32.toNat_ofNat
    rw [evalexp, first_cons, if_pos rfl, List.tail_cons, h.value, haddress]

theorem evalexp_long (h : Operand m s n) : evalexp m s 4 = 0 := by
  rw [evalexp_eq h]
  have hmask : (1 : UInt32) <<< UInt32.ofNat (4 * 8) - 1 = 0 := by decide
  rw [hmask, UInt32.and_zero]
  rfl

theorem toInt_mask (n : ℕ) {k : ℕ} (hk : k < 32) (mask : UInt32) (hmask : mask.toNat = 2 ^ k - 1) :
    (UInt32.ofNat n &&& mask).toInt32.toInt = ((n % 2 ^ k : ℕ) : ℤ) := by
  have hpow : 2 ^ k ∣ 2 ^ 32 := Nat.pow_dvd_pow 2 (by omega)
  have hnat : (UInt32.ofNat n &&& mask).toNat = n % 2 ^ k := by
    rw [UInt32.toNat_and, hmask, Nat.and_two_pow_sub_one_eq_mod, UInt32.toNat_ofNat',
      Nat.mod_mod_of_dvd _ hpow]
  have hlt : n % 2 ^ k < 2 ^ 31 :=
    (Nat.mod_lt _ (by positivity)).trans_le (Nat.pow_le_pow_right (by decide) (by omega))
  rw [← hnat] at hlt ⊢
  have hpositive : 2 * (UInt32.ofNat n &&& mask).toNat < 2 ^ 32 := by omega
  exact BitVec.toInt_eq_toNat_of_lt hpositive

theorem evalexp_narrow (h : Operand m s n) {w : ℕ} (hw : w = 1 ∨ w = 2) :
    (evalexp m s w).toInt = ((n % 256 ^ w : ℕ) : ℤ) := by
  rw [evalexp_eq h]
  rcases hw with rfl | rfl
  · exact toInt_mask n (k := 8) (by decide) _ (by decide)
  · exact toInt_mask n (k := 16) (by decide) _ (by decide)

end Operands

theorem find_op : ∀ e ∈ opTable, (opTable.find? fun optp ↦
    strncmp e.op.length e.op optp.op = 0 ∧ e.op.length = optp.op.length) = some e := by
  decide

theorem arithcomp_eq {m : Mem} {s t : CStr} {w l r : ℕ} (hs : (evalexp m s w).toInt = l)
    (ht : (evalexp m t w).toInt = r) (op : Opcode) : arithcomp m s t op w = op.holds l r := by
  have heq : evalexp m s w = evalexp m t w ↔ l = r := by
    rw [← Int32.toInt_inj, hs, ht, Nat.cast_inj]
  have hlt : evalexp m s w < evalexp m t w ↔ l < r := by
    rw [Int32.lt_iff_toInt_lt, hs, ht, Nat.cast_lt]
  have hgt : evalexp m t w < evalexp m s w ↔ r < l := by
    rw [Int32.lt_iff_toInt_lt, hs, ht, Nat.cast_lt]
  have hle : evalexp m s w ≤ evalexp m t w ↔ l ≤ r := by
    rw [Int32.le_iff_toInt_le, hs, ht, Nat.cast_le]
  have hge : evalexp m t w ≤ evalexp m s w ↔ r ≤ l := by
    rw [Int32.le_iff_toInt_le, hs, ht, Nat.cast_le]
  cases op <;> simp only [arithcomp, Opcode.holds, ne_eq, heq, hlt, hgt, hle, hge]

theorem binaryTest_eq (m : Mem) {e : OpTbl} (he : e ∈ opTable) (s t : CStr) {w : ℕ} (hw : 0 < w) :
    binaryTest m e.op s t w = ([], arithcomp m s t e.opcode w) := by
  rw [binaryTest, find_op e he]
  dsimp only
  rw [if_neg hw.ne']

/-- Numbers of one and of two bytes are compared as they should be. Longs are all taken for 0, so that
the result is the right one only where it is that for equal values. -/
theorem binary_test_iff (m : Mem) {e : OpTbl} (he : e ∈ opTable) {s t : CStr} {l r : ℕ}
    (hs : Operand m s l) (ht : Operand m t r) {w : ℕ} (hw : w = 1 ∨ w = 2 ∨ w = 4) :
    binaryTest m e.op s t w = ([], e.opcode.holds (l % 256 ^ w) (r % 256 ^ w)) ↔
      w ≠ 4 ∨ e.opcode.Level (l % 2 ^ 32) (r % 2 ^ 32) := by
  rcases or_assoc.mpr hw with hw | rfl
  · have hpos : 0 < w ∧ w ≠ 4 := by omega
    rw [binaryTest_eq m he s t hpos.1,
      arithcomp_eq (evalexp_narrow hs hw) (evalexp_narrow ht hw) e.opcode]
    exact iff_of_true rfl (.inl hpos.2)
  · have hzero {s : CStr} {n : ℕ} (h : Operand m s n) : (evalexp m s 4).toInt = (0 : ℕ) := by
      rw [evalexp_long h]
      rfl
    rw [binaryTest_eq m he s t (by decide), arithcomp_eq (hzero hs) (hzero ht) e.opcode,
      Prod.mk_right_inj, eq_comm, Opcode.holds_eq_iff]
    exact (or_iff_right (not_not_intro rfl)).symm

theorem one_literal : HexLiteral (ascii "1") 1 := .bare (by decide) (by decide +kernel)

theorem two_literal : HexLiteral (ascii "0x2") 2 := .marked (by decide) (by decide +kernel)

theorem binary_test_iff_sample :
    (⟨ascii "-lt", .lt⟩ ∈ opTable ∧ Operand (fun _ ↦ 0) (ascii "1") 1 ∧
      Operand (fun _ ↦ 0) (ascii "0x2") 2) ∧
    (binaryTest (fun _ ↦ 0) (ascii "-lt") (ascii "1") (ascii "0x2") 1 =
        ([], Opcode.lt.holds (1 % 256 ^ 1) (2 % 256 ^ 1)) ↔
      1 ≠ 4 ∨ Opcode.lt.Level (1 % 2 ^ 32) (2 % 2 ^ 32)) :=
  ⟨⟨by decide, .literal one_literal, .literal two_literal⟩,
    binary_test_iff _ (e := ⟨ascii "-lt", .lt⟩) (by decide) (.literal one_literal)
      (.literal two_literal) (.inl rfl)⟩

/-- `itest 1 == 0x2` is true. -/
theorem longs_all_equal :
    Operand (fun _ ↦ 0) (ascii "1") 1 ∧ Operand (fun _ ↦ 0) (ascii "0x2") 2 ∧
      binaryTest (fun _ ↦ 0) (ascii "==") (ascii "1") (ascii "0x2") 4 = ([], true) ∧
      Opcode.eq.holds (1 % 256 ^ 4) (2 % 256 ^ 4) = false :=
  ⟨.literal one_literal, .literal two_literal, by decide, by decide⟩

end UBoot.Common.CmdItest
