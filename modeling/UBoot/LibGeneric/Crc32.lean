import Mathlib.Logic.Function.Iterate
import Mathlib.Data.List.Basic

namespace UBoot.LibGeneric.Crc32

/-- The exclusive-or pattern `make_crc_table` builds from the polynomial's exponents. -/
def poly : UInt32 :=
  ([0, 1, 2, 4, 5, 7, 8, 10, 11, 12, 16, 22, 23, 26] : List UInt32).foldl
    (fun p n ↦ p ||| ((1 : UInt32) <<< (31 - n))) 0

def crcBit (c : UInt32) : UInt32 := if c &&& 1 ≠ 0 then poly ^^^ (c >>> 1) else c >>> 1

def crcTable (n : UInt32) : UInt32 := crcBit^[8] n

/-- `DO1`: one byte of input. -/
def do1 (crc : UInt32) (b : UInt8) : UInt32 :=
  crcTable ((crc ^^^ b.toUInt32) &&& 0xff) ^^^ (crc >>> 8)

def crc32 (crc : UInt32) (buf : List UInt8) : UInt32 :=
  buf.foldl do1 (crc ^^^ 0xffffffff) ^^^ 0xffffffff

def crc32NoComp (crc : UInt32) (buf : List UInt8) : UInt32 := buf.foldl do1 crc

@[simp] theorem crc32_nil (crc : UInt32) : crc32 crc [] = crc := by
  rw [crc32, List.foldl_nil, UInt32.xor_assoc, UInt32.xor_self, UInt32.xor_zero]

theorem crc32_append (crc : UInt32) (a b : List UInt8) :
    crc32 (crc32 crc a) b = crc32 crc (a ++ b) := by
  rw [crc32, crc32, crc32, UInt32.xor_assoc, UInt32.xor_self, UInt32.xor_zero, List.foldl_append]

example : crcTable 1 = 0x77073096 ∧ crcTable 0x80 = 0xedb88320 ∧ crcTable 0xff = 0x2d02ef8d := by
  decide

/-- One shift of the register run backwards: the top bit says whether `poly` was added. -/
def uncrcBit (c : UInt32) : UInt32 :=
  if c >>> 31 ≠ 0 then ((poly ^^^ c) <<< 1) ||| 1 else c <<< 1

theorem crcTable_top (i : Fin 256) :
    (uncrcBit^[8] (crcTable (UInt32.ofNat i) >>> 24 <<< 24)) &&& 0xff = UInt32.ofNat i := by
  revert i
  decide +kernel

theorem ofNat_low (x : UInt32) : ∃ i : Fin 256, x &&& 0xff = UInt32.ofNat i := by
  refine ⟨⟨(x &&& 0xff).toNat, ?_⟩, by simp⟩
  simp only [UInt32.toNat_and, UInt32.reduceToNat]
  exact Nat.and_lt_two_pow (n := 8) _ (by decide)

theorem crcTable_low_injective {x y : UInt32}
    (h : crcTable (x &&& 0xff) >>> 24 = crcTable (y &&& 0xff) >>> 24) : x &&& 0xff = y &&& 0xff := by
  obtain ⟨i, hi⟩ := ofNat_low x
  obtain ⟨j, hj⟩ := ofNat_low y
  rw [hi, hj] at h ⊢
  rw [← crcTable_top i, ← crcTable_top j, h]

theorem xor_left_cancel {a b c : UInt32} (h : a ^^^ b = a ^^^ c) : b = c := by
  have h' := congrArg (a ^^^ ·) h
  simpa [← UInt32.xor_assoc] using h'

theorem eq_of_low_of_high {a b : UInt32} (hl : a &&& 0xff = b &&& 0xff)
    (hh : a >>> 8 = b >>> 8) : a = b := by
  have h₁ := congrArg UInt32.toNat hl
  have h₂ := congrArg UInt32.toNat hh
  simp only [UInt32.toNat_and, UInt32.reduceToNat, UInt32.toNat_shiftRight, Nat.reduceMod,
    Nat.shiftRight_eq_div_pow] at h₁ h₂
  have hm (n : ℕ) : n &&& 255 = n % 256 := Nat.and_two_pow_sub_one_eq_mod n 8
  rw [hm, hm] at h₁
  apply UInt32.toNat_inj.mp
  omega

theorem low_xor (x y : UInt32) : (x ^^^ y) &&& 0xff = (x &&& 0xff) ^^^ (y &&& 0xff) := by
  apply UInt32.toNat_inj.mp
  simp [UInt32.toNat_and, UInt32.toNat_xor, Nat.and_xor_distrib_right]

theorem top_shiftRight (x : UInt32) : x >>> 8 >>> 24 = 0 := by
  apply UInt32.toNat_inj.mp
  have := x.toNat_lt
  simp only [UInt32.toNat_shiftRight, UInt32.reduceToNat, Nat.reduceMod,
    Nat.shiftRight_eq_div_pow]
  omega

theorem do1_low {c d : UInt32} {a b : UInt8} (h : do1 c a = do1 d b) :
    (c ^^^ a.toUInt32) &&& 0xff = (d ^^^ b.toUInt32) &&& 0xff := by
  have ht := congrArg (· >>> (24 : UInt32)) h
  simp only [do1, UInt32.shiftRight_xor, top_shiftRight, UInt32.xor_zero] at ht
  exact crcTable_low_injective ht

/-- For a fixed input byte the register is never merged with another one. -/
theorem do1_injective (b : UInt8) : Function.Injective (fun c ↦ do1 c b) := by
  intro c d h
  have hlow := do1_low h
  simp only [do1, hlow] at h
  refine eq_of_low_of_high ?_ (xor_left_cancel h)
  rw [low_xor, low_xor, UInt32.xor_comm, UInt32.xor_comm (d &&& 0xff)] at hlow
  exact xor_left_cancel hlow

theorem do1_right_injective (c : UInt32) : Function.Injective (do1 c) := by
  intro a b h
  have hlow := do1_low h
  rw [low_xor, low_xor] at hlow
  have hab := congrArg UInt32.toNat (xor_left_cancel hlow)
  have hm (n : ℕ) : n &&& 255 = n % 256 := Nat.and_two_pow_sub_one_eq_mod n 8
  have ha := a.toNat_lt
  have hb := b.toNat_lt
  simp only [UInt32.toNat_and, UInt8.toNat_toUInt32, UInt32.reduceToNat, hm] at hab
  apply UInt8.toNat_inj.mp
  omega

theorem foldl_do1_injective (s : List UInt8) : Function.Injective (fun c ↦ s.foldl do1 c) := by
  induction s with
  | nil => exact fun _ _ h ↦ h
  | cons b s ih => exact fun c d h ↦ do1_injective b (ih h)

theorem crc32_change (crc : UInt32) (a s : List UInt8) {x y : UInt8} (h : x ≠ y) :
    crc32 crc (a ++ x :: s) ≠ crc32 crc (a ++ y :: s) := by
  intro he
  simp only [crc32, List.foldl_append, List.foldl_cons] at he
  have h' := congrArg (· ^^^ (0xffffffff : UInt32)) he
  simp only [UInt32.xor_assoc, UInt32.xor_self, UInt32.xor_zero] at h'
  exact h (do1_right_injective _ (foldl_do1_injective s h'))

end UBoot.LibGeneric.Crc32
