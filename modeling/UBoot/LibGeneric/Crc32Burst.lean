import Mathlib
import UBoot.Lib.ShiftRegister
import UBoot.LibGeneric.Crc32

namespace UBoot.LibGeneric.Crc32Burst

open Lib.ShiftRegister Crc32

/-- The bits of some bytes, the low one of each byte first. -/
def bitsLow (buf : List UInt8) : List Bool := bits (fun b ↦ b.toBitVec.getLsbD) 8 buf

theorem bitsLow_injective : Function.Injective bitsLow :=
  bits_injective (fun _ _ h ↦ UInt8.toBitVec_inj.mp (BitVec.eq_of_getLsbD_eq h)) (by omega)

/-- The register that the table stands for. -/
def crcRegister : Register (BitVec 32) 32 :=
  right poly.toBitVec fun i hi ↦ by
    obtain rfl : i = 31 := by omega
    decide

theorem crcTable_run (n : UInt8) : (crcTable n.toUInt32).toBitVec = crcRegister.run 0#32 (bitsLow [n]) := by
  have hall : ∀ i : Fin 256, (crcTable (UInt8.ofNat i).toUInt32).toBitVec =
      crcRegister.run 0#32 (bitsLow [UInt8.ofNat i]) := by decide +kernel
  have hn := hall ⟨n.toNat, n.toNat_lt⟩
  rwa [UInt8.ofNat_toNat] at hn

theorem low_byte (c : UInt32) (b : UInt8) : (c ^^^ b.toUInt32) &&& 0xff = (c.toUInt8 ^^^ b).toUInt32 := by
  have hm (n : ℕ) : n &&& 255 = n % 2 ^ 8 := Nat.and_two_pow_sub_one_eq_mod n 8
  apply UInt32.toNat_inj.mp
  simp only [UInt32.toNat_and, UInt32.toNat_xor, UInt8.toNat_toUInt32, UInt8.toNat_xor, UInt32.toNat_toUInt8,
    UInt32.reduceToNat, hm, Nat.xor_mod_two_pow]
  rw [Nat.mod_eq_of_lt b.toNat_lt]

/-- The bits of the register that a byte shifts out are added to it. -/
theorem bitsLow_xor (c : UInt32) (b : UInt8) :
    ((bitsLow [b]).mapIdx fun k x ↦ crcRegister.bit c.toBitVec k ^^ x) = bitsLow [c.toUInt8 ^^^ b] := by
  have hbit (k : ℕ) : crcRegister.bit c.toBitVec k = c.toBitVec.getLsbD k := rfl
  apply List.ext_getElem
  · simp [bitsLow]
  · intro i hi _
    have hi8 : i < 8 := by simpa [bitsLow] using hi
    simp [bitsLow, hbit, hi8]

theorem do1_run (c : UInt32) (b : UInt8) : (do1 c b).toBitVec = crcRegister.run c.toBitVec (bitsLow [b]) := by
  apply BitVec.eq_of_getLsbD_eq
  intro i _
  have hrun : (crcRegister.run c.toBitVec (bitsLow [b])).getLsbD i = (c.toBitVec.getLsbD (i + 8) ^^
      (crcRegister.run 0#32 (bitsLow [c.toUInt8 ^^^ b])).getLsbD i) := by
    rw [← bitsLow_xor]
    exact crcRegister.bit_run c.toBitVec (bitsLow [b]) i
  rw [hrun, do1, low_byte, UInt32.toBitVec_xor, BitVec.getLsbD_xor, crcTable_run, Bool.xor_comm]
  simp [Nat.add_comm]

theorem foldl_do1_run (c : UInt32) (buf : List UInt8) :
    (buf.foldl do1 c).toBitVec = crcRegister.run c.toBitVec (bitsLow buf) := by
  induction buf generalizing c with
  | nil => rfl
  | cons b buf ih =>
    have hbits : bitsLow (b :: buf) = bitsLow [b] ++ bitsLow buf := bits_append _ 8 [b] buf
    rw [List.foldl_cons, ih, do1_run, hbits, crcRegister.run_append]

theorem crc32_burst {crc : UInt32} {a b : List UInt8} (h : Burst 32 (bitsLow a) (bitsLow b))
    (hcrc : crc32 crc a = crc32 crc b) : a = b := by
  have hfold : a.foldl do1 (crc ^^^ 0xffffffff) = b.foldl do1 (crc ^^^ 0xffffffff) := by
    apply xor_left_cancel (a := 0xffffffff)
    rwa [UInt32.xor_comm, UInt32.xor_comm 0xffffffff]
  have hrun := congrArg UInt32.toBitVec hfold
  rw [foldl_do1_run, foldl_do1_run] at hrun
  exact bitsLow_injective (crcRegister.run_burst h hrun)

end UBoot.LibGeneric.Crc32Burst
