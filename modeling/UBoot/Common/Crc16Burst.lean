import Mathlib
import UBoot.Common.XyzModemTransfer
import UBoot.Lib.ShiftRegister

namespace UBoot.Common.Crc16Burst

open Lib.ShiftRegister Crc16 XyzModem XyzModemFrames XyzModemTransfer

/-- The bits of some bytes, the high one of each byte first. -/
def bitsHigh (buf : List UInt8) : List Bool := bits (fun b ↦ b.toBitVec.getMsbD) 8 buf

theorem bitsHigh_injective : Function.Injective bitsHigh :=
  bits_injective (fun _ _ h ↦ UInt8.toBitVec_inj.mp (BitVec.eq_of_getMsbD_eq h)) (by omega)

/-- The register that the table stands for. -/
def crcRegister : Register (BitVec 16) 16 :=
  left 0x1021#16 fun i hi ↦ by
    obtain rfl : i = 15 := by omega
    decide

theorem crc16Tab_run (n : UInt8) : (crc16Tab.getD n.toNat 0).toBitVec = crcRegister.run 0#16 (bitsHigh [n]) := by
  have hall : ∀ i : Fin 256, (crc16Tab.getD (UInt8.ofNat i).toNat 0).toBitVec =
      crcRegister.run 0#16 (bitsHigh [UInt8.ofNat i]) := by decide +kernel
  have hn := hall ⟨n.toNat, n.toNat_lt⟩
  rwa [UInt8.ofNat_toNat] at hn

theorem high_byte (c : UInt16) (b : UInt8) :
    (((c >>> 8) ^^^ b.toUInt16) &&& 0xff).toNat = ((c >>> 8).toUInt8 ^^^ b).toNat := by
  have hm (n : ℕ) : n &&& 255 = n % 2 ^ 8 := Nat.and_two_pow_sub_one_eq_mod n 8
  simp only [UInt16.toNat_and, UInt16.toNat_xor, UInt8.toNat_toUInt16, UInt8.toNat_xor, UInt16.toNat_toUInt8,
    UInt16.reduceToNat, hm, Nat.xor_mod_two_pow]
  rw [Nat.mod_eq_of_lt b.toNat_lt]

/-- The bits of the register that a byte shifts out are added to it. -/
theorem bitsHigh_xor (c : UInt16) (b : UInt8) :
    ((bitsHigh [b]).mapIdx fun k x ↦ crcRegister.bit c.toBitVec k ^^ x) = bitsHigh [(c >>> 8).toUInt8 ^^^ b] := by
  have hbit (k : ℕ) : crcRegister.bit c.toBitVec k = c.toBitVec.getMsbD k := rfl
  apply List.ext_getElem
  · simp [bitsHigh]
  · intro i hi _
    have hi8 : i < 8 := by simpa [bitsHigh] using hi
    have hfar : 7 - i < 8 ∧ i < 16 ∧ 15 - i = 8 + (7 - i) := by omega
    simp [bitsHigh, hbit, hi8, BitVec.getMsbD, hfar]

theorem cygCrc16Byte_run (c : UInt16) (b : UInt8) :
    (cygCrc16Byte c b).toBitVec = crcRegister.run c.toBitVec (bitsHigh [b]) := by
  apply BitVec.eq_of_getMsbD_eq
  intro i _
  have hrun : (crcRegister.run c.toBitVec (bitsHigh [b])).getMsbD i = (c.toBitVec.getMsbD (i + 8) ^^
      (crcRegister.run 0#16 (bitsHigh [(c >>> 8).toUInt8 ^^^ b])).getMsbD i) := by
    rw [← bitsHigh_xor]
    exact crcRegister.bit_run c.toBitVec (bitsHigh [b]) i
  rw [hrun, cygCrc16Byte, high_byte, UInt16.toBitVec_xor, BitVec.getMsbD_xor, crc16Tab_run, Bool.xor_comm]
  congr 1
  simp

theorem foldl_run (c : UInt16) (buf : List UInt8) :
    (buf.foldl cygCrc16Byte c).toBitVec = crcRegister.run c.toBitVec (bitsHigh buf) := by
  induction buf generalizing c with
  | nil => rfl
  | cons b buf ih =>
    have hbits : bitsHigh (b :: buf) = bitsHigh [b] ++ bitsHigh buf := bits_append _ 8 [b] buf
    rw [List.foldl_cons, ih, cygCrc16Byte_run, hbits, crcRegister.run_append]

/-- With the checksum behind the data the register ends up empty, and with nothing else. -/
theorem checkOf_iff {data check : List UInt8} (hcheck : check.length = 2) :
    check = checkOf true data ↔ crcRegister.run 0#16 (bitsHigh (data ++ check)) = 0#16 := by
  have hlength : (bitsHigh check).length = 16 := by
    rw [bitsHigh, bits_length, hcheck]
  have hown : bitsHigh (checkOf true data) =
      (List.range 16).map (crcRegister.bit (cygCrc16 data).toBitVec) := by
    have hbit (k : ℕ) : crcRegister.bit (cygCrc16 data).toBitVec k = (cygCrc16 data).toBitVec.getMsbD k := rfl
    simp [bitsHigh, checkOf, hbit, List.range_succ, BitVec.getMsbD]
  have hrun : crcRegister.run 0#16 (bitsHigh data) = (cygCrc16 data).toBitVec := (foldl_run 0 data).symm
  have hempty := crcRegister.run_eq_zero_iff (cygCrc16 data).toBitVec hlength
  rw [bitsHigh, bits_append, crcRegister.run_append, ← bitsHigh, ← bitsHigh, hrun]
  refine Iff.trans ?_ hempty.symm
  rw [← hown]
  exact bitsHigh_injective.eq_iff.symm

/-- The block `f'` is what a burst of errors has made of the data and the checksum of `f`. -/
structure Hit (f f' : Frame) : Prop where
  c : f'.c = f.c
  blk : f'.blk = f.blk
  cblk : f'.cblk = f.cblk
  burst : Burst 16 (bitsHigh (f.data ++ f.check)) (bitsHigh (f'.data ++ f'.check))
  ne : f.data ++ f.check ≠ f'.data ++ f'.check

section Blocks

variable {f f' : Frame} {s : Xyz}

theorem stat_hit (hf : f.Shaped true) (hf' : f'.Shaped true) (hok : f.stat true = .ok) (h : Hit f f') :
    f'.stat true = .cksum := by
  rw [Frame.stat] at hok ⊢
  split_ifs at hok with hblk hcheck
  rw [h.blk, h.cblk, if_neg hblk, if_neg]
  intro hcheck'
  have hrun := (checkOf_iff hf.check).mp hcheck
  have hrun' := (checkOf_iff hf'.check).mp hcheck'
  exact h.ne (bitsHigh_injective (crcRegister.run_burst h.burst (hrun.trans hrun'.symm)))

/-- A damaged byte is a burst. -/
theorem hit_set {i : ℕ} {x y : UInt8} (hi : f.data[i]? = some y) (hne : y ≠ x) :
    Hit f { f with data := f.data.set i x } where
  c := rfl
  blk := rfl
  cblk := rfl
  burst := by
    obtain ⟨hlt, -⟩ := List.getElem?_eq_some_iff.mp hi
    rw [← List.set_append_left _ _ hlt, bitsHigh, bitsHigh]
    refine ⟨by rw [bits_length, bits_length, List.length_set], 8 * i, ?_, ?_⟩
    · rw [← bits_take, ← bits_take, List.take_set_of_le (Nat.le_refl i)]
    · rw [← Nat.mul_add 8 i 2, ← bits_drop, ← bits_drop, List.drop_set_of_lt (by omega)]
  ne := by
    obtain ⟨hlt, hget⟩ := List.getElem?_eq_some_iff.mp hi
    intro h
    have hbyte := congrArg (fun l ↦ l[i]?) (List.append_cancel_right h)
    rw [hi, List.getElem?_set_self hlt] at hbyte
    exact hne (Option.some.inj hbyte)

/-- All that such a block makes the receiver do is to ask for it again. -/
theorem block_loop_hit {g : List UInt8} {line : Line} (hcrc : s.crcMode = true) (hg : Noise g)
    (hf : f.Shaped true) (hf' : f'.Shaped true) (hok : f.stat true = .ok) (h : Hit f f')
    (hline : s.line = chars (g ++ f'.text) ++ line) (n : ℕ) (stat : Stat) :
    ∃ s', blockLoop (n + 1) stat s = blockLoop n .cksum s'.putNak ∧ s'.line = line ∧ Later s s' := by
  rw [← hcrc] at hf'
  obtain ⟨s', hget, -, hline'⟩ := getHdr_frame hg hf' hline
  rw [hcrc] at hf'
  rw [hcrc, stat_hit hf hf' hok h] at hget hline'
  have hlater : Later s s' := by
    have hlater := getHdr_later s
    rwa [hget] at hlater
  refine ⟨s', ?_, hline', hlater⟩
  rw [blockLoop, hget]

end Blocks

/-- The first block of a file of one byte, with another sixth byte. -/
def hitBlock : Frame := { blockOf true 1 byteBlock with data := byteBlock.set 5 0 }

theorem block_loop_hit_byte : ∃ s', blockLoop 20 .cancel { freshXyz (chars hitBlock.text) with crcMode := true } =
    blockLoop 19 .cksum s'.putNak ∧ s'.line = [] ∧
      Later { freshXyz (chars hitBlock.text) with crcMode := true } s' := by
  have hf := blockOf_shaped true 1 byteBlock_sized
  have hok := blockOf_stat true 1 byteBlock
  have hhit : Hit (blockOf true 1 byteBlock) hitBlock := hit_set (y := ctrlZ) rfl (by decide)
  have hf' : hitBlock.Shaped true := by
    refine ⟨?_, ?_, hf.check⟩
    · rw [hhit.c]
      exact hf.start
    · rw [hhit.c, ← hf.data]
      exact List.length_set
  exact block_loop_hit rfl noise_nil hf hf' hok hhit (List.append_nil _).symm 19 .cancel

end UBoot.Common.Crc16Burst
