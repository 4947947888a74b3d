import UBoot.Common.BootmBounds
import UBoot.LibGeneric.Crc32Burst

namespace UBoot.Common.BootmBurst

open Lib.Memory Lib.ShiftRegister Include.Image LibGeneric.Crc32 LibGeneric.Crc32Burst CmdBootm

variable {m m' : Mem} {addr : ℕ} {hdr : ImageHeader}

theorem apply_of_bytes_eq {n : ℕ} (h : bytes m' addr n = bytes m addr n) {i : ℕ} (hi : i < n) :
    m' (addr + i) = m (addr + i) := by
  have hget := congrArg (fun l ↦ l[i]?) h
  rw [getElem?_bytes _ hi, getElem?_bytes _ hi] at hget
  exact Option.some.inj hget

theorem readHeader_congr (h : bytes m' addr 64 = bytes m addr 64) : readHeader m' addr = readHeader m addr := by
  have hzero : m' addr = m addr := apply_of_bytes_eq h (i := 0) (by omega)
  have hat (i : ℕ) (hi : i < 64) : m' (addr + i) = m (addr + i) := apply_of_bytes_eq h hi
  simp only [readHeader, load32, load16, Nat.add_assoc, Nat.reduceAdd]
  simp (disch := omega) only [hat, hzero]

theorem bytes_part (m : Mem) (addr : ℕ) {a n size : ℕ} (h : a + n ≤ size) :
    bytes m (addr + a) n = ((bytes m addr size).drop a).take n := by
  obtain ⟨k, rfl⟩ := Nat.exists_eq_add_of_le h
  rw [Nat.add_assoc, bytes_drop, bytes_take]

theorem burst_part {a n size : ℕ} (h : a + n ≤ size)
    (hburst : Burst 32 (bitsLow (bytes m addr size)) (bitsLow (bytes m' addr size))) :
    Burst 32 (bitsLow (bytes m (addr + a) n)) (bitsLow (bytes m' (addr + a) n)) := by
  rw [bytes_part m addr h, bytes_part m' addr h]
  simp only [bitsLow, bits_take, bits_drop]
  exact (hburst.drop _).take _

/-- A burst of errors behind the checksum of the header, in the rest of the header or in the data. -/
theorem checkImage_burst (hok : checkImage m addr true = .ok hdr) (hfront : bytes m' addr 8 = bytes m addr 8)
    (hburst : Burst 32 (bitsLow (bytes m addr (imageHeaderSize + hdr.ihSize)))
      (bitsLow (bytes m' addr (imageHeaderSize + hdr.ihSize))))
    (hne : bytes m' addr (imageHeaderSize + hdr.ihSize) ≠ bytes m addr (imageHeaderSize + hdr.ihSize)) :
    checkImage m' addr true = .error .badHeaderChecksum ∨ checkImage m' addr true = .error .badDataCrc := by
  rw [checkImage] at hok
  split_ifs at hok with hmagic hhcrc hdcrc
  obtain rfl := Except.ok.inj hok
  rw [not_not] at hmagic hhcrc
  have hfour : bytes m' addr 4 = bytes m addr 4 := by
    have htake := congrArg (List.take 4) hfront
    rwa [take_bytes, take_bytes] at htake
  have hzero : m' addr = m addr := apply_of_bytes_eq hfront (i := 0) (by omega)
  have hat (i : ℕ) (hi : i < 8) : m' (addr + i) = m (addr + i) := apply_of_bytes_eq hfront hi
  have hmagic' : (readHeader m' addr).ihMagic = ihMagic := by
    rw [← hmagic]
    simp only [readHeader, load32, load16, Nat.add_assoc, Nat.reduceAdd]
    simp (disch := omega) only [hat, hzero]
  have hsum : (readHeader m' addr).ihHcrc = (readHeader m addr).ihHcrc := by
    simp only [readHeader, load32, load16, Nat.add_assoc, Nat.reduceAdd]
    simp (disch := omega) only [hat]
  rw [checkImage, if_neg (not_not.mpr hmagic')]
  by_cases hrest : bytes m' (addr + 8) 56 = bytes m (addr + 8) 56
  · have hhead : bytes m' addr 64 = bytes m addr 64 := by
      rw [show 64 = 8 + 56 from rfl, bytes_append, bytes_append, hfront, hrest]
    right
    rw [readHeader_congr hhead, hfour, hrest, if_neg (not_not.mpr hhcrc), if_pos]
    refine ⟨rfl, fun hcrc ↦ hne ?_⟩
    have hdata : (crc32 0 (bytes m (addr + imageHeaderSize) (readHeader m addr).ihSize)).toNat =
        (readHeader m addr).ihDcrc := by
      by_contra hbad
      exact hdcrc ⟨rfl, hbad⟩
    have hsame : crc32 0 (bytes m (addr + imageHeaderSize) (readHeader m addr).ihSize) =
        crc32 0 (bytes m' (addr + imageHeaderSize) (readHeader m addr).ihSize) := by
      apply UInt32.toNat_inj.mp
      rw [hdata, hcrc]
    have heq := crc32_burst (burst_part (Nat.le_refl _) hburst) hsame
    rw [bytes_append, bytes_append, heq, imageHeaderSize, hhead]
  · left
    rw [if_pos]
    intro hcrc
    rw [hsum, hfour, ← hhcrc] at hcrc
    have heq := UInt32.toNat_inj.mp hcrc
    rw [← crc32_append _ _ (bytes m' _ _), ← crc32_append _ _ (bytes m _ _)] at heq
    have hsize : 8 + 56 ≤ imageHeaderSize + (readHeader m addr).ihSize := Nat.le_add_right _ _
    exact hrest (crc32_burst (burst_part hsize hburst) heq.symm).symm

theorem do_bootm_burst {lzma : List UInt8 → Option (List UInt8)} {args : Args} (hverify : args.verify = true)
    (hok : checkImage m args.addr true = .ok hdr) (hfront : bytes m' args.addr 8 = bytes m args.addr 8)
    (hburst : Burst 32 (bitsLow (bytes m args.addr (imageHeaderSize + hdr.ihSize)))
      (bitsLow (bytes m' args.addr (imageHeaderSize + hdr.ihSize))))
    (hne : bytes m' args.addr (imageHeaderSize + hdr.ihSize) ≠ bytes m args.addr (imageHeaderSize + hdr.ihSize)) :
    doBootm lzma m' args = ([], .failed .badHeaderChecksum) ∨ doBootm lzma m' args = ([], .failed .badDataCrc) := by
  rw [doBootm, hverify]
  rcases checkImage_burst hok hfront hburst hne with hbad | hbad
  · left
    rw [hbad, bootChecked]
  · right
    rw [hbad, bootChecked]

open MultiImage BootmBounds Tools.Mkimage

/-- An image of which a byte of the data has been damaged. -/
def hitImage : List UInt8 := sampleImage.set 79 0xA5

theorem do_bootm_burst_byte :
    doBootm (fun _ ↦ none) (fun k ↦ hitImage.getD k 0) bootZero = ([], .failed .badHeaderChecksum) ∨
      doBootm (fun _ ↦ none) (fun k ↦ hitImage.getD k 0) bootZero = ([], .failed .badDataCrc) := by
  obtain ⟨copied, -, ⟨hcrc, hcheck⟩, hlen⟩ := placed_of_mkimage
    (show mkimage sample ([1, 2, 3] :: [[4, 5]]) = some sampleImage from rfl) (by decide)
    (bytes_getD sampleImage 0) (by decide)
  have hsize : imageHeaderSize +
      (newHeader sample (sizeTable [[1, 2, 3], [4, 5]] ++ copied) hcrc).ihSize = 82 := by
    have hdata : (newHeader sample (sizeTable [[1, 2, 3], [4, 5]] ++ copied) hcrc).ihSize =
      (sizeTable [[1, 2, 3], [4, 5]]).length + copied.length := List.length_append
    rw [hdata, ← Nat.add_assoc, ← hlen]
    decide
  have himage (l : List UInt8) (hl : l.length = 82) : bytes (fun k ↦ l.getD k 0) 0 82 = l := by
    rw [← hl]
    exact bytes_getD l 0
  have hsample := himage sampleImage (by decide)
  have hhit := himage hitImage (by decide)
  have haddr : bootZero.addr = 0 := rfl
  have hlength : sampleImage.length = 82 := by decide
  have hfar : 8 * sampleImage.length ≤ 8 * 79 + 32 := by
    rw [hlength]
    decide
  have hbyte : sampleImage.drop 79 ≠ hitImage.drop 79 := by decide
  refine do_bootm_burst rfl (hcheck true) (bytes_congr fun k _ hk ↦ ?_) ?_ ?_
  · have hk : k ≠ 79 := by
      rw [haddr] at hk
      omega
    simp [hitImage, List.getElem?_set_ne hk.symm]
  · rw [hsize, haddr, hsample, hhit, bitsLow, bitsLow, hitImage]
    refine ⟨by rw [bits_length, bits_length, List.length_set], 8 * 79, ?_, ?_⟩
    · rw [← bits_take, ← bits_take, List.take_set_of_le (Nat.le_refl _)]
    · rw [List.drop_of_length_le, List.drop_of_length_le]
      · rwa [bits_length, List.length_set]
      · rwa [bits_length]
  · rw [hsize, haddr, hsample, hhit]
    exact fun heq ↦ hbyte (congrArg (List.drop 79) heq).symm

end UBoot.Common.BootmBurst
