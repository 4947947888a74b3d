import UBoot.Board.Ar7100Flash

namespace UBoot.Common.BackBank

open Httpd.Cgi (cfgFlashBase)
open Httpd.UpgradeFirmware (cfgFlashSectorSize spiPageSize)
open Lib.PageWrite Board.Ar7100Flash

-- Addresses of `main.c` with `BACK_BANK_SUPPORT`, as offsets in the flash.
def kernelLocation : ℕ := 0x40000
def backKernel : ℕ := 0x430000
def cpLen : ℕ := 0x3d0000
def macLocation : ℕ := 0x410000
def countLocation : ℕ := 0x410030
def countLen : ℕ := 0x10000
def countAddr : ℕ := 0x30

def spiSectorErase (cells : ℕ → UInt8) (sector : ℕ) : ℕ → UInt8 :=
  fun k ↦ if k / cfgFlashSectorSize = sector then 0xff else cells k

/-- `flash_erase_t` of the ar7240 driver; sector `s_last` is erased too. -/
def flashEraseT (sFirst sLast : ℕ) (cells : ℕ → UInt8) : ℕ → UInt8 :=
  (List.range' sFirst (sLast + 1 - sFirst)).foldl spiSectorErase cells

theorem offset_flash {a : ℕ} (h : a ≤ 2 ^ 24) :
    (cfgFlashBase + UInt32.ofNat a - cfgFlashBase).toNat = a := by
  rw [UInt32.add_comm, UInt32.add_sub_cancel, UInt32.toNat_ofNat', Nat.mod_eq_of_lt (by omega)]

/-- `write_buff` of the ar7240 driver is that of the ar7100. -/
def writeBuff (source : List UInt8) (a : ℕ) (h : a + source.length ≤ 2 ^ 24)
    (cells : ℕ → UInt8) : ℕ → UInt8 :=
  writeBuffer ⟨source, cfgFlashBase + UInt32.ofNat a, by
    rw [offset_flash (by omega)]
    exact h⟩ cells

/-- `count_val`, a signed `char`, from the byte in the flash. -/
def countVal (count : UInt8) : Int8 :=
  if count = 0 ∨ count = 0xff then 1
  else if 10 < count.toInt8 then 1
  else count.toInt8 + 1

/-- `boot_times_check()`: its value and the flash. `buf_ptr` points to RAM. -/
def bootTimesCheck (cells : ℕ → UInt8) : ℤ × (ℕ → UInt8) :=
  let count := countVal (cells countLocation)
  let buf := (read cells macLocation countLen).set countAddr count.toUInt8
  (count.toInt, writeBuff buf macLocation (by simp [buf, macLocation, countLen])
    (flashEraseT 0x40 0x41 cells))

/-- `flash_recover()`; `startSector` is 0x4 and `endSector` is 0x40. -/
def flashRecover (cells : ℕ → UInt8) : ℕ → UInt8 :=
  writeBuff (read cells backKernel cpLen) kernelLocation (by simp [kernelLocation, cpLen])
    (flashEraseT 0x4 0x40 cells)

/-- One boot in `main_loop`: the image starts, or `run_command` returns. -/
def boot (cells : ℕ → UInt8) (returns : Bool) : ℕ → UInt8 :=
  let (times, cells) := bootTimesCheck cells
  if times < 5 then
    if returns then flashRecover cells else cells
  else flashRecover cells

/-- Only the counter byte changes, and it becomes the value that is returned, a `char`. -/
def CheckFrame (cells : ℕ → UInt8) : Prop :=
  ∀ k, (bootTimesCheck cells).2 k =
    if k = countLocation then (Int8.ofInt (bootTimesCheck cells).1).toUInt8 else cells k

/-- Only the kernel changes, and it becomes the backup. -/
def RecoverFrame (cells : ℕ → UInt8) : Prop :=
  ∀ k, flashRecover cells k =
    if kernelLocation ≤ k ∧ k < kernelLocation + cpLen then cells (backKernel + (k - kernelLocation))
    else cells k

/-- The last sector of the kernel, 0x40, is empty. -/
def LastSectorErased (cells : ℕ → UInt8) : Prop :=
  ∀ k, k / cfgFlashSectorSize = 0x40 → cells k = 0xff

theorem flashEraseT_apply (sFirst sLast : ℕ) (cells : ℕ → UInt8) (k : ℕ) :
    flashEraseT sFirst sLast cells k =
      if sFirst ≤ k / cfgFlashSectorSize ∧ k / cfgFlashSectorSize ≤ sLast then 0xff else cells k := by
  have hall : ∀ (n s : ℕ) (cells : ℕ → UInt8), (List.range' s n).foldl spiSectorErase cells k =
      if s ≤ k / cfgFlashSectorSize ∧ k / cfgFlashSectorSize < s + n then 0xff else cells k := by
    intro n
    induction n with
    | zero =>
      intro s cells
      rw [List.range'_zero, List.foldl_nil, if_neg (by omega)]
    | succ n ih =>
      intro s cells
      rw [List.range'_succ, List.foldl_cons, ih]
      generalize hsector : k / cfgFlashSectorSize = sector
      simp only [spiSectorErase, hsector]
      split_ifs <;> first | rfl | omega
  rw [flashEraseT, hall]
  refine if_congr ?_ rfl rfl
  omega

theorem writeBuff_apply {source : List UInt8} {a : ℕ} (h : a + source.length ≤ 2 ^ 24)
    (ha : a % spiPageSize = 0) {cells : ℕ → UInt8}
    (hcells : ∀ k, a ≤ k → k < a + source.length → cells k = 0xff) :
    writeBuff source a h cells = overlay (fun _ b ↦ b) a source cells := by
  rw [writeBuff]
  generalize hw : Buffer.mk source (cfgFlashBase + UInt32.ofNat a) _ = w
  have hoffset : w.offset = a := by
    rw [← hw]
    exact offset_flash (by omega)
  have hsource : w.source = source := by rw [← hw]
  rw [writeBuffer_erased, hoffset, hsource]
  · apply (inPage_iff w).mpr
    rw [hoffset, ha]
    exact Or.inl (Nat.dvd_refl _)
  · intro k hlo hhi
    rw [hoffset] at hlo hhi
    rw [hsource] at hhi
    exact hcells k hlo hhi

/-- What `boot_times_check` leaves: the counter, an empty sector 0x40, and the rest. -/
theorem bootTimesCheck_apply (cells : ℕ → UInt8) (k : ℕ) :
    (bootTimesCheck cells).2 k =
      if k = countLocation then (countVal (cells countLocation)).toUInt8
      else if k / cfgFlashSectorSize = 0x40 then 0xff else cells k := by
  have hlength : ((read cells macLocation countLen).set countAddr
      (countVal (cells countLocation)).toUInt8).length = countLen := by
    rw [List.length_set, read_length]
  have herased : ∀ k, macLocation ≤ k → k < macLocation + countLen →
      flashEraseT 0x40 0x41 cells k = 0xff := by
    intro k hlo hhi
    simp only [macLocation, countLen] at hlo hhi
    rw [flashEraseT_apply, if_pos (by simp only [cfgFlashSectorSize]; omega)]
  simp only [bootTimesCheck]
  rw [writeBuff_apply _ (by decide) (by rwa [hlength])]
  by_cases hin : macLocation ≤ k ∧ k < macLocation + countLen
  · obtain ⟨hlo, hhi⟩ := hin
    have hread := read_getElem? cells macLocation (i := k - macLocation) (n := countLen) (by omega)
    rw [Nat.add_sub_cancel' hlo] at hread
    have hsector : k / cfgFlashSectorSize ≠ 0x40 := by
      simp only [macLocation, countLen, cfgFlashSectorSize] at hlo hhi ⊢
      omega
    rw [if_neg hsector, overlay, if_pos hlo, List.getElem?_set, hread, read_length]
    by_cases hk : k = countLocation
    · rw [if_pos (by rw [hk]; rfl), if_pos (by decide), if_pos hk, Option.elim_some]
    · have hne : countAddr ≠ k - macLocation := by
        simp only [macLocation, countAddr, countLocation] at hlo hk ⊢
        omega
      rw [if_neg hne, if_neg hk, Option.elim_some]
  · have hk : k ≠ countLocation := by
      rintro rfl
      exact hin ⟨by decide, by decide⟩
    have hover : overlay (fun _ b ↦ b) macLocation ((read cells macLocation countLen).set countAddr
        (countVal (cells countLocation)).toUInt8) (flashEraseT 0x40 0x41 cells) k =
          flashEraseT 0x40 0x41 cells k := by
      rcases Nat.lt_or_ge k macLocation with hlt | hge
      · exact overlay_below _ _ hlt
      · exact overlay_behind _ (by rw [hlength]; omega)
    rw [hover, flashEraseT_apply, if_neg hk]
    refine if_congr ?_ rfl rfl
    simp only [macLocation, countLen, cfgFlashSectorSize] at hin ⊢
    omega

theorem recoverFrame (cells : ℕ → UInt8) : RecoverFrame cells := by
  intro k
  have herased : ∀ k, kernelLocation ≤ k → k < kernelLocation + (read cells backKernel cpLen).length →
      flashEraseT 0x4 0x40 cells k = 0xff := by
    intro k hlo hhi
    rw [read_length] at hhi
    simp only [kernelLocation, cpLen] at hlo hhi
    rw [flashEraseT_apply, if_pos (by simp only [cfgFlashSectorSize]; omega)]
  rw [flashRecover, writeBuff_apply _ (by decide) herased]
  by_cases hin : kernelLocation ≤ k ∧ k < kernelLocation + cpLen
  · rw [if_pos hin, overlay_at _ hin.1 (read_getElem? cells backKernel (by omega))]
  · have hkept : flashEraseT 0x4 0x40 cells k = cells k := by
      rw [flashEraseT_apply, if_neg]
      simp only [kernelLocation, cpLen, cfgFlashSectorSize] at hin ⊢
      omega
    rw [if_neg hin, ← hkept]
    rcases Nat.lt_or_ge k kernelLocation with hlt | hge
    · exact overlay_below _ _ hlt
    · exact overlay_behind _ (by rw [read_length]; omega)

theorem checkFrame_iff (cells : ℕ → UInt8) : CheckFrame cells ↔ LastSectorErased cells := by
  have hvalue : (Int8.ofInt (bootTimesCheck cells).1).toUInt8 =
      (countVal (cells countLocation)).toUInt8 := congrArg Int8.toUInt8 (Int8.ofInt_toInt _)
  have hsector : countLocation / cfgFlashSectorSize ≠ 0x40 := by decide
  simp only [CheckFrame, LastSectorErased, hvalue, bootTimesCheck_apply]
  constructor
  · intro h k hk
    have hne : k ≠ countLocation := by
      rintro rfl
      exact hsector hk
    have hkept := h k
    rw [if_neg hne, if_pos hk, if_neg hne] at hkept
    exact hkept.symm
  · intro h k
    split_ifs with hcount hk
    · rfl
    · exact (h k hk).symm
    · rfl

/-- At each of the successive boots, the counter and a recovery touch only their own flash if and
only if the last sector of the kernel is erased. -/
theorem back_bank_frame_iff (cells : ℕ → UInt8) (boots : List Bool) :
    (∀ before returns after, boots = before ++ returns :: after →
        CheckFrame (before.foldl boot cells) ∧
          RecoverFrame (bootTimesCheck (before.foldl boot cells)).2) ↔
      ∀ before returns after, boots = before ++ returns :: after →
        LastSectorErased (before.foldl boot cells) := by
  constructor
  · intro h before returns after heq
    exact (checkFrame_iff _).mp (h before returns after heq).1
  · intro h before returns after heq
    exact ⟨(checkFrame_iff _).mpr (h before returns after heq), recoverFrame _⟩

/-- A flash of zeros loses its sector 0x40 at the first boot. -/
theorem back_bank_loses_sector :
    ¬ ∀ before returns after, [false] = before ++ returns :: after →
        CheckFrame (before.foldl boot fun _ ↦ 0) ∧
          RecoverFrame (bootTimesCheck (before.foldl boot fun _ ↦ 0)).2 := by
  intro h
  have hkept := (h [] false [] rfl).1 0x400000
  rw [List.foldl_nil, bootTimesCheck_apply] at hkept
  revert hkept
  decide

end UBoot.Common.BackBank
