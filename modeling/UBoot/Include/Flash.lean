import UBoot.LibGeneric.Vsprintf
import Mathlib.Data.List.Pairwise
import Mathlib.Order.Basic

namespace UBoot.Include.Flash

/-- `flash_info_t`. Addresses have 32 bits; the arrays are functions of the sector number. -/
structure FlashInfo where
  size : ℕ
  sectorCount : UInt16
  flashId : ℕ
  start : ℕ → ℕ
  protect : ℕ → UInt8

/-- `FLASH_UNKNOWN`. -/
def flashUnknown : ℕ := 0xffff

/-- `flash_info`; `CFG_MAX_FLASH_BANKS` is an `int`. -/
structure FlashTable where
  info : List FlashInfo
  banks_lt : info.length < 2147483648

namespace FlashInfo

variable (info : FlashInfo)

def sectors : ℕ := info.sectorCount.toNat

theorem sectors_lt : info.sectors < 65536 :=
  info.sectorCount.toNat_lt

/-- The address behind the bank. -/
def stop : ℕ := info.start 0 + info.size

/-- The address behind sector `i`. -/
def sectorStop (i : ℕ) : ℕ := if i + 1 = info.sectors then info.stop else info.start (i + 1)

/-- `s_end = info->sector_count - 1`, a `short`. -/
def sEnd : ℤ := ((info.sectors : ℤ) - 1).bmod 65536

/-- The byte at `a` is in this bank. -/
def Has (a : ℕ) : Prop := info.flashId ≠ flashUnknown ∧ info.start 0 ≤ a ∧ a < info.stop

/-- The byte at `a` is in sector `i`. -/
def SectorHas (i a : ℕ) : Prop :=
  info.flashId ≠ flashUnknown ∧ i < info.sectors ∧ info.start i ≤ a ∧ a < info.sectorStop i

structure Placed : Prop where
  size_pos : 0 < info.size
  size_lt : info.size < 4294967296
  stop_le : info.stop ≤ 4294967296

/-- The sectors lie one behind the other and make up the bank. -/
structure Sectored : Prop where
  pos : 0 < info.sectors
  le : info.sectors ≤ 32768
  start_lt : ∀ i < info.sectors, info.start i < info.sectorStop i

variable {info} {i j : ℕ}

theorem Sectored.sEnd_eq (h : info.Sectored) : info.sEnd = (info.sectors : ℤ) - 1 := by
  have hpos := h.pos
  have hle := h.le
  rw [sEnd, Int.bmod_def]
  split_ifs
  all_goals omega

theorem Sectored.sectorStop_le (h : info.Sectored) (hij : i < j) (hj : j < info.sectors) :
    info.sectorStop i ≤ info.start j := by
  induction j with
  | zero => omega
  | succ j ih =>
    rcases Nat.lt_succ_iff_lt_or_eq.mp hij with hlt | rfl
    · have hstep := h.start_lt j (by omega)
      rw [sectorStop, if_neg (by omega)] at hstep
      exact (ih hlt (by omega)).trans hstep.le
    · rw [sectorStop, if_neg (by omega)]

theorem Sectored.sectorStop_last (h : info.Sectored) :
    info.sectorStop (info.sectors - 1) = info.stop := by
  have hpos := h.pos
  rw [sectorStop, if_pos (by omega)]

theorem Sectored.sectorStop_le_stop (h : info.Sectored) (hi : i < info.sectors) :
    info.sectorStop i ≤ info.stop := by
  rcases Nat.lt_or_ge i (info.sectors - 1) with hlt | hge
  · have hle := h.sectorStop_le hlt (by omega)
    have hlast := h.start_lt (info.sectors - 1) (by omega)
    rw [h.sectorStop_last] at hlast
    exact hle.trans hlast.le
  · obtain rfl : i = info.sectors - 1 := by omega
    exact h.sectorStop_last.le

theorem Sectored.start_inj (h : info.Sectored) (hi : i < info.sectors) (hj : j < info.sectors)
    (heq : info.start i = info.start j) : i = j := by
  have hstart (k l : ℕ) (hkl : k < l) (hl : l < info.sectors) : info.start k < info.start l :=
    (h.start_lt k (by omega)).trans_le (h.sectorStop_le hkl hl)
  rcases Nat.lt_trichotomy i j with hlt | rfl | hlt
  · exact absurd heq (hstart i j hlt hj).ne
  · rfl
  · exact absurd heq (hstart j i hlt hi).ne'

theorem Sectored.stop_inj (h : info.Sectored) (hi : i < info.sectors) (hj : j < info.sectors)
    (heq : info.sectorStop i = info.sectorStop j) : i = j := by
  have hstop (k l : ℕ) (hkl : k < l) (hl : l < info.sectors) :
      info.sectorStop k < info.sectorStop l :=
    (h.sectorStop_le hkl hl).trans_lt (h.start_lt l hl)
  rcases Nat.lt_trichotomy i j with hlt | rfl | hlt
  · exact absurd heq (hstop i j hlt hj).ne
  · rfl
  · exact absurd heq (hstop j i hlt hi).ne'

theorem Sectored.has_start (h : info.Sectored) (hknown : info.flashId ≠ flashUnknown)
    (hi : i < info.sectors) : info.Has (info.start i) := by
  refine ⟨hknown, ?_, (h.start_lt i hi).trans_le (h.sectorStop_le_stop hi)⟩
  rcases Nat.eq_zero_or_pos i with rfl | hpos
  · exact le_rfl
  · exact (h.start_lt 0 h.pos).le.trans (h.sectorStop_le hpos hi)

/-- The sectors from `i` to `j` have the bytes from the start of `i` to the end of `j`. -/
theorem Sectored.union (h : info.Sectored) (hknown : info.flashId ≠ flashUnknown) (hij : i ≤ j)
    (hj : j < info.sectors) {a : ℕ} :
    (∃ k, i ≤ k ∧ k ≤ j ∧ info.SectorHas k a) ↔ info.start i ≤ a ∧ a < info.sectorStop j := by
  induction j, hij using Nat.le_induction with
  | base =>
    constructor
    · rintro ⟨k, hik, hki, -, -, hstart, hstop⟩
      obtain rfl : k = i := by omega
      exact ⟨hstart, hstop⟩
    · rintro ⟨hstart, hstop⟩
      exact ⟨i, le_rfl, le_rfl, hknown, hj, hstart, hstop⟩
  | succ j hij ih =>
    have hmid : info.sectorStop j = info.start (j + 1) := by
      rw [sectorStop, if_neg (by omega)]
    have hlast := h.start_lt (j + 1) hj
    have hfirst := h.start_lt j (by omega)
    have hih := ih (by omega)
    constructor
    · rintro ⟨k, hik, hkj, hhas⟩
      rcases Nat.eq_or_lt_of_le hkj with rfl | hlt
      · have hle := h.sectorStop_le (Nat.lt_succ_of_le hij) hj
        have hi := h.start_lt i (by omega)
        obtain ⟨-, -, hstart, hstop⟩ := hhas
        exact ⟨(hi.trans_le hle).le.trans hstart, hstop⟩
      · obtain ⟨hstart, hstop⟩ := hih.mp ⟨k, hik, Nat.lt_succ_iff.mp hlt, hhas⟩
        exact ⟨hstart, by omega⟩
    · rintro ⟨hstart, hstop⟩
      by_cases ha : a < info.sectorStop j
      · obtain ⟨k, hik, hkj, hhas⟩ := hih.mpr ⟨hstart, ha⟩
        exact ⟨k, hik, by omega, hhas⟩
      · exact ⟨j + 1, by omega, le_rfl, hknown, hj, by omega, hstop⟩

end FlashInfo

/-- Every bank has its place in the address space, and no two have a byte in common. -/
structure FlashBanks extends FlashTable where
  placed : ∀ b ∈ info, b.flashId ≠ flashUnknown → b.Placed
  disjoint : info.Pairwise fun b c ↦ ∀ a, b.Has a → ¬ c.Has a

end UBoot.Include.Flash
