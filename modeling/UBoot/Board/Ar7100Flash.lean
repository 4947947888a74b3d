import UBoot.Httpd.UpgradeFirmware
import UBoot.Lib.NorFlash
import UBoot.Lib.PageWrite

namespace UBoot.Board.Ar7100Flash

open Httpd.Cgi Httpd.UpgradeFirmware Lib.PageWrite

/-- What `write_buff` is called with; the place lies in the flash, whose addresses have 24 bits. -/
structure Buffer where
  source : List UInt8
  addr : UInt32
  inFlash : (addr - cfgFlashBase).toNat + source.length ≤ 2 ^ 24

def Buffer.offset (w : Buffer) : ℕ := (w.addr - cfgFlashBase).toNat

/-- The calls of `ar7100_spi_write_page` in `write_buff`. -/
def pageWrites (w : Buffer) : List (ℕ × List UInt8) :=
  (writeBuff w.addr (UInt32.ofNat w.source.length)).map fun page ↦
    (page.1, (w.source.drop (page.1 - w.offset)).take page.2)

/-- The flash after `write_buff`. A page program only clears bits. -/
def writeBuffer (w : Buffer) (cells : ℕ → UInt8) : ℕ → UInt8 :=
  writeAll (· &&& ·) spiPageSize (pageWrites w) cells

/-- Every byte of the area is erased. -/
def Erased (w : Buffer) (cells : ℕ → UInt8) : Prop :=
  ∀ k, w.offset ≤ k → k < w.offset + w.source.length → cells k = 0xff

structure PageCorrect (w : Buffer) : Prop where
  inPage : ∀ c ∈ pageWrites w, InPage spiPageSize c
  covers : Covers w.offset w.source (pageWrites w)
  written : ∀ cells, Erased w cells →
    writeBuffer w cells = overlay (fun _ b ↦ b) w.offset w.source cells

theorem chunk_pos (addr : ℕ) : 0 < spiPageSize - addr % spiPageSize := by
  have h := Nat.mod_lt addr (show 0 < spiPageSize by decide)
  omega

theorem mem_writeFrom_iff {addr len n total : ℕ} (hn : len ≤ total + n) (page : ℕ × ℕ) :
    page ∈ writeFrom addr len n total ↔ ∃ j, total + j * (spiPageSize - addr % spiPageSize) < len ∧
      page = (addr + (total + j * (spiPageSize - addr % spiPageSize)),
        min (len - (total + j * (spiPageSize - addr % spiPageSize)))
          (spiPageSize - addr % spiPageSize)) := by
  have hpos := chunk_pos addr
  induction n generalizing total with
  | zero =>
    simp only [writeFrom, List.not_mem_nil, false_iff]
    rintro ⟨j, hj, -⟩
    omega
  | succ n ih =>
    rw [writeFrom]
    generalize spiPageSize - addr % spiPageSize = chunk at ih hpos ⊢
    split
    · rename_i hlt
      rw [List.mem_cons]
      by_cases hlast : len - total ≤ chunk
      · -- the last round
        have hrest := @ih (total + (len - total)) (by omega)
        rw [Nat.min_eq_left hlast]
        constructor
        · rintro (rfl | hmem)
          · exact ⟨0, by omega, by rw [Nat.zero_mul, Nat.add_zero, Nat.min_eq_left hlast]⟩
          · obtain ⟨j, hj, -⟩ := hrest.mp hmem
            omega
        · rintro ⟨j, hj, rfl⟩
          cases j with
          | zero => exact Or.inl (by rw [Nat.zero_mul, Nat.add_zero, Nat.min_eq_left hlast])
          | succ j =>
            rw [Nat.add_one_mul] at hj
            omega
      · have hrest := @ih (total + chunk) (by omega)
        have hround : ∀ j, total + (j + 1) * chunk = total + chunk + j * chunk := by
          intro j
          rw [Nat.add_one_mul, Nat.add_comm _ chunk, Nat.add_assoc]
        rw [Nat.min_eq_right (by omega)]
        constructor
        · rintro (rfl | hmem)
          · exact ⟨0, by omega, by rw [Nat.zero_mul, Nat.add_zero, Nat.min_eq_right (by omega)]⟩
          · obtain ⟨j, hj, rfl⟩ := hrest.mp hmem
            exact ⟨j + 1, by rwa [hround], by rw [hround]⟩
        · rintro ⟨j, hj, rfl⟩
          cases j with
          | zero => exact Or.inl (by rw [Nat.zero_mul, Nat.add_zero, Nat.min_eq_right (by omega)])
          | succ j =>
            rw [hround] at hj
            exact Or.inr (hrest.mpr ⟨j, hj, by rw [hround]⟩)
    · rename_i hge
      simp only [List.not_mem_nil, false_iff]
      rintro ⟨j, hj, -⟩
      omega

theorem flatMap_writeFrom (source : List UInt8) {addr n total : ℕ} (hn : source.length ≤ total + n) :
    ((writeFrom addr source.length n total).flatMap fun page ↦
        ((source.drop (page.1 - addr)).take page.2).zipIdx page.1) =
      (source.drop total).zipIdx (addr + total) := by
  have hpos := chunk_pos addr
  induction n generalizing total with
  | zero => rw [writeFrom, List.flatMap_nil, List.drop_eq_nil_of_le (by omega), List.zipIdx_nil]
  | succ n ih =>
    rw [writeFrom]
    generalize spiPageSize - addr % spiPageSize = chunk at hpos ih ⊢
    split
    · have hrest := @ih (total + min (source.length - total) chunk) (by omega)
      have hlength : ((source.drop total).take (min (source.length - total) chunk)).length =
          min (source.length - total) chunk := by
        rw [List.length_take, List.length_drop]
        omega
      have hsplit : source.drop total = (source.drop total).take (min (source.length - total) chunk) ++
          source.drop (total + min (source.length - total) chunk) := by
        rw [← List.drop_drop, List.take_append_drop]
      rw [List.flatMap_cons, hrest, Nat.add_sub_cancel_left]
      conv_rhs => rw [hsplit, List.zipIdx_append, hlength, Nat.add_assoc]
    · rw [List.flatMap_nil, List.drop_eq_nil_of_le (by omega), List.zipIdx_nil]

theorem Buffer.ofNat_length (w : Buffer) : (UInt32.ofNat w.source.length).toNat = w.source.length := by
  have h := w.inFlash
  rw [UInt32.toNat_ofNat', Nat.mod_eq_of_lt (by omega)]

theorem pageWrites_eq (w : Buffer) :
    pageWrites w = (writeFrom w.offset w.source.length w.source.length 0).map fun page ↦
      (page.1, (w.source.drop (page.1 - w.offset)).take page.2) := by
  rw [pageWrites, writeBuff, w.ofNat_length, ← Buffer.offset]

theorem pageWrites_covers (w : Buffer) : Covers w.offset w.source (pageWrites w) := by
  rw [Covers, pageWrites_eq, List.flatMap_map]
  exact flatMap_writeFrom w.source (Nat.le_add_left _ _)

theorem mem_pageWrites_iff (w : Buffer) (a n : ℕ) :
    (∃ data, (a, data) ∈ pageWrites w ∧ data.length = n) ↔
      ∃ j, j * (spiPageSize - w.offset % spiPageSize) < w.source.length ∧
        a = w.offset + j * (spiPageSize - w.offset % spiPageSize) ∧
        n = min (w.source.length - j * (spiPageSize - w.offset % spiPageSize))
          (spiPageSize - w.offset % spiPageSize) := by
  have hlength : ∀ page ∈ writeFrom w.offset w.source.length w.source.length 0,
      ((w.source.drop (page.1 - w.offset)).take page.2).length = page.2 := by
    intro page hmem
    obtain ⟨j, hj, rfl⟩ := (mem_writeFrom_iff (Nat.le_add_left _ _) page).mp hmem
    rw [List.length_take, List.length_drop]
    omega
  rw [pageWrites_eq]
  constructor
  · rintro ⟨data, hmem, rfl⟩
    obtain ⟨page, hpage, heq⟩ := List.mem_map.mp hmem
    obtain ⟨rfl, rfl⟩ := Prod.mk.inj heq
    rw [hlength page hpage]
    obtain ⟨j, hj, rfl⟩ := (mem_writeFrom_iff (Nat.le_add_left _ _) page).mp hpage
    rw [Nat.zero_add] at hj ⊢
    exact ⟨j, hj, rfl, rfl⟩
  · rintro ⟨j, hj, rfl, rfl⟩
    have hpage := (mem_writeFrom_iff (Nat.le_add_left w.source.length 0)
      (w.offset + j * (spiPageSize - w.offset % spiPageSize),
        min (w.source.length - j * (spiPageSize - w.offset % spiPageSize))
          (spiPageSize - w.offset % spiPageSize))).mpr ⟨j, by rwa [Nat.zero_add], by rw [Nat.zero_add]⟩
    exact ⟨_, List.mem_map_of_mem hpage, hlength _ hpage⟩

/-- The calls stay in their pages when the first of them leaves a length that divides the page, or
when the buffer ends in the page behind. -/
theorem inPage_iff (w : Buffer) :
    (∀ c ∈ pageWrites w, InPage spiPageSize c) ↔
      spiPageSize - w.offset % spiPageSize ∣ spiPageSize ∨
        w.source.length ≤ 2 * spiPageSize - w.offset % spiPageSize := by
  have hmod := Nat.mod_lt w.offset (show 0 < spiPageSize by decide)
  have hpage : (∀ c ∈ pageWrites w, InPage spiPageSize c) ↔
      ∀ j, j * (spiPageSize - w.offset % spiPageSize) < w.source.length →
        (w.offset + j * (spiPageSize - w.offset % spiPageSize)) % spiPageSize +
          min (w.source.length - j * (spiPageSize - w.offset % spiPageSize))
            (spiPageSize - w.offset % spiPageSize) ≤ spiPageSize := by
    constructor
    · intro h j hj
      obtain ⟨data, hmem, hlength⟩ := (mem_pageWrites_iff w _ _).mpr ⟨j, hj, rfl, rfl⟩
      rw [← hlength]
      exact h _ hmem
    · rintro h ⟨a, data⟩ hmem
      obtain ⟨j, hj, rfl, hlength⟩ := (mem_pageWrites_iff w _ _).mp ⟨data, hmem, rfl⟩
      rw [InPage, hlength]
      exact h j hj
  -- the second call starts a page
  have hnext : ∀ j, (w.offset + (j + 1) * (spiPageSize - w.offset % spiPageSize)) % spiPageSize =
      j * (spiPageSize - w.offset % spiPageSize) % spiPageSize := by
    intro j
    have hsum : w.offset + (j + 1) * (spiPageSize - w.offset % spiPageSize) =
        j * (spiPageSize - w.offset % spiPageSize) + spiPageSize * (w.offset / spiPageSize + 1) := by
      have hdiv := Nat.div_add_mod w.offset spiPageSize
      rw [Nat.add_one_mul, Nat.mul_add_one]
      omega
    rw [hsum, Nat.add_mul_mod_self_left]
  have hpos := chunk_pos w.offset
  have hroom : w.offset % spiPageSize + (spiPageSize - w.offset % spiPageSize) = spiPageSize := by omega
  have hbound : 2 * spiPageSize - w.offset % spiPageSize =
      spiPageSize + (spiPageSize - w.offset % spiPageSize) := by omega
  rw [hpage, hbound]
  generalize spiPageSize - w.offset % spiPageSize = chunk at hnext hpos hroom ⊢
  constructor
  · intro h
    by_contra hcon
    rw [not_or, Nat.not_le] at hcon
    have hmul := Nat.div_add_mod spiPageSize chunk
    have hlt := Nat.mod_lt spiPageSize hpos
    have hne : spiPageSize % chunk ≠ 0 := fun h0 ↦ hcon.1 (Nat.dvd_of_mod_eq_zero h0)
    have hcross := h (spiPageSize / chunk + 1)
    rw [hnext, Nat.add_one_mul, Nat.mul_comm _ chunk, Nat.mod_eq_of_lt (by omega)] at hcross
    have := hcross (by omega)
    omega
  · intro h j hj
    cases j with
    | zero =>
      rw [Nat.zero_mul, Nat.add_zero]
      omega
    | succ j =>
      rw [hnext]
      rcases h with ⟨m, hm⟩ | h
      · have hm0 : 0 < m := by
          rcases Nat.eq_zero_or_pos m with rfl | hm0
          · simp [spiPageSize] at hm
          · exact hm0
        have hle := Nat.mul_le_mul_left chunk (Nat.mod_lt j hm0)
        have hmul : j * chunk % spiPageSize = chunk * (j % m) := by
          rw [hm, Nat.mul_comm j, Nat.mul_mod_mul_left]
        rw [Nat.mul_succ, ← hm] at hle
        rw [hmul]
        omega
      · rw [Nat.add_one_mul] at hj ⊢
        rw [Nat.mod_eq_of_lt (by omega)]
        omega

theorem overlay_erased {w : Buffer} {cells : ℕ → UInt8} (h : Erased w cells) :
    overlay (· &&& ·) w.offset w.source cells = overlay (fun _ b ↦ b) w.offset w.source cells := by
  funext k
  rcases Nat.lt_or_ge k w.offset with hlt | hge
  · rw [overlay_below _ _ hlt, overlay_below _ _ hlt]
  rcases Nat.lt_or_ge k (w.offset + w.source.length) with hlt | hge'
  · have hb := List.getElem?_eq_getElem (l := w.source) (i := k - w.offset) (by omega)
    rw [overlay_at _ hge hb, overlay_at _ hge hb, h k hge hlt, Lib.NorFlash.and_erased]
  · rw [overlay_behind _ hge', overlay_behind _ hge']

/-- Calls that stay in their pages write an erased area as it should be. -/
theorem writeBuffer_erased {w : Buffer} (h : ∀ c ∈ pageWrites w, InPage spiPageSize c)
    {cells : ℕ → UInt8} (hcells : Erased w cells) :
    writeBuffer w cells = overlay (fun _ b ↦ b) w.offset w.source cells := by
  rw [writeBuffer, writeAll_of_covers h (pageWrites_covers w), overlay_erased hcells]

theorem write_buff_page_correct_iff (w : Buffer) :
    PageCorrect w ↔ spiPageSize - w.offset % spiPageSize ∣ spiPageSize ∨
      w.source.length ≤ 2 * spiPageSize - w.offset % spiPageSize := by
  rw [← inPage_iff]
  constructor
  · exact fun h ↦ h.inPage
  · intro h
    exact ⟨h, pageWrites_covers w, fun cells hcells ↦ writeBuffer_erased h hcells⟩

/-- One byte behind the start of a page: the third call of 255 bytes would begin at the last
byte of the next page. -/
def shiftedBuffer : Buffer :=
  ⟨List.replicate 512 0, cfgFlashBase + 1, by rw [List.length_replicate]; decide⟩

theorem write_buff_crosses_page : ¬ PageCorrect shiftedBuffer := by
  intro h
  have hin := h.inPage (511, [0, 0]) (by decide +kernel)
  exact absurd hin (by decide)

end UBoot.Board.Ar7100Flash
