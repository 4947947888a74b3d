import UBoot.Env.EnvFlash
import UBoot.Lib.PageWrite

namespace UBoot.Env.EnvEeprom

open Nvedit EnvFlash LibGeneric.Crc32 Lib.PageWrite

/-- The configuration: `CFG_EEPROM_PAGE_WRITE_BITS`, `CFG_ENV_OFFSET` and `CFG_ENV_SIZE`. -/
structure Area where
  pageWriteBits : ℕ
  offset : ℕ
  size : ℕ
  pageWriteBits_pos : 1 ≤ pageWriteBits
  header : 4 ≤ size
  fits : offset + size < 2 ^ 32

/-- What `env_ptr` points to. -/
structure Block (a : Area) where
  env : EnvT
  size : (envBytes env).length = a.size
  crc : env.crc = crc32 0 env.data

def i2cRxtxLen : ℕ := 128

def eepromPageSize (bits : ℕ) : ℕ := 2 ^ bits

/-- `maxlen` in `eeprom_write`; only the offset in the block of 256 bytes is looked at. -/
def writeMax (bits offset : ℕ) : ℕ :=
  let blkOff := offset % 256
  min (eepromPageSize bits - blkOff % eepromPageSize bits) i2cRxtxLen

/-- `maxlen` in `eeprom_read`. -/
def readMax (offset : ℕ) : ℕ := min (256 - offset % 256) i2cRxtxLen

/-- The transfers of the loop of `eeprom_write`; each has at least one byte. -/
def writeLoop (bits : ℕ) : ℕ → ℕ → List UInt8 → List (ℕ × List UInt8)
  | 0, _, _ => []
  | n + 1, offset, buffer =>
    if buffer = [] then []
    else
      let len := min buffer.length (writeMax bits offset)
      (offset, buffer.take len) :: writeLoop bits n (offset + len) (buffer.drop len)

def eepromWrite (bits offset : ℕ) (buffer : List UInt8) : List (ℕ × List UInt8) :=
  writeLoop bits buffer.length offset buffer

/-- The bytes that the loop of `eeprom_read` puts into the buffer. -/
def readLoop (cells : ℕ → UInt8) : ℕ → ℕ → ℕ → List UInt8
  | 0, _, _ => []
  | n + 1, offset, cnt =>
    if cnt = 0 then []
    else
      let len := min cnt (readMax offset)
      read cells offset len ++ readLoop cells n (offset + len) (cnt - len)

def eepromRead (cells : ℕ → UInt8) (offset cnt : ℕ) : List UInt8 := readLoop cells cnt offset cnt

/-- The chip after `saveenv`; a write command wraps around in its page. -/
def saveenv (a : Area) (b : Block a) (cells : ℕ → UInt8) : ℕ → UInt8 :=
  writeAll (fun _ b ↦ b) (eepromPageSize a.pageWriteBits)
    (eepromWrite a.pageWriteBits a.offset (envBytes b.env)) cells

def envRelocateSpec (a : Area) (cells : ℕ → UInt8) : List UInt8 := eepromRead cells a.offset a.size

/-- The CRC of `env_init`, taken over pieces of 64 bytes. -/
def crcLoop (cells : ℕ → UInt8) : ℕ → ℕ → ℕ → UInt32 → UInt32
  | 0, _, _, new => new
  | n + 1, off, len, new =>
    if len = 0 then new
    else
      let k := min len 64
      crcLoop cells n (off + k) (len - k) (crc32 new (eepromRead cells off k))

/-- `gd->env_valid` after `env_init`. -/
def envInit (a : Area) (cells : ℕ → UInt8) : ℕ :=
  let crc := ofBe32 (eepromRead cells a.offset 4)
  let new := crcLoop cells (a.size - 4) (a.offset + 4) (a.size - 4) 0
  if crc = new then 1 else 0

structure RoundTrip (a : Area) (b : Block a) : Prop where
  inPage : ∀ c ∈ eepromWrite a.pageWriteBits a.offset (envBytes b.env),
    InPage (eepromPageSize a.pageWriteBits) c
  covers : Covers a.offset (envBytes b.env) (eepromWrite a.pageWriteBits a.offset (envBytes b.env))
  valid : ∀ cells, envInit a (saveenv a b cells) = 1
  relocated : ∀ cells, envRelocateSpec a (saveenv a b cells) = envBytes b.env

theorem writeMax_pos (bits offset : ℕ) : 0 < writeMax bits offset := by
  have h := Nat.mod_lt (offset % 256) (Nat.two_pow_pos bits)
  simp only [writeMax, eepromPageSize, i2cRxtxLen]
  omega

theorem readMax_pos (offset : ℕ) : 0 < readMax offset := by
  have h := Nat.mod_lt offset (show 0 < 256 by decide)
  simp only [readMax, i2cRxtxLen]
  omega

theorem writeLoop_covers (bits : ℕ) {n offset : ℕ} {buffer : List UInt8} (hn : buffer.length ≤ n) :
    Covers offset buffer (writeLoop bits n offset buffer) := by
  induction n generalizing offset buffer with
  | zero =>
    obtain rfl := List.length_eq_zero_iff.mp (Nat.le_zero.mp hn)
    rfl
  | succ n ih =>
    rw [writeLoop]
    split
    · rename_i hnil
      rw [hnil]
      rfl
    · rename_i hne
      have hpos := writeMax_pos bits offset
      have hlength := List.length_pos_iff.mpr hne
      generalize hlen : min buffer.length (writeMax bits offset) = len
      have hrest : Covers (offset + len) (buffer.drop len) (writeLoop bits n (offset + len) (buffer.drop len)) :=
        ih (by rw [List.length_drop]; omega)
      have htake : (buffer.take len).length = len := by
        rw [List.length_take]
        omega
      rw [Covers, List.flatMap_cons, hrest]
      conv_rhs => rw [← List.take_append_drop len buffer, List.zipIdx_append, htake]

theorem readLoop_eq (cells : ℕ → UInt8) {n offset cnt : ℕ} (hn : cnt ≤ n) :
    readLoop cells n offset cnt = read cells offset cnt := by
  induction n generalizing offset cnt with
  | zero =>
    obtain rfl := Nat.le_zero.mp hn
    rfl
  | succ n ih =>
    rw [readLoop]
    split
    · rename_i h0
      rw [h0]
      rfl
    · have hpos := readMax_pos offset
      have hrest := @ih (offset + min cnt (readMax offset))
        (cnt - min cnt (readMax offset)) (by omega)
      simp only [hrest, ← read_add, Nat.add_sub_cancel' (Nat.min_le_left _ _)]

theorem eepromRead_eq (cells : ℕ → UInt8) (offset cnt : ℕ) :
    eepromRead cells offset cnt = read cells offset cnt := readLoop_eq cells (Nat.le_refl cnt)

theorem crcLoop_eq (cells : ℕ → UInt8) {n off len : ℕ} (hn : len ≤ n) (new : UInt32) :
    crcLoop cells n off len new = crc32 new (read cells off len) := by
  induction n generalizing off len new with
  | zero =>
    obtain rfl := Nat.le_zero.mp hn
    exact (crc32_nil new).symm
  | succ n ih =>
    rw [crcLoop]
    split
    · rename_i h0
      rw [h0]
      exact (crc32_nil new).symm
    · have hrest := @ih (off + min len 64) (len - min len 64) (by omega)
      simp only [hrest, eepromRead_eq, crc32_append, ← read_add,
        Nat.add_sub_cancel' (Nat.min_le_left _ _)]

theorem mem_writeLoop {bits n offset : ℕ} {buffer : List UInt8} {c : ℕ × List UInt8}
    (h : c ∈ writeLoop bits n offset buffer) :
    offset ≤ c.1 ∧ c.1 + c.2.length ≤ offset + buffer.length ∧ c.2.length ≤ writeMax bits c.1 := by
  induction n generalizing offset buffer with
  | zero => simp [writeLoop] at h
  | succ n ih =>
    rw [writeLoop] at h
    split at h
    · simp at h
    · rcases List.mem_cons.mp h with rfl | h
      · simp only [List.length_take]
        omega
      · obtain ⟨hge, hle, hmax⟩ := ih h
        rw [List.length_drop] at hle
        omega

theorem writeMax_small {bits : ℕ} (h : bits ≤ 8) (offset : ℕ) :
    offset % eepromPageSize bits + writeMax bits offset ≤ eepromPageSize bits := by
  have hdvd : eepromPageSize bits ∣ 256 := Nat.pow_dvd_pow 2 h
  have hmod := Nat.mod_lt offset (Nat.two_pow_pos bits)
  rw [writeMax, Nat.mod_mod_of_dvd _ hdvd]
  simp only [eepromPageSize] at hmod ⊢
  omega

/-- On a larger page only the length of the bus buffer limits a transfer. -/
theorem writeMax_large {bits : ℕ} (h : 9 ≤ bits) (offset : ℕ) : writeMax bits offset = i2cRxtxLen := by
  have hpow : 2 ^ 9 ≤ 2 ^ bits := Nat.pow_le_pow_right (by decide) h
  have hmod := Nat.mod_lt offset (show 0 < 256 by decide)
  simp only [writeMax, eepromPageSize, i2cRxtxLen]
  rw [Nat.mod_eq_of_lt (show offset % 256 < 2 ^ bits by omega)]
  omega

/-- On a larger page all transfers but the last have the length of the bus buffer. -/
theorem dvd_of_mem_writeLoop {bits : ℕ} (hbits : 9 ≤ bits) {n offset : ℕ} {buffer : List UInt8}
    {c : ℕ × List UInt8} (h : c ∈ writeLoop bits n offset buffer) (hoffset : i2cRxtxLen ∣ offset) :
    i2cRxtxLen ∣ c.1 := by
  induction n generalizing offset buffer with
  | zero => simp [writeLoop] at h
  | succ n ih =>
    rw [writeLoop] at h
    split at h
    · simp at h
    · rcases List.mem_cons.mp h with rfl | h
      · exact hoffset
      · rw [writeMax_large hbits] at h
        rcases Nat.lt_or_ge buffer.length i2cRxtxLen with hlt | hge
        · rw [Nat.min_eq_left hlt.le, List.drop_length] at h
          cases n <;> simp [writeLoop] at h
        · rw [Nat.min_eq_right hge] at h
          exact ih h (Nat.dvd_add hoffset (Nat.dvd_refl _))

/-- A boundary that the transfers do not hit lies inside one of them. -/
theorem exists_crossing {bits : ℕ} (hbits : 9 ≤ bits) {n offset bound : ℕ} {buffer : List UInt8}
    (hn : buffer.length ≤ n) (hlo : offset < bound) (hhi : bound < offset + buffer.length)
    (hdvd : ¬ i2cRxtxLen ∣ bound - offset) :
    ∃ c ∈ writeLoop bits n offset buffer, c.1 < bound ∧ bound < c.1 + c.2.length := by
  induction n generalizing offset buffer with
  | zero => omega
  | succ n ih =>
    have hne : buffer ≠ [] := List.ne_nil_of_length_pos (by omega)
    rw [writeLoop, if_neg hne, writeMax_large hbits]
    generalize hlen : min buffer.length i2cRxtxLen = len
    have htake : (buffer.take len).length = len := by
      rw [List.length_take]
      omega
    rcases Nat.lt_trichotomy bound (offset + len) with hlt | rfl | hgt
    · exact ⟨_, List.mem_cons_self, hlo, by rw [htake]; exact hlt⟩
    · rw [Nat.add_sub_cancel_left] at hdvd
      have hfull : len = i2cRxtxLen := by omega
      exact absurd (hfull ▸ Nat.dvd_refl len) hdvd
    · have hfull : len = i2cRxtxLen := by omega
      have hpos : 0 < len := by rw [hfull]; decide
      obtain ⟨c, hmem, hc⟩ := @ih (offset + len) (buffer.drop len)
        (by rw [List.length_drop]; omega) hgt (by rw [List.length_drop]; omega) (by
          intro hdvd'
          apply hdvd
          have hsum : bound - offset = bound - (offset + len) + i2cRxtxLen := by omega
          rw [hsum]
          exact Nat.dvd_add hdvd' (Nat.dvd_refl _))
      exact ⟨c, List.mem_cons_of_mem _ hmem, hc⟩

theorem inPage_of_within {page offset len a n : ℕ} (h : offset % page + len ≤ page)
    (hlo : offset ≤ a) (hhi : a + n ≤ offset + len) : a % page + n ≤ page := by
  have ha := Nat.div_add_mod a page
  have ho := Nat.div_add_mod offset page
  rcases Nat.lt_trichotomy (a / page) (offset / page) with hlt | heq | hgt
  · have hmul := Nat.mul_le_mul_left page hlt
    have hmod := Nat.mod_lt a (show 0 < page by rcases Nat.eq_zero_or_pos page with rfl | h; simp at hlt; exact h)
    rw [Nat.mul_succ] at hmul
    omega
  · rw [heq] at ha
    omega
  · have hmul := Nat.mul_le_mul_left page hgt
    rw [Nat.mul_succ] at hmul
    omega

theorem inPage_iff (bits offset : ℕ) (buffer : List UInt8) :
    (∀ c ∈ eepromWrite bits offset buffer, InPage (eepromPageSize bits) c) ↔
      bits ≤ 8 ∨ i2cRxtxLen ∣ offset ∨
        offset % eepromPageSize bits + buffer.length ≤ eepromPageSize bits := by
  constructor
  · intro h
    by_contra hcon
    rw [not_or, not_or, Nat.not_le, Nat.not_le] at hcon
    obtain ⟨hbits, hdvd, hlong⟩ := hcon
    have hpage : i2cRxtxLen ∣ eepromPageSize bits := Nat.pow_dvd_pow 2 (show 7 ≤ bits by omega)
    have hmod := Nat.mod_lt offset (Nat.two_pow_pos bits)
    have hdiv := Nat.div_add_mod offset (eepromPageSize bits)
    rw [← eepromPageSize] at hmod
    -- the end of the page of `offset`
    have hbegin : offset < eepromPageSize bits * (offset / eepromPageSize bits + 1) := by
      rw [Nat.mul_add_one]
      omega
    have hend : eepromPageSize bits * (offset / eepromPageSize bits + 1) < offset + buffer.length := by
      rw [Nat.mul_add_one]
      omega
    obtain ⟨c, hmem, hlo, hhi⟩ := exists_crossing hbits (Nat.le_refl _) hbegin hend (by
        intro hsub
        apply hdvd
        have hle : offset ≤ eepromPageSize bits * (offset / eepromPageSize bits + 1) := by
          rw [Nat.mul_add_one]
          omega
        exact (Nat.dvd_sub_iff_right hle (Dvd.dvd.mul_right hpage _)).mp hsub)
    have hin := h c hmem
    have hdiv' := Nat.div_add_mod c.1 (eepromPageSize bits)
    have hmul := Nat.mul_le_mul_left (eepromPageSize bits)
      (Nat.le_of_lt_succ (Nat.div_lt_of_lt_mul hlo))
    rw [InPage] at hin
    rw [Nat.mul_add_one] at hhi
    omega
  · intro h c hmem
    obtain ⟨hlo, hhi, hmax⟩ := mem_writeLoop hmem
    rcases Nat.lt_or_ge 8 bits with hbits | hbits
    · rcases h with h | hdvd | hshort
      · omega
      · obtain ⟨t, ht⟩ := dvd_of_mem_writeLoop hbits hmem hdvd
        obtain ⟨m, hm⟩ : i2cRxtxLen ∣ eepromPageSize bits :=
          Nat.pow_dvd_pow 2 (show 7 ≤ bits by omega)
        have hm0 : 0 < m := by
          rcases Nat.eq_zero_or_pos m with rfl | hm0
          · exact absurd hm (Nat.two_pow_pos bits).ne'
          · exact hm0
        have hle := Nat.mul_le_mul_left i2cRxtxLen (Nat.mod_lt t hm0)
        rw [Nat.mul_succ] at hle
        rw [writeMax_large hbits] at hmax
        rw [InPage, ht, hm, Nat.mul_mod_mul_left]
        omega
      · exact inPage_of_within hshort hlo hhi
    · have hsmall := writeMax_small hbits c.1
      rw [InPage]
      omega

theorem saveenv_eq {a : Area} {b : Block a}
    (h : ∀ c ∈ eepromWrite a.pageWriteBits a.offset (envBytes b.env),
      InPage (eepromPageSize a.pageWriteBits) c) (cells : ℕ → UInt8) :
    saveenv a b cells = overlay (fun _ b ↦ b) a.offset (envBytes b.env) cells :=
  writeAll_of_covers h (writeLoop_covers _ (Nat.le_refl _)) cells

theorem envInit_overlay (a : Area) (b : Block a) (cells : ℕ → UInt8) :
    envInit a (overlay (fun _ b ↦ b) a.offset (envBytes b.env) cells) = 1 ∧
      envRelocateSpec a (overlay (fun _ b ↦ b) a.offset (envBytes b.env) cells) = envBytes b.env := by
  have hall := read_overlay a.offset (envBytes b.env) cells
  rw [b.size] at hall
  have hdata : b.env.data.length = a.size - 4 := by
    have hsize := b.size
    rw [envBytes, List.length_append, be32_length] at hsize
    omega
  have hsplit := hall
  rw [← Nat.add_sub_cancel' a.header, read_add, envBytes] at hsplit
  obtain ⟨hcrc, hrest⟩ := List.append_inj hsplit (by rw [read_length, be32_length])
  rw [envRelocateSpec, eepromRead_eq, hall]
  refine ⟨?_, rfl⟩
  rw [← envBytes] at hcrc hrest
  simp only [envInit, eepromRead_eq, hcrc, crcLoop_eq _ (Nat.le_refl _), hrest, ofBe32_be32, b.crc,
    if_true]

theorem eeprom_round_trip_iff (a : Area) (b : Block a) :
    RoundTrip a b ↔ a.pageWriteBits ≤ 8 ∨ i2cRxtxLen ∣ a.offset ∨
      a.offset % eepromPageSize a.pageWriteBits + a.size ≤ eepromPageSize a.pageWriteBits := by
  rw [← b.size, ← inPage_iff]
  constructor
  · exact fun h ↦ h.inPage
  · intro h
    refine ⟨h, writeLoop_covers _ (Nat.le_refl _), fun cells ↦ ?_, fun cells ↦ ?_⟩
    · rw [saveenv_eq h]
      exact (envInit_overlay a b cells).1
    · rw [saveenv_eq h]
      exact (envInit_overlay a b cells).2

/-- Pages of 512 bytes, and an environment from the last byte of a page on. -/
def oddArea : Area := ⟨9, 511, 8, by decide, by decide, by decide⟩

def oddBlock : Block oddArea := ⟨⟨crc32 0 [97, 61, 0, 0], [97, 61, 0, 0]⟩, rfl, rfl⟩

theorem eeprom_crosses_page : ¬ RoundTrip oddArea oddBlock := by
  intro h
  have hin := h.inPage (511, envBytes oddBlock.env) (by decide +kernel)
  exact absurd hin (by decide)

end UBoot.Env.EnvEeprom
