import UBoot.Httpd.Segmentation

namespace UBoot.Httpd.UpgradeFirmware

open Lib.CString Cgi Appcall Upload Multipart PartHeader Segmentation

def cfgFlashSectorSize : ℕ := 64 * 1024

def spiPageSize : ℕ := 256

/-- The sectors erased by `flash_erase_t`, from the round with `i` on. -/
def eraseFrom (sLast : ℕ) : ℕ → ℕ → List ℕ
  | 0, i => [i]
  | n + 1, i => i :: if i + 1 < sLast then eraseFrom sLast n (i + 1) else []

def flashEraseT (sFirst sLast : ℕ) : List ℕ := eraseFrom sLast (sLast - sFirst) sFirst

/-- The address and length of the page writes of `write_buff` from `total` on. Every round
writes at least one byte. -/
def writeFrom (addr len : ℕ) : ℕ → ℕ → List (ℕ × ℕ)
  | 0, _ => []
  | n + 1, total =>
    if total < len then
      let lenThisLp := min (len - total) (spiPageSize - addr % spiPageSize)
      (addr + total, lenThisLp) :: writeFrom addr len n (total + lenThisLp)
    else []

def writeBuff (addr len : UInt32) : List (ℕ × ℕ) :=
  writeFrom (addr - cfgFlashBase).toNat len.toNat len.toNat 0

/-- `upgrade_firmware()`: the sectors it erases and the pages it writes, as offsets in the
flash. -/
def upgradeFirmware (g : Vars) : List ℕ × List (ℕ × ℕ) :=
  (flashEraseT g.startSector g.endSector, writeBuff g.flashBase g.totalFilesize)

/-- Every byte that is programmed lies in an erased sector. -/
def ProgramsErased (g : Vars) : Prop :=
  ∀ page ∈ (upgradeFirmware g).2, ∀ k, page.1 ≤ k → k < page.1 + page.2 →
    k / cfgFlashSectorSize ∈ (upgradeFirmware g).1

theorem mem_eraseFrom (sLast n i s : ℕ) (hn : sLast ≤ i + n) :
    s ∈ eraseFrom sLast n i ↔ s = i ∨ (i < s ∧ s < sLast) := by
  induction n generalizing i with
  | zero =>
    simp only [eraseFrom, List.mem_singleton]
    omega
  | succ n ih =>
    rw [eraseFrom, List.mem_cons]
    split
    · rw [ih (i + 1) (by omega)]
      omega
    · simp only [List.not_mem_nil, or_false]
      omega

theorem mem_flashEraseT {sFirst sLast s : ℕ} (h : sFirst < sLast) :
    s ∈ flashEraseT sFirst sLast ↔ sFirst ≤ s ∧ s < sLast := by
  rw [flashEraseT, mem_eraseFrom _ _ _ _ (by omega)]
  omega

theorem mem_writeFrom (addr len n total k : ℕ) (hn : len ≤ total + n) :
    (∃ page ∈ writeFrom addr len n total, page.1 ≤ k ∧ k < page.1 + page.2) ↔
      addr + total ≤ k ∧ k < addr + len := by
  induction n generalizing total with
  | zero =>
    simp only [writeFrom, List.not_mem_nil, false_and, exists_false, false_iff]
    omega
  | succ n ih =>
    rw [writeFrom]
    split
    · have hp : 0 < spiPageSize - addr % spiPageSize := by
        have := Nat.mod_lt addr (show 0 < spiPageSize by decide)
        omega
      simp only [List.mem_cons, or_and_right, exists_or, exists_eq_left]
      rw [ih _ (by omega)]
      omega
    · simp only [List.not_mem_nil, false_and, exists_false, false_iff]
      omega

/-- What is programmed starts at `flash_base` and has `total_filesize` bytes. -/
theorem programsErased_iff (g : Vars) :
    ProgramsErased g ↔ ∀ k, (g.flashBase - cfgFlashBase).toNat ≤ k →
      k < (g.flashBase - cfgFlashBase).toNat + g.totalFilesize.toNat →
      k / cfgFlashSectorSize ∈ flashEraseT g.startSector g.endSector := by
  simp only [ProgramsErased, upgradeFirmware, writeBuff]
  generalize (g.flashBase - cfgFlashBase).toNat = addr
  generalize g.totalFilesize.toNat = len
  have hw := fun k ↦ mem_writeFrom addr len len 0 k (by omega)
  constructor
  · intro h k hlo hhi
    obtain ⟨page, hm, h1, h2⟩ := (hw k).mpr ⟨hlo, hhi⟩
    exact h page hm k h1 h2
  · intro h page hm k h1 h2
    obtain ⟨hlo, hhi⟩ := (hw k).mp ⟨page, hm, h1, h2⟩
    exact h k hlo hhi

/-- What `upgrade_cgi` leaves in `g'` when it accepts the image whose size is in `g`. -/
inductive Accepted (g g' : Vars) : Prop
  | loader (hle : g.totalFilesize ≤ bootImgUpperBound)
      (hsize : g'.totalFilesize = g.totalFilesize) (hs : g'.startSector = backupEraseStartSector)
      (he : g'.endSector = backupEraseEndSector) (hb : g'.flashBase = cfgFlashBase)
  | kernel (hlt : 512 * 1024 < g.totalFilesize)
      (hsize : g'.totalFilesize = g.totalFilesize) (hs : g'.startSector = normalEraseStartSector)
      (he : g'.endSector = normalEraseEndSector) (hb : g'.flashBase = kernelLocation)

theorem complete_accepted {b : Board} {g g' : Vars} (h : complete b g = (1, g')) :
    Accepted g g' := by
  simp only [complete] at h
  split_ifs at h with h1 h2 h3 h4
  · simp at h
  · simp at h
  · obtain ⟨-, rfl⟩ := Prod.mk.inj h
    exact .loader (UInt32.not_lt.mp h2) rfl rfl rfl rfl
  · simp at h
  · obtain ⟨-, rfl⟩ := Prod.mk.inj h
    exact .kernel (UInt32.not_le.mp h1) rfl rfl rfl rfl

theorem dataPacket_accepted {b : Board} {p : Packet} {g g' : Vars}
    (h : dataPacket b p g = (1, g')) : Accepted g g' := by
  simp only [dataPacket] at h
  split_ifs at h
  · simp at h
  · simp at h
  · obtain ⟨hle, hsize, hs, he, hb⟩ | ⟨hlt, hsize, hs, he, hb⟩ := complete_accepted h
    · exact .loader hle hsize hs he hb
    · exact .kernel hlt hsize hs he hb

theorem userAgent_packets (cp : CStr) (g : Vars) :
    (userAgent cp g).totalPackets = g.totalPackets := by
  unfold userAgent
  split_ifs <;> rfl

theorem headerLine_packets (appdata : List UInt8) (i : ℕ) {g : Vars} (h : g.totalPackets ≤ 1) :
    (headerLine appdata i g).totalPackets ≤ 1 := by
  simp only [headerLine]
  split_ifs
  · exact le_rfl
  · rwa [userAgent_packets]
  · exact h
  · exact h

theorem headerLoop_packets {n : ℕ} {r r' : Request} {g g' : Vars} (h : g.totalPackets ≤ 1)
    (hl : headerLoop n r g = some (r', g')) : g'.totalPackets ≤ 1 := by
  induction n generalizing r g with
  | zero => simp [headerLoop] at hl
  | succ n ih =>
    obtain ⟨⟨line, r₁⟩, -, hl⟩ := Option.bind_eq_some_iff.mp hl
    cases line with
    | none =>
      obtain ⟨-, rfl⟩ := Prod.mk.inj (Option.some.inj hl)
      exact h
    | some i =>
      simp only at hl
      split_ifs at hl
      · obtain ⟨-, rfl⟩ := Prod.mk.inj (Option.some.inj hl)
        exact h
      · obtain ⟨-, rfl⟩ := Prod.mk.inj (Option.some.inj hl)
        exact h
      · exact ih (headerLine_packets _ _ h) hl

theorem upgradeBody_accepted {b : Board} {p : Packet} {r : Option Request} {g g' : Vars}
    {a : List UInt8} (h : upgradeBody b p r g = some (1, a, g')) :
    g.totalPackets = 3 ∧ Accepted g g' := by
  unfold upgradeBody at h
  split_ifs at h with h2 h3
  · simp [Option.bind_eq_some_iff] at h
  · simp only [Option.some.injEq, Prod.mk.injEq] at h
    exact ⟨h3.2, dataPacket_accepted (Prod.ext h.1 h.2.2)⟩
  · simp at h

theorem upgradeCgi_accepted {b : Board} {u : Uninit} {p : Packet} {g g' : Vars} {a : List UInt8}
    (h : upgradeCgi b u false p g = some (1, a, g')) : Accepted g g' := by
  simp only [upgradeCgi, Bool.false_eq_true, if_false] at h
  split_ifs at h with h0
  · obtain ⟨⟨r, g₁⟩, hl, h⟩ := Option.bind_eq_some_iff.mp h
    have hp := headerLoop_packets (by omega) hl
    have h3 := (upgradeBody_accepted h).1
    simp only at h3
    omega
  · exact (upgradeBody_accepted h).2

/-- The room between the sectors erased for a run-time image. -/
def normalRoom : ℕ := (normalEraseEndSector - normalEraseStartSector) * cfgFlashSectorSize

theorem kernelLocation_offset :
    (kernelLocation - cfgFlashBase).toNat = normalEraseStartSector * cfgFlashSectorSize := by
  decide

theorem programsErased_loader {g : Vars} (hle : g.totalFilesize ≤ bootImgUpperBound)
    (hs : g.startSector = backupEraseStartSector) (he : g.endSector = backupEraseEndSector)
    (hb : g.flashBase = cfgFlashBase) : ProgramsErased g := by
  have hsize : g.totalFilesize.toNat ≤ 128 * 1024 := UInt32.le_iff_toNat_le.mp hle
  rw [programsErased_iff, hs, he, hb, UInt32.sub_self]
  intro k hlo hhi
  rw [mem_flashEraseT (by decide)]
  simp only [backupEraseStartSector, backupEraseEndSector, cfgFlashSectorSize] at *
  simp only [UInt32.toNat_zero] at hhi
  omega

theorem programsErased_kernel {g : Vars} (hs : g.startSector = normalEraseStartSector)
    (he : g.endSector = normalEraseEndSector) (hb : g.flashBase = kernelLocation) :
    ProgramsErased g ↔ g.totalFilesize.toNat ≤ normalRoom := by
  have hmem : ∀ k, k / cfgFlashSectorSize ∈ flashEraseT normalEraseStartSector normalEraseEndSector
      ↔ normalEraseStartSector * cfgFlashSectorSize ≤ k ∧
        k < normalEraseStartSector * cfgFlashSectorSize + normalRoom := by
    intro k
    rw [mem_flashEraseT (by decide)]
    simp only [normalEraseStartSector, normalEraseEndSector, cfgFlashSectorSize, normalRoom]
    omega
  rw [programsErased_iff, hs, he, hb, kernelLocation_offset]
  constructor
  · intro h
    -- the first byte behind the erased sectors is programmed by a larger image
    by_contra hlt
    have hk := h (normalEraseStartSector * cfgFlashSectorSize + normalRoom) (by omega) (by omega)
    rw [hmem] at hk
    omega
  · intro h k hlo hhi
    rw [hmem]
    omega

/-- An accepted image is programmed into erased sectors exactly if it is not larger than the
sectors between `NORMAL_ERASE_START_SECTOR` and `NORMAL_ERASE_END_SECTOR`. -/
theorem upgrade_programs_erased_iff (b : Board) (u : Uninit) (p : Packet) (g g' : Vars)
    (a : List UInt8) (h : upgradeCgi b u false p g = some (1, a, g')) :
    ProgramsErased g' ↔ g.totalFilesize.toNat ≤ normalRoom := by
  obtain ⟨hle, hsize, hs, he, hb⟩ | ⟨-, hsize, hs, he, hb⟩ := upgradeCgi_accepted h
  · rw [← hsize] at hle ⊢
    have hn : g'.totalFilesize.toNat ≤ normalRoom :=
      (UInt32.le_iff_toNat_le.mp hle).trans (by decide)
    exact iff_of_true (programsErased_loader hle hs he hb) hn
  · rw [← hsize]
    exact programsErased_kernel hs he hb

/-- A call that completes an image of one byte. -/
theorem upgrade_programs_erased_small :
    ∃ g', upgradeCgi noHwid idle false ⟨[0], 1⟩
        { startUp (fun _ ↦ 0) with totalPackets := 3, totalSize := 1, totalFilesize := 1 } =
        some (1, [0], g') ∧
      (ProgramsErased g' ↔ (1 : UInt32).toNat ≤ normalRoom) := by
  refine ⟨_, rfl, upgrade_programs_erased_iff noHwid idle ⟨[0], 1⟩
    { startUp (fun _ ↦ 0) with totalPackets := 3, totalSize := 1, totalFilesize := 1 } _ [0] rfl⟩

section

/-- A file of one byte and `k + 1` blocks, and the segments of its upload. -/
def blocksFile (k : ℕ) (block : List UInt8) : List UInt8 :=
  0x41 :: (List.replicate (k + 1) block).flatten

def blocksUpload (k : ℕ) (block : List UInt8) : List Delivery :=
  let f := sampleForm (blocksFile k block)
  ⟨f.head, [], idle⟩ :: ⟨f.part ++ [0x41], [], idle⟩ ::
    (List.replicate k ⟨block, [], idle⟩ ++ [⟨block, [], idle⟩, ⟨f.trailer, [], idle⟩])

theorem blocksFile_length (k : ℕ) (block : List UInt8) :
    (blocksFile k block).length = (k + 1) * block.length + 1 := by
  simp [blocksFile]

/-- Without the check of the hardware ID every large file is accepted. -/
theorem blocksUpload_accepted (k : ℕ) (block : List UInt8) (ram : ℕ → UInt8)
    (hlarge : 512 * 1024 < (blocksFile k block).length)
    (hn : (blocksFile k block).length + 19 < 2 ^ 32) :
    ∃ g, some (1, g) ∈ upload noHwid idle (blocksUpload k block) (startUp ram) ∧
      g.totalFilesize.toNat = (blocksFile k block).length ∧
      g.startSector = normalEraseStartSector ∧ g.endSector = normalEraseEndSector ∧
      g.flashBase = kernelLocation := by
  set f := sampleForm (blocksFile k block) with hf
  have hwf : f.WellFormed := sampleForm_wellFormed _
  have hready := opened_ready (f := f) (g := startUp ram) (.inr (.inl rfl)) rfl rfl
  have hlen := blocksFile_length k block
  have hpos : 0 < block.length := by
    by_contra h
    have h0 : block.length = 0 := by omega
    rw [hlen, h0] at hlarge
    simp at hlarge
  have hmul : (k + 1) * block.length = k * block.length + block.length := by ring
  have hbody : f.file ++ f.trailer =
      [0x41] ++ ((List.replicate k block).flatten ++ (block ++ f.trailer)) := by
    simp [hf, sampleForm, blocksFile, List.replicate_succ']
  have htrailer : f.trailer.length = 19 := rfl
  have hfile : f.file.length = (blocksFile k block).length := rfl
  have hquiet : Quiet idle := by decide
  have h1446 : (f.part ++ [0x41]).length ≠ 1446 := by
    rw [hf, sampleForm_part]
    decide
  -- the header, the part header with the first byte, and all but the last block
  obtain ⟨a, g₁, hpart, hbeg, hsh, hs⟩ := upgradeCgi_part hwf
    (d := ⟨f.part ++ [0x41], [], idle⟩) (y := [0x41]) rfl hquiet hready.firefox hready.safari
    hready.packets hready.filesize h1446 noHwid
  have hst := hbeg.staging (f.file ++ f.trailer) ⟨_, hbody.symm⟩ (by simp) hsh (by decide)
    (by omega)
  have hmap : ((List.replicate k (⟨block, [], idle⟩ : Delivery)).map (·.data)).flatten =
      (List.replicate k block).flatten := by
    simp
  have hflat : ((List.replicate k block).flatten).length = k * block.length := by simp
  obtain ⟨g₂, hst₂, hcalls⟩ := hst.calls_append (b := noHwid)
    (List.replicate k ⟨block, [], idle⟩) [⟨block, [], idle⟩, ⟨f.trailer, [], idle⟩]
    (block ++ f.trailer) (by rw [hbody, hmap]; rfl)
    (by rw [List.length_append]; simp only [List.length_cons, List.length_nil]; omega)
    (by rw [List.length_append]; omega)
    (by rw [hmap, hflat]; simp only [List.length_cons, List.length_nil]; omega)
  -- the last block completes the image
  rw [hmap, hflat] at hst₂
  obtain ⟨g₃, hlast, hsize, -⟩ := hst₂.last (b := noHwid) ⟨block, [], idle⟩ f.trailer
    (by
      rw [hbody, List.length_singleton, ← List.drop_drop]
      simp only [List.singleton_append, List.drop_succ_cons, List.drop_zero]
      rw [← hflat, List.drop_left])
    (by simp only [List.length_singleton]; omega)
    (by simp only [List.length_singleton]; omega)
  have htotal : g₃.totalFilesize.toNat = (blocksFile k block).length := by
    rw [hsize, hst₂.filesize, hfile]
  have hbig : ¬ g₃.totalFilesize ≤ 512 * 1024 := by
    rw [UInt32.le_iff_toNat_le, htotal]
    exact Nat.not_le.mpr hlarge
  let g₄ : Vars := { g₃ with
    startSector := normalEraseStartSector
    endSector := normalEraseEndSector
    flashBase := kernelLocation
    flashwrite := true }
  have hcomplete : complete noHwid g₃ = (1, g₄) := by
    simp only [complete, if_neg hbig, noHwid, Bool.not_true, Bool.false_and, Bool.false_eq_true,
      if_false, g₄]
  rw [hcomplete] at hlast
  refine ⟨g₄, ?_, htotal, rfl, rfl, rfl⟩
  rw [blocksUpload, ← hf, upload_alone hwf (by simp [hf, sampleForm]) (covers_header hwf) (.inl rfl)
    rfl hquiet rfl rfl]
  refine List.mem_cons_of_mem _ (List.mem_cons_of_mem _ ?_)
  rw [calls, hpart]
  refine List.mem_cons_of_mem _ (hcalls _ ?_)
  simp only [calls, hlast]
  exact List.mem_cons_self

/-- An upload of 0x3c0001 bytes is accepted and programmed over the end of the erased sectors. -/
theorem upgrade_programs_unerased :
    ∃ g, some (1, g) ∈ upload noHwid idle (blocksUpload 3839 (List.replicate 1024 0x41))
        (startUp fun _ ↦ 0) ∧ ¬ ProgramsErased g := by
  have hlen := blocksFile_length 3839 (List.replicate 1024 0x41)
  rw [List.length_replicate] at hlen
  obtain ⟨g, hg, hsize, hs, he, hb⟩ := blocksUpload_accepted 3839 (List.replicate 1024 0x41)
    (fun _ ↦ 0) (by rw [hlen]; decide) (by rw [hlen]; decide)
  refine ⟨g, hg, ?_⟩
  rw [programsErased_kernel hs he hb, hsize, hlen]
  decide

end

end UBoot.Httpd.UpgradeFirmware
