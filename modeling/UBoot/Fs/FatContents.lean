import Mathlib.Tactic.Ring
import Mathlib.Tactic.Linarith
import UBoot.Fs.Fat

namespace UBoot.Fs.FatContents

open Lib.CString Lib.Memory Fat

def rootEntries (bs : BootSector) : ℕ := bs.dirEntries.2.toNat * 256 + bs.dirEntries.1.toNat

/-- The first number behind those that a cluster can have. -/
def clusterLimit (fatsize : ℕ) : ℕ :=
  if fatsize = 12 then 0xff7 else if fatsize = 16 then 0xfff7 else 0x0ffffff7

/-- The entry of a FAT, as it stands there. -/
def rawEntry (fatsize : ℕ) (fat : Mem) (c : ℕ) : ℕ :=
  if fatsize = 32 then le32 fat (4 * c)
  else if fatsize = 16 then le16 fat (2 * c)
  else if c % 2 = 0 then le16 fat (c + c / 2) % 4096
  else le16 fat (c + c / 2) / 16

/-- A volume in a partition; `clusters` is the number of clusters of its data area. -/
structure Volume where
  dev : Dev
  bs : BootSector
  fatsize : ℕ
  clusters : ℕ
  boot : readBootsectandvi dev = some (bs, fatsize)
  reserved_pos : 0 < bs.reserved.toNat
  fats_pos : 0 < bs.fats.toNat
  clusterSize : ∃ k ≤ 7, bs.clusterSize.toNat = 2 ^ k
  rootEntries : 16 ∣ rootEntries bs
  numbers : clusters + 2 ≤ clusterLimit fatsize
  entries_fit : (clusters + 2) * fatsize ≤ 8 * sectorSize *
    (if fatsize = 32 then bs.fat32Length.toNat else bs.fatLength.toNat)
  end_le : dev.partOffset.toNat + (bs.reserved.toNat +
    bs.fats.toNat * (if fatsize = 32 then bs.fat32Length.toNat else bs.fatLength.toNat) +
    (if fatsize = 32 then 0 else (FatContents.rootEntries bs * 32 + 511) / 512)) +
      clusters * bs.clusterSize.toNat ≤ 4294967296

namespace Volume

variable (v : Volume)

def clust : ℕ := v.bs.clusterSize.toNat

/-- The bytes of a cluster. -/
def bpc : ℕ := v.clust * sectorSize

def fatLen : ℕ := if v.fatsize = 32 then v.bs.fat32Length.toNat else v.bs.fatLength.toNat

def rootSectors : ℕ := if v.fatsize = 32 then 0 else (FatContents.rootEntries v.bs * 32 + 511) / 512

/-- The sector of the first cluster, which has the number 2. -/
def dataStart : ℕ := v.bs.reserved.toNat + v.bs.fats.toNat * v.fatLen + v.rootSectors

/-- Where a cluster with the number 0 would be. -/
def dataBegin : ℤ := v.dataStart - 2 * v.clust

def fat : Mem := fun k ↦ v.dev.disk (sectorSize * (v.dev.partOffset.toNat + v.bs.reserved.toNat) + k)

def entry (c : ℕ) : ℕ := rawEntry v.fatsize v.fat c

/-- The cluster behind `c` in a file. The upper 4 bits of an entry of 32 bits are reserved. -/
def link (c : ℕ) : ℕ := if v.fatsize = 32 then v.entry c % 2 ^ 28 else v.entry c

/-- The first sector of a cluster, on the device. -/
def sector (c : ℕ) : ℕ := v.dev.partOffset.toNat + v.dataStart + (c - 2) * v.clust

def clusterBytes (c : ℕ) : List UInt8 := bytes v.dev.disk (sectorSize * v.sector c) v.bpc

/-- The data area, in bytes of the device. -/
def InData (k : ℕ) : Prop :=
  sectorSize * v.sector 2 ≤ k ∧ k < sectorSize * v.sector (v.clusters + 2)

end Volume

/-- A directory entry with the clusters of its file. -/
structure IsFile (v : Volume) (dent : DirEntry) (l : List ℕ) : Prop where
  head : ∀ c ∈ l.head?, c = dent.START v.fatsize
  numbers : ∀ c ∈ l, 2 ≤ c ∧ c < v.clusters + 2
  links : ∀ i a b, l[i]? = some a → l[i + 1]? = some b → v.link a = b
  covers : dent.size.toNat ≤ l.length * v.bpc

/-- What is to be read; 0 stands for no limit. -/
def wanted (dent : DirEntry) (maxsize : UInt32) : ℕ :=
  if maxsize = 0 then dent.size.toNat else min dent.size.toNat maxsize.toNat

/-- `get_contents` returns the size that is wanted, with these bytes of the clusters in the buffer. -/
def Reads (v : Volume) (dent : DirEntry) (l : List ℕ) (maxsize : UInt32) : Prop :=
  ∀ (fatbuf buffer : Mem), ∃ n,
    getContents v.dev n (doFatRead v.bs v.fatsize fatbuf) dent buffer maxsize =
      some (wanted dent maxsize,
        store buffer 0 ((l.flatMap v.clusterBytes).take (wanted dent maxsize)))

/-- Two volumes with the same boot sector and FATs. -/
structure SameButData (v v' : Volume) : Prop where
  bs : v'.bs = v.bs
  fatsize : v'.fatsize = v.fatsize
  clusters : v'.clusters = v.clusters
  partOffset : v'.dev.partOffset = v.dev.partOffset
  disk : ∀ k, ¬v.InData k → v'.dev.disk k = v.dev.disk k

/-- A `short` holds the number, modulo 2 ^ 32. -/
def FitsShort (x : ℤ) : Prop := (x + 32768) % 4294967296 < 65536

instance (x : ℤ) : Decidable (FitsShort x) := inferInstanceAs (Decidable (_ < _))

/-- The first clusters of the file have links below the largest that `get_contents` takes. -/
def LinksFrom (v : Volume) (l : List ℕ) (n k : ℕ) : Prop :=
  ∀ i c, k ≤ i → l[i]? = some c → (i + 1) * v.bpc < n → v.entry c < 0xfff0

theorem limited_eq (dent : DirEntry) (maxsize : UInt32) : limited dent maxsize = wanted dent maxsize := by
  have hzero : maxsize = 0 ↔ maxsize.toNat = 0 := UInt32.toNat_inj.symm
  rw [limited, wanted]
  simp only [hzero]
  split_ifs <;> omega

theorem fatsize_cases {dev : Dev} {bs : BootSector} {fatsize : ℕ}
    (h : readBootsectandvi dev = some (bs, fatsize)) : fatsize = 12 ∨ fatsize = 16 ∨ fatsize = 32 := by
  unfold readBootsectandvi at h
  dsimp only at h
  split_ifs at h <;> simp only [Option.some.injEq, Prod.mk.injEq] at h <;> omega

theorem le16_lt (m : Mem) (off : ℕ) : le16 m off < 65536 := by
  have h₁ := (m off).toNat_lt
  have h₂ := (m (off + 1)).toNat_lt
  rw [le16]
  omega

theorem le32_lt (m : Mem) (off : ℕ) : le32 m off < 4294967296 := by
  have h₁ := le16_lt m off
  have h₂ := le16_lt m (off + 2)
  rw [le32]
  omega

theorem le16_congr {m m' : Mem} {off off' : ℕ} (h₀ : m off = m' off') (h₁ : m (off + 1) = m' (off' + 1)) :
    le16 m off = le16 m' off' := by
  rw [le16, le16, h₀, h₁]

theorem le32_congr {m m' : Mem} {off off' : ℕ} (h : ∀ i < 4, m (off + i) = m' (off' + i)) :
    le32 m off = le32 m' off' := by
  have hlow : le16 m off = le16 m' off' := le16_congr (h 0 (by decide)) (h 1 (by decide))
  have hhigh : le16 m (off + 2) = le16 m' (off' + 2) := le16_congr (h 2 (by decide)) (h 3 (by decide))
  rw [le32, le32, hlow, hhigh]

theorem rawEntry_lt (fatsize : ℕ) (fat : Mem) (c : ℕ) : rawEntry fatsize fat c < 4294967296 := by
  have h₁ := le16_lt fat (2 * c)
  have h₂ := le16_lt fat (c + c / 2)
  have h₃ := le32_lt fat (4 * c)
  unfold rawEntry
  split_ifs <;> omega

theorem fat12Entry_eq (fatbuf : Mem) (offset : ℕ) : fat12Entry fatbuf offset = rawEntry 12 fatbuf offset := by
  have hmask : ∀ a b : ℕ, b < 16 → (a <<< 4 ||| b) = a * 16 + b := by
    intro a b hb
    rw [← Nat.shiftLeft_add_eq_or_of_lt hb, Nat.shiftLeft_eq]
  have hmask' : ∀ a b : ℕ, b < 256 → (a <<< 8 ||| b) = a * 256 + b := by
    intro a b hb
    rw [← Nat.shiftLeft_add_eq_or_of_lt hb, Nat.shiftLeft_eq]
  have hand : ∀ n, n &&& 0xfff = n % 4096 := fun n ↦ Nat.and_two_pow_sub_one_eq_mod n 12
  have hand' : ∀ n, n &&& 0x00ff = n % 256 := fun n ↦ Nat.and_two_pow_sub_one_eq_mod n 8
  have hand'' : ∀ n, n &&& 0x000f = n % 16 := fun n ↦ Nat.and_two_pow_sub_one_eq_mod n 4
  have hhigh : ∀ n, (n &&& 0xf000) >>> 12 = n / 4096 % 16 := fun n ↦ by
    rw [Nat.shiftRight_and_distrib, Nat.shiftRight_eq_div_pow]
    exact hand'' _
  have hhigh' : ∀ n, (n &&& 0xff00) >>> 8 = n / 256 % 256 := fun n ↦ by
    rw [Nat.shiftRight_and_distrib, Nat.shiftRight_eq_div_pow]
    exact hand' _
  have hhigh'' : ∀ n, (n &&& 0xfff0) >>> 4 = n / 16 % 4096 := fun n ↦ by
    rw [Nat.shiftRight_and_distrib, Nat.shiftRight_eq_div_pow]
    exact hand _
  have hlt := fun i ↦ (fatbuf i).toNat_lt
  obtain ⟨q, hq | hq | hq | hq⟩ : ∃ q, offset = 4 * q ∨ offset = 4 * q + 1 ∨ offset = 4 * q + 2 ∨
      offset = 4 * q + 3 := ⟨offset / 4, by omega⟩
  · have hoff : offset * 3 / 4 = 3 * q := by omega
    have hoff' : offset + offset / 2 = 6 * q := by omega
    rw [fat12Entry, rawEntry, hoff, hoff']
    simp only [hand, show offset % 4 = 0 by omega, show offset % 2 = 0 by omega, if_true, ← Nat.mul_assoc]
    rfl
  · have hoff : offset * 3 / 4 = 3 * q := by omega
    have hoff' : offset + offset / 2 = 6 * q + 1 := by omega
    rw [fat12Entry, rawEntry, hoff, hoff']
    have h₀ := hlt (6 * q)
    have h₁ := hlt (6 * q + 1)
    have h₂ := hlt (6 * q + 2)
    simp only [show offset % 4 = 1 by omega, show offset % 2 = 1 by omega, hand', hhigh,
      show ¬(1 = 0) by decide, show ¬(12 = 32) by decide, show ¬(12 = 16) by decide, if_true, if_false]
    rw [hmask _ _ (Nat.mod_lt _ (by decide))]
    simp only [le16, show 2 * (3 * q) = 6 * q by omega, show 2 * (3 * q + 1) = 6 * q + 2 by omega,
      Nat.add_assoc, Nat.reduceAdd]
    omega
  · have hoff : offset * 3 / 4 = 3 * q + 1 := by omega
    have hoff' : offset + offset / 2 = 6 * q + 3 := by omega
    rw [fat12Entry, rawEntry, hoff, hoff']
    have h₀ := hlt (6 * q + 2)
    have h₁ := hlt (6 * q + 3)
    have h₂ := hlt (6 * q + 4)
    simp only [show offset % 4 = 2 by omega, show offset % 2 = 0 by omega, hand'', hhigh',
      show ¬(2 = 0) by decide, show ¬(2 = 1) by decide, show ¬(12 = 32) by decide,
      show ¬(12 = 16) by decide, if_true, if_false]
    rw [hmask' _ _ (Nat.mod_lt _ (by decide))]
    simp only [le16, show 2 * (3 * q + 1) = 6 * q + 2 by omega,
      show 2 * (3 * q + 1 + 1) = 6 * q + 4 by omega, Nat.add_assoc, Nat.reduceAdd]
    omega
  · have hoff : offset * 3 / 4 = 3 * q + 2 := by omega
    have hoff' : offset + offset / 2 = 6 * q + 4 := by omega
    rw [fat12Entry, rawEntry, hoff, hoff']
    have h₀ := hlt (6 * q + 4)
    have h₁ := hlt (6 * q + 5)
    simp only [show offset % 4 = 3 by omega, show offset % 2 = 1 by omega, hhigh'',
      show ¬(3 = 0) by decide, show ¬(3 = 1) by decide, show ¬(3 = 2) by decide,
      show ¬(1 = 0) by decide, show ¬(12 = 32) by decide, show ¬(12 = 16) by decide, if_false]
    simp only [le16, show 2 * (3 * q + 2) = 6 * q + 4 by omega, Nat.add_assoc, Nat.reduceAdd]
    omega

theorem fatFormat_spec {fatsize : ℕ} (h : fatsize = 12 ∨ fatsize = 16 ∨ fatsize = 32) :
    ∃ bufsize entryAt, fatFormat fatsize = some (bufsize, entryAt) ∧ 0 < bufsize ∧
      bufsize * fatsize = 8 * fatBufSize ∧ ∀ (fatbuf fat : Mem) (bufnum offset : ℕ),
        (∀ k < fatBufSize, fatbuf k = fat (fatBufSize * bufnum + k)) → offset < bufsize →
          entryAt fatbuf offset = rawEntry fatsize fat (bufnum * bufsize + offset) := by
  have hsize : fatBufSize = 3072 := rfl
  rcases h with rfl | rfl | rfl
  · refine ⟨2048, fat12Entry, rfl, by decide, by decide, ?_⟩
    intro fatbuf fat bufnum offset hbuf hoffset
    have hdiv : bufnum * 2048 + offset + (bufnum * 2048 + offset) / 2 =
        fatBufSize * bufnum + (offset + offset / 2) := by
      rw [hsize]
      omega
    have hword : le16 fatbuf (offset + offset / 2) =
        le16 fat (fatBufSize * bufnum + (offset + offset / 2)) :=
      le16_congr (hbuf _ (by omega)) (hbuf (offset + offset / 2 + 1) (by omega))
    rw [fat12Entry_eq, rawEntry, rawEntry, hdiv, ← hword]
    have hparity : (bufnum * 2048 + offset) % 2 = offset % 2 := by omega
    rw [hparity]
    rfl
  · refine ⟨1536, _, rfl, by decide, by decide, ?_⟩
    intro fatbuf fat bufnum offset hbuf hoffset
    have hdiv : 2 * (bufnum * 1536 + offset) = fatBufSize * bufnum + 2 * offset := by
      rw [hsize]
      omega
    rw [rawEntry, if_neg (by decide), if_pos rfl, hdiv]
    exact le16_congr (hbuf _ (by omega)) (hbuf (2 * offset + 1) (by omega))
  · refine ⟨768, _, rfl, by decide, by decide, ?_⟩
    intro fatbuf fat bufnum offset hbuf hoffset
    have hdiv : 4 * (bufnum * 768 + offset) = fatBufSize * bufnum + 4 * offset := by
      rw [hsize]
      omega
    rw [rawEntry, if_pos rfl, hdiv]
    apply le32_congr
    intro i hi
    rw [Nat.add_assoc]
    exact hbuf (4 * offset + i) (by omega)

section

variable {v v' : Volume} {dent : DirEntry} {l : List ℕ} {d : FsData}

theorem fatsize_of (v : Volume) : v.fatsize = 12 ∨ v.fatsize = 16 ∨ v.fatsize = 32 := fatsize_cases v.boot

theorem clust_pos (v : Volume) : 0 < v.clust ∧ v.clust ≤ 128 := by
  obtain ⟨k, hk, h⟩ := v.clusterSize
  have hclust : v.clust = 2 ^ k := h
  rw [hclust]
  exact ⟨Nat.two_pow_pos k, Nat.pow_le_pow_right (by decide) hk⟩

theorem bpc_pos (v : Volume) : 0 < v.bpc ∧ v.bpc ≤ 65536 := by
  have h := clust_pos v
  have hsize : sectorSize = 512 := rfl
  rw [Volume.bpc, hsize]
  omega

theorem clusters_lt (v : Volume) : v.clusters + 2 ≤ 0x0ffffff7 := by
  have h := v.numbers
  unfold clusterLimit at h
  split_ifs at h <;> omega

theorem sector_le {c : ℕ} (h : c ≤ v.clusters + 2) : v.sector c ≤ 4294967296 := by
  have hend : v.dev.partOffset.toNat + v.dataStart + v.clusters * v.clust ≤ 4294967296 := v.end_le
  have hmul : (c - 2) * v.clust ≤ v.clusters * v.clust := Nat.mul_le_mul_right _ (by omega)
  rw [Volume.sector]
  omega

theorem sector_add {c : ℕ} (h : 2 ≤ c) (k : ℕ) : v.sector (c + k) = v.sector c + k * v.clust := by
  rw [Volume.sector, Volume.sector, show c + k - 2 = c - 2 + k by omega, Nat.add_mul]
  omega

theorem sector_lt {c : ℕ} (h : 2 ≤ c ∧ c < v.clusters + 2) : v.sector c < 4294967296 := by
  have hnext : v.sector (c + 1) ≤ 4294967296 := sector_le h.2
  rw [sector_add h.1] at hnext
  have := (clust_pos v).1
  omega

/-- The data that do_fat_read makes, with any part of the FAT in the buffer. -/
structure Cached (v : Volume) (d : FsData) : Prop where
  fatsize : d.fatsize = v.fatsize
  fatlength : d.fatlength.toNat = v.fatLen % 65536
  fatSect : d.fatSect = v.bs.reserved
  clustSize : d.clustSize.toNat = v.clust
  dataBegin : d.dataBegin.toInt = v.dataBegin.bmod 65536
  buffer : d.fatbufnum ≠ 0xffffffff →
    ∀ k < fatBufSize, d.fatbuf k = v.fat (fatBufSize * d.fatbufnum + k)

theorem cached_doFatRead (v : Volume) (fatbuf : Mem) : Cached v (doFatRead v.bs v.fatsize fatbuf) := by
  have hlength : (doFatRead v.bs v.fatsize fatbuf).fatlength.toNat = v.fatLen % 65536 := by
    rw [Volume.fatLen, doFatRead]
    dsimp only
    split_ifs
    · rfl
    · exact (Nat.mod_eq_of_lt v.bs.fatLength.toNat_lt).symm
  have hclust : (doFatRead v.bs v.fatsize fatbuf).clustSize.toNat = v.clust := rfl
  refine ⟨rfl, hlength, rfl, hclust, ?_, fun h ↦ absurd rfl h⟩
  have hroot : (rootEntries v.bs * 32 + 511) / 512 = rootEntries v.bs * 32 / sectorSize := by
    obtain ⟨k, hk⟩ := v.rootEntries
    rw [hk, show sectorSize = 512 from rfl]
    omega
  have hmul : (v.fatLen % 65536 * v.bs.fats.toNat) % 65536 = v.bs.fats.toNat * v.fatLen % 65536 := by
    rw [Nat.mul_comm, Nat.mul_mod_mod]
  have hrootdir : ((doFatRead v.bs v.fatsize fatbuf).rootdirSect.toNat) =
      (v.bs.reserved.toNat + v.bs.fats.toNat * v.fatLen) % 65536 := by
    change (UInt16.ofNat (v.bs.reserved.toNat +
      (doFatRead v.bs v.fatsize fatbuf).fatlength.toNat * v.bs.fats.toNat)).toNat = _
    rw [UInt16.toNat_ofNat', hlength, Nat.add_mod, hmul, ← Nat.add_mod]
  have hbegin : (doFatRead v.bs v.fatsize fatbuf).dataBegin.toInt =
      (((doFatRead v.bs v.fatsize fatbuf).rootdirSect.toNat + v.rootSectors - v.clust * 2 : ℤ)).bmod
        65536 := by
    rw [Volume.rootSectors, hroot]
    by_cases h32 : v.fatsize = 32
    · rw [if_pos h32, Nat.cast_zero, add_zero, doFatRead]
      dsimp only
      rw [if_pos h32, Int16.toInt_ofInt]
      rfl
    · rw [if_neg h32, doFatRead]
      dsimp only
      rw [if_neg h32, Int16.toInt_ofInt]
      rfl
  rw [hbegin, hrootdir, Volume.dataBegin, Volume.dataStart]
  generalize v.bs.reserved.toNat + v.bs.fats.toNat * v.fatLen = n
  rw [Int.bmod_def, Int.bmod_def]
  push_cast
  omega

theorem diskRead_eq {dev : Dev} {startblock getsize : ℕ}
    (h : startblock + dev.partOffset.toNat < 4294967296) :
    diskRead dev startblock getsize =
      bytes dev.disk (sectorSize * (startblock + dev.partOffset.toNat)) (sectorSize * getsize) := by
  rw [diskRead, Nat.mod_eq_of_lt h]

theorem bytes_shift {m m' : Mem} {off off' n : ℕ} (h : ∀ k, m (off + k) = m' (off' + k)) :
    bytes m off n = bytes m' off' n := List.map_congr_left fun k _ ↦ h k

/-- The sectors that are read for an entry are a part of the FAT and what lies behind it. -/
theorem diskRead_window {dev : Dev} {reserved fatLen fatsize bufsize c : ℕ} (hfatsize : 0 < fatsize)
    (hbits : bufsize * fatsize = 8 * fatBufSize) (hc : (c + 1) * fatsize ≤ 8 * sectorSize * fatLen)
    (hend : dev.partOffset.toNat + (reserved + fatLen) ≤ 4294967296) :
    diskRead dev (c / bufsize * fatBufBlocks + reserved) fatBufBlocks =
      bytes (fun k ↦ dev.disk (sectorSize * (dev.partOffset.toNat + reserved) + k))
        (fatBufSize * (c / bufsize)) fatBufSize := by
  have hsize : fatBufSize = 3072 := rfl
  have hsector : sectorSize = 512 := rfl
  have hblocks : fatBufBlocks = 6 := rfl
  have hdiv := Nat.div_mul_le_self c bufsize
  have hpart : c / bufsize * 6 < fatLen := by
    have hmul : c / bufsize * bufsize * fatsize < (c + 1) * fatsize :=
      Nat.mul_lt_mul_of_pos_right (by omega) hfatsize
    rw [Nat.mul_assoc, hbits, hsize] at hmul
    rw [hsector] at hc
    omega
  have hstart : c / bufsize * fatBufBlocks + reserved + dev.partOffset.toNat < 4294967296 := by
    rw [hblocks]
    omega
  rw [diskRead_eq hstart, ← fatBufSize]
  apply bytes_shift
  intro k
  refine congrArg dev.disk ?_
  rw [hsize, hsector, hblocks]
  omega

theorem getFatent_spec (hd : Cached v d) (hlen : v.fatLen % 65536 ≠ 0) {c : ℕ}
    (hc : c < v.clusters + 2) :
    (getFatent v.dev d c).1 = v.entry c ∧ Cached v (getFatent v.dev d c).2 := by
  obtain ⟨bufsize, entryAt, hformat, hpos, hbits, hentry⟩ := fatFormat_spec (fatsize_of v)
  have hsector : sectorSize = 512 := rfl
  have hblocks : fatBufBlocks = 6 := rfl
  have hdiv := Nat.div_add_mod' c bufsize
  have hmod := Nat.mod_lt c hpos
  have hoffset : c - c / bufsize * bufsize = c % bufsize := by omega
  have hfatsize : 0 < v.fatsize := by
    have := fatsize_of v
    omega
  -- the part of the FAT lies in the partition
  have hfits : (c + 1) * v.fatsize ≤ 8 * sectorSize * v.fatLen :=
    (Nat.mul_le_mul_right v.fatsize (by omega)).trans v.entries_fit
  have hfats : v.fatLen ≤ v.bs.fats.toNat * v.fatLen := Nat.le_mul_of_pos_left _ v.fats_pos
  have hend : v.dev.partOffset.toNat + v.dataStart + v.clusters * v.clust ≤ 4294967296 := v.end_le
  have hvalue : ∀ fatbuf : Mem,
      (∀ k < fatBufSize, fatbuf k = v.fat (fatBufSize * (c / bufsize) + k)) →
        entryAt fatbuf (c - c / bufsize * bufsize) = v.entry c := by
    intro fatbuf hbuf
    rw [hoffset, hentry fatbuf v.fat (c / bufsize) _ hbuf hmod, hdiv]
    rfl
  unfold getFatent
  rw [hd.fatsize, hformat]
  dsimp only
  by_cases hnum : c / bufsize = d.fatbufnum
  · rw [if_neg (not_not.mpr hnum)]
    have hbound : d.fatbufnum ≠ 0xffffffff := by
      have hle := Nat.div_le_self c bufsize
      have hlt := clusters_lt v
      omega
    refine ⟨hvalue _ ?_, hd⟩
    rw [hnum]
    exact hd.buffer hbound
  · rw [if_pos hnum]
    have hgetsize : (if fatBufBlocks > d.fatlength.toNat * sectorSize then d.fatlength.toNat * sectorSize
        else fatBufBlocks) = fatBufBlocks := by
      rw [hd.fatlength, hblocks, hsector, if_neg (by omega)]
    have hread : diskRead v.dev (c / bufsize * fatBufBlocks + d.fatSect.toNat) fatBufBlocks =
        bytes v.fat (fatBufSize * (c / bufsize)) fatBufSize := by
      rw [hd.fatSect]
      refine diskRead_window hfatsize hbits hfits ?_
      rw [Volume.dataStart] at hend
      omega
    have hbuf := store_bytes d.fatbuf v.fat (fatBufSize * (c / bufsize)) fatBufSize
    rw [hgetsize, hread]
    refine ⟨hvalue _ hbuf, rfl, hd.fatlength, hd.fatSect, hd.clustSize, hd.dataBegin, ?_⟩
    intro _
    dsimp only
    exact hbuf

theorem getFatent_geometry (dev : Dev) (d : FsData) (c : ℕ) :
    (getFatent dev d c).2.clustSize = d.clustSize ∧ (getFatent dev d c).2.dataBegin = d.dataBegin ∧
      (getFatent dev d c).2.rootdirSect = d.rootdirSect := by
  unfold getFatent
  split
  · exact ⟨rfl, rfl, rfl⟩
  · dsimp only
    split_ifs <;> exact ⟨rfl, rfl, rfl⟩

theorem startsect_lt (d : FsData) (c : ℕ) : startsect d c < 4294967296 := by
  have h := d.rootdirSect.toNat_lt
  unfold startsect
  split_ifs <;> omega

/-- The first sector of a cluster, for `get_cluster`; it is right when `data_begin` fits. -/
theorem startsect_eq_iff (hd : Cached v d) {c : ℕ} (hc : 2 ≤ c ∧ c < v.clusters + 2) :
    (startsect d c + v.dev.partOffset.toNat) % 4294967296 = v.sector c ↔ FitsShort v.dataBegin := by
  have hlt := sector_lt hc
  have hsector : (v.sector c : ℤ) = v.dev.partOffset.toNat + (v.dataBegin + c * v.clust) := by
    have hmul : ((c - 2 : ℕ) : ℤ) = c - 2 := by omega
    rw [Volume.sector, Volume.dataBegin]
    push_cast
    rw [hmul]
    ring
  rw [startsect, if_pos (by omega), hd.clustSize, hd.dataBegin, FitsShort]
  generalize (c * v.clust : ℤ) = n at hsector ⊢
  generalize v.dataBegin = x at hsector ⊢
  have hpart := v.dev.partOffset.toNat_lt
  rw [Int.bmod_def]
  push_cast
  constructor
  · intro h
    have h' := congrArg (Nat.cast : ℕ → ℤ) h
    push_cast at h'
    split_ifs at h' <;> omega
  · intro h
    apply Nat.cast_injective (R := ℤ)
    push_cast
    split_ifs <;> omega

theorem store_nil (m : Mem) (pos : ℕ) : Lib.Memory.store m pos [] = m := by
  funext k
  unfold Lib.Memory.store
  split_ifs <;> rfl

theorem take_bytes (m : Mem) (off : ℕ) {k n : ℕ} (h : k ≤ n) : (bytes m off n).take k = bytes m off k := by
  obtain ⟨j, rfl⟩ := Nat.exists_eq_add_of_le h
  exact bytes_take m off k j

/-- A read from a sector of the partition puts its bytes into the buffer. -/
theorem getCluster_eq {dev : Dev} {c s size : ℕ} (buffer : Mem) (pos : ℕ)
    (hs : (startsect d c + dev.partOffset.toNat) % 4294967296 = s)
    (hlast : size % sectorSize ≠ 0 → s + size / sectorSize < 4294967296) :
    getCluster dev d c buffer pos size =
      Lib.Memory.store buffer pos (bytes dev.disk (sectorSize * s) size) := by
  have hsector : sectorSize = 512 := rfl
  have hdiv := Nat.div_add_mod size sectorSize
  have hread : diskRead dev (startsect d c) (size / sectorSize) =
      bytes dev.disk (sectorSize * s) (sectorSize * (size / sectorSize)) := by
    rw [diskRead, hs]
  unfold getCluster
  dsimp only
  rw [hread]
  split_ifs with hrest
  · have hnext : diskRead dev ((startsect d c + size / sectorSize) % 4294967296) 1 =
        bytes dev.disk (sectorSize * s + sectorSize * (size / sectorSize)) sectorSize := by
      have hsum : ((startsect d c + size / sectorSize) % 4294967296 + dev.partOffset.toNat) % 4294967296 =
          s + size / sectorSize := by
        rw [Nat.mod_add_mod, Nat.add_right_comm, ← Nat.mod_add_mod, hs,
          Nat.mod_eq_of_lt (hlast hrest)]
      rw [diskRead, hsum, Nat.mul_one, Nat.mul_add]
    have hmod := Nat.mod_lt size (show 0 < sectorSize by decide)
    have hstore := store_store buffer pos
      (bytes dev.disk (sectorSize * s) (sectorSize * (size / sectorSize)))
      (bytes dev.disk (sectorSize * s + sectorSize * (size / sectorSize)) (size % sectorSize))
    rw [bytes_length, ← bytes_append, hdiv] at hstore
    rw [hnext, take_bytes _ _ hmod.le, Nat.mul_comm (size / sectorSize), hstore]
  · rw [not_not] at hrest
    rw [show sectorSize * (size / sectorSize) = size by omega]

theorem flatMap_run {c : ℕ} (hc : 2 ≤ c) (k : ℕ) :
    (List.range' c k).flatMap v.clusterBytes = bytes v.dev.disk (sectorSize * v.sector c) (k * v.bpc) := by
  induction k with
  | zero =>
    rw [Nat.zero_mul]
    rfl
  | succ k ih =>
    rw [List.range'_1_concat, List.flatMap_append, ih, Nat.add_one_mul, bytes_append, List.flatMap_singleton,
      Volume.clusterBytes, sector_add hc, Nat.mul_add, Volume.bpc]
    congr 2
    ring

theorem flatMap_length (v : Volume) (l : List ℕ) : (l.flatMap v.clusterBytes).length = l.length * v.bpc := by
  induction l with
  | nil => rw [List.flatMap_nil, List.length_nil, List.length_nil, Nat.zero_mul]
  | cons c l ih =>
    rw [List.flatMap_cons, List.length_append, ih, Volume.clusterBytes, bytes_length, List.length_cons,
      Nat.add_one_mul, Nat.add_comm]

theorem getCluster_run (hd : Cached v d) (hfits : FitsShort v.dataBegin) {c k size : ℕ} (hc : 2 ≤ c)
    (hck : c + k ≤ v.clusters + 2) (hk : 0 < k) (hsize : size ≤ k * v.bpc) (buffer : Mem) (pos : ℕ) :
    getCluster v.dev d c buffer pos size =
      Lib.Memory.store buffer pos (((List.range' c k).flatMap v.clusterBytes).take size) := by
  have hsector : sectorSize = 512 := rfl
  have hbound : c < v.clusters + 2 := by omega
  have hstart := (startsect_eq_iff hd ⟨hc, hbound⟩).mpr hfits
  have hlt := sector_lt ⟨hc, hbound⟩
  have hend := sector_le (v := v) hck
  rw [sector_add hc] at hend
  rw [flatMap_run hc, take_bytes _ _ hsize]
  apply getCluster_eq buffer pos hstart
  intro hrest
  have hmul : k * v.bpc = k * v.clust * sectorSize := by
    rw [Volume.bpc, Nat.mul_assoc]
  rw [hmul, hsector] at hsize
  rw [hsector] at hrest ⊢
  omega

/-- Where the reading stands: `front` is in the buffer, a run of `len + 1` clusters from `cur` on has been
found, and `rest` is behind it. -/
structure At (v : Volume) (l : List ℕ) (n : ℕ) (buffer : Mem) (front : List ℕ) (cur len : ℕ) (rest : List ℕ)
    (r : Reading) : Prop where
  chain : l = front ++ (List.range' cur (len + 1) ++ rest)
  cached : Cached v r.mydata
  filesize : r.filesize = n - front.length * v.bpc
  gotsize : r.gotsize = front.length * v.bpc
  curclust : r.curclust = cur
  endclust : r.endclust = cur + len
  actsize : r.actsize = (len + 1) * v.bpc
  buffer : r.buffer = Lib.Memory.store buffer 0 (front.flatMap v.clusterBytes)
  pos : r.pos = front.length * v.bpc
  needed : (front.length + len) * v.bpc < n
  small : len = 0 ∨ cur + len < 0xfff0

variable {n : ℕ} {buffer : Mem} {front rest : List ℕ} {cur len : ℕ} {r : Reading}

theorem Cached.bytesperclust (hd : Cached v d) : d.bytesperclust = v.bpc := by
  rw [FsData.bytesperclust, hd.clustSize]
  rfl

theorem At.numbers (h : At v l n buffer front cur len rest r) (hfile : IsFile v dent l) :
    2 ≤ cur ∧ cur + len < v.clusters + 2 := by
  have hmem : ∀ c ∈ List.range' cur (len + 1), c ∈ l := by
    intro c hc
    rw [h.chain]
    exact List.mem_append_right _ (List.mem_append_left _ hc)
  have hfirst := hfile.numbers cur (hmem cur (List.mem_range'_1.mpr ⟨Nat.le_refl _, by omega⟩))
  have hlast := hfile.numbers (cur + len) (hmem _ (List.mem_range'_1.mpr ⟨by omega, by omega⟩))
  exact ⟨hfirst.1, hlast.2⟩

theorem loop_finish (h : At v l n buffer front cur len rest r) (hfile : IsFile v dent l)
    (hfits : FitsShort v.dataBegin) (hn : n < 4294967296)
    (hlast : n ≤ (front.length + len + 1) * v.bpc) (k : ℕ) :
    getContentsLoop v.dev (k + 1) r =
      some (n, Lib.Memory.store buffer 0 ((l.flatMap v.clusterBytes).take n)) := by
  obtain ⟨hcur, hend⟩ := h.numbers hfile
  have hbpc := bpc_pos v
  have hneeded := h.needed
  rw [Nat.add_mul] at hneeded
  rw [Nat.add_mul, Nat.add_mul, Nat.one_mul] at hlast
  have hact : r.actsize = len * v.bpc + v.bpc := by
    rw [h.actsize, Nat.add_one_mul]
  rw [getContentsLoop, if_neg (by rw [hact, h.filesize]; omega)]
  dsimp only
  -- the clusters in front of the last one, and the part of the last one
  have hsize : (r.actsize + 4294967296 - r.mydata.bytesperclust) % 4294967296 = len * v.bpc := by
    rw [hact, h.cached.bytesperclust]
    omega
  have hrest : (r.filesize + 4294967296 - len * v.bpc) % 4294967296 =
      n - front.length * v.bpc - len * v.bpc := by
    rw [h.filesize]
    omega
  have hgot : (r.gotsize + len * v.bpc + (n - front.length * v.bpc - len * v.bpc)) % 4294967296 = n := by
    rw [h.gotsize]
    omega
  rw [hsize, hrest, hgot, h.curclust, h.endclust, h.pos, h.buffer]
  have hrun := flatMap_length v (List.range' cur len)
  have hfront := flatMap_length v front
  rw [List.length_range'] at hrun
  rw [getCluster_run h.cached hfits hcur (by omega) (Nat.succ_pos len)
      (by rw [Nat.add_one_mul]; omega),
    getCluster_run h.cached hfits (show 2 ≤ cur + len by omega) (by omega) Nat.one_pos (by omega)]
  have hsplit : (List.range' cur (len + 1)).flatMap v.clusterBytes =
      (List.range' cur len).flatMap v.clusterBytes ++ (List.range' (cur + len) 1).flatMap v.clusterBytes := by
    rw [← List.flatMap_append, List.range'_append_1]
  rw [h.chain, List.flatMap_append, List.flatMap_append, hsplit]
  generalize front.flatMap v.clusterBytes = F at hfront ⊢
  generalize hA : (List.range' cur len).flatMap v.clusterBytes = A at hrun ⊢
  have hE := flatMap_length v (List.range' (cur + len) 1)
  rw [List.length_range', Nat.one_mul] at hE
  generalize (List.range' (cur + len) 1).flatMap v.clusterBytes = E at hE ⊢
  have htake : (A ++ E).take (len * v.bpc) = A := List.take_left' hrun
  have hstore := store_store buffer 0 F A
  rw [Nat.zero_add, hfront] at hstore
  have hstore' := store_store buffer 0 (F ++ A) (E.take (n - front.length * v.bpc - len * v.bpc))
  rw [Nat.zero_add, List.length_append, hfront, hrun] at hstore'
  rw [htake, hstore, hstore']
  have hwhole : (F ++ (A ++ E ++ rest.flatMap v.clusterBytes)).take n =
      F ++ A ++ E.take (n - front.length * v.bpc - len * v.bpc) := by
    have hn : n = F.length + (A.length + (n - front.length * v.bpc - len * v.bpc)) := by omega
    conv_lhs => rw [hn]
    rw [List.append_assoc A, List.take_length_add_append, List.take_length_add_append,
      List.take_append_of_le_length (by omega), List.append_assoc]
  rw [hwhole]

theorem At.entry (h : At v l n buffer front cur len rest r) (hfile : IsFile v dent l)
    (hlen : v.fatLen % 65536 ≠ 0) {d : FsData} (hd : Cached v d) :
    (getFatent v.dev d r.endclust).1 = v.entry (cur + len) ∧
      Cached v (getFatent v.dev d r.endclust).2 := by
  rw [h.endclust]
  exact getFatent_spec hd hlen (h.numbers hfile).2

theorem sub_one_ne_iff {a b : ℕ} (ha : a < 4294967296) (hb : b + 1 < 4294967296) :
    (a + 4294967295) % 4294967296 ≠ b ↔ a ≠ b + 1 := by
  omega

theorem At.endclust_lt (h : At v l n buffer front cur len rest r) (hfile : IsFile v dent l) :
    r.endclust + 1 < 4294967296 := by
  have hlt := (h.numbers hfile).2
  have hle := clusters_lt v
  rw [h.endclust]
  omega

theorem At.unread (h : At v l n buffer front cur len rest r)
    (hmore : (front.length + len + 1) * v.bpc < n) : r.actsize < r.filesize := by
  rw [Nat.add_assoc, Nat.add_mul] at hmore
  rw [h.actsize, h.filesize]
  omega

/-- A link that `get_contents` takes for the end of the file: it returns less than is wanted. -/
theorem loop_stops (h : At v l n buffer front cur len rest r) (hfile : IsFile v dent l)
    (hlen : v.fatLen % 65536 ≠ 0) (hn : n < 4294967296)
    (hmore : (front.length + len + 1) * v.bpc < n) (hentry : 0xfff0 ≤ v.entry (cur + len)) (k : ℕ) :
    ∃ g m, getContentsLoop v.dev (k + 1) r = some (g, m) ∧ g < n := by
  obtain ⟨hvalue, hcached⟩ := h.entry hfile hlen h.cached
  obtain ⟨hvalue', -⟩ := h.entry hfile hlen hcached
  have hends : endsReading (v.entry (cur + len)) := .inr hentry
  rw [getContentsLoop, if_pos (h.unread hmore)]
  dsimp only
  rw [hvalue, hvalue']
  rw [Nat.add_assoc, Nat.add_mul] at hmore
  split_ifs
  · refine ⟨_, _, rfl, ?_⟩
    rw [h.gotsize, h.actsize]
    omega
  · refine ⟨_, _, rfl, ?_⟩
    rw [h.gotsize]
    omega

/-- The next cluster: it prolongs the run, or it begins a new one. -/
theorem loop_step {c : ℕ} (h : At v l n buffer front cur len (c :: rest) r) (hfile : IsFile v dent l)
    (hfits : FitsShort v.dataBegin) (hlen : v.fatLen % 65536 ≠ 0) (hn : n < 4294967296)
    (hmore : (front.length + len + 1) * v.bpc < n) (hentry : v.entry (cur + len) < 0xfff0) :
    ∃ front' cur' len' r', At v l n buffer front' cur' len' rest r' ∧
      front'.length + len' = front.length + len + 1 ∧
      ∀ k, getContentsLoop v.dev (k + 1) r = getContentsLoop v.dev k r' := by
  obtain ⟨hcur, hend⟩ := h.numbers hfile
  obtain ⟨hvalue, hcached⟩ := h.entry hfile hlen h.cached
  obtain ⟨hvalue', hcached'⟩ := h.entry hfile hlen hcached
  have hbpc := bpc_pos v
  have hmore' := hmore
  rw [Nat.add_assoc, Nat.add_mul] at hmore'
  -- the link is the next cluster
  have hlink : v.entry (cur + len) = c := by
    have hlength : (front ++ List.range' cur (len + 1)).length = front.length + len + 1 := by
      rw [List.length_append, List.length_range', Nat.add_assoc]
    have hchain := h.chain
    rw [← List.append_assoc] at hchain
    have hnext : l[front.length + len + 1]? = some c := by
      rw [hchain, List.getElem?_append_right (by omega), hlength, Nat.sub_self]
      rfl
    have hthis : l[front.length + len]? = some (cur + len) := by
      rw [hchain, List.getElem?_append_left (by omega), List.getElem?_append_right (by omega),
        Nat.add_sub_cancel_left, List.getElem?_range' (by omega)]
      congr 1
      omega
    have hlink := hfile.links _ _ _ hthis hnext
    unfold Volume.link at hlink
    split_ifs at hlink
    · rwa [Nat.mod_eq_of_lt (by omega)] at hlink
    · exact hlink
  have hc := (hfile.numbers c (by rw [h.chain]; simp)).1
  have hends : ¬endsReading c := by
    unfold endsReading
    omega
  have hsub := sub_one_ne_iff (rawEntry_lt v.fatsize v.fat (cur + len)) (h.endclust_lt hfile)
  rw [h.endclust] at hsub
  change (v.entry (cur + len) + _) % _ ≠ _ ↔ v.entry (cur + len) ≠ _ at hsub
  rw [hlink] at hsub hvalue hvalue' hentry
  by_cases hrun : c = cur + len + 1
  · refine ⟨front, cur, len + 1,
      { r with
        mydata := (getFatent v.dev r.mydata r.endclust).2
        endclust := c
        actsize := (r.actsize + v.bpc) % 4294967296 },
      ⟨?_, hcached, h.filesize, h.gotsize, h.curclust, hrun, ?_, h.buffer, h.pos, hmore, .inr (by omega)⟩,
      rfl, ?_⟩
    · rw [h.chain, hrun, List.range'_1_concat (n := len + 1), List.append_assoc, Nat.add_assoc]
      rfl
    · rw [h.actsize, ← Nat.add_one_mul]
      apply Nat.mod_eq_of_lt
      have hle := Nat.mul_le_mul (show len + 1 + 1 ≤ 0xfff0 by omega) hbpc.2
      omega
    · intro k
      rw [getContentsLoop, if_pos (h.unread hmore)]
      dsimp only
      rw [hvalue, if_neg (by rw [h.endclust, hsub, not_not]; exact hrun), if_neg hends,
        hcached.bytesperclust]
  · have hlength : (front ++ List.range' cur (len + 1)).length = front.length + (len + 1) := by
      rw [List.length_append, List.length_range']
    have hread := getCluster_run hcached hfits hcur (show cur + (len + 1) ≤ v.clusters + 2 by omega)
      (Nat.succ_pos len) (Nat.le_refl _)
      (Lib.Memory.store buffer 0 (front.flatMap v.clusterBytes)) (front.length * v.bpc)
    have hrun' := flatMap_length v (List.range' cur (len + 1))
    rw [List.length_range'] at hrun'
    have hstore := store_store buffer 0 (front.flatMap v.clusterBytes)
      ((List.range' cur (len + 1)).flatMap v.clusterBytes)
    rw [Nat.zero_add, flatMap_length] at hstore
    rw [List.take_of_length_le (Nat.le_of_eq hrun'), hstore, ← List.flatMap_append] at hread
    have hgot : (r.gotsize + r.actsize) % 4294967296 = (front.length + (len + 1)) * v.bpc := by
      rw [h.gotsize, h.actsize, ← Nat.add_mul]
      apply Nat.mod_eq_of_lt
      rw [Nat.add_mul]
      omega
    refine ⟨front ++ List.range' cur (len + 1), c, 0,
      { mydata := (getFatent v.dev (getFatent v.dev r.mydata r.endclust).2 r.endclust).2
        filesize := r.filesize - r.actsize
        gotsize := (front.length + (len + 1)) * v.bpc
        curclust := c
        endclust := c
        actsize := v.bpc
        buffer := Lib.Memory.store buffer 0 ((front ++ List.range' cur (len + 1)).flatMap v.clusterBytes)
        pos := r.pos + r.actsize },
      ⟨?_, hcached', ?_, ?_, rfl, rfl, ?_, rfl, ?_, ?_, .inl rfl⟩, ?_, ?_⟩
    · rw [h.chain, List.append_assoc]
      rfl
    · change r.filesize - r.actsize = _
      rw [h.filesize, h.actsize, hlength, Nat.add_mul front.length, Nat.sub_sub]
    · rw [hlength]
    · rw [Nat.zero_add, Nat.one_mul]
    · change r.pos + r.actsize = _
      rw [h.pos, h.actsize, hlength, Nat.add_mul front.length]
    · rw [hlength]
      exact hmore
    · exact hlength
    · intro k
      rw [getContentsLoop, if_pos (h.unread hmore)]
      dsimp only
      rw [hvalue, if_pos (by rw [h.endclust, hsub]; exact hrun), hvalue', if_neg hends, hgot,
        hcached'.bytesperclust, h.curclust, h.buffer, h.pos, h.actsize, hread]

theorem loop_outcome (h : At v l n buffer front cur len rest r) (hfile : IsFile v dent l)
    (hfits : FitsShort v.dataBegin) (hlen : v.fatLen % 65536 ≠ 0) (hn : n < 4294967296)
    (hcovers : n ≤ l.length * v.bpc) :
    ∃ k g m, getContentsLoop v.dev k r = some (g, m) ∧
      (LinksFrom v l n (front.length + len) →
        g = n ∧ m = Lib.Memory.store buffer 0 ((l.flatMap v.clusterBytes).take n)) ∧
      (¬LinksFrom v l n (front.length + len) → g < n) := by
  induction rest generalizing front cur len r with
  | nil =>
    have hlength : l.length = front.length + len + 1 := by
      rw [h.chain, List.append_nil, List.length_append, List.length_range', Nat.add_assoc]
    rw [hlength] at hcovers
    refine ⟨1, n, _, loop_finish h hfile hfits hn hcovers 0, fun _ ↦ ⟨rfl, rfl⟩, fun hnot ↦ absurd ?_ hnot⟩
    intro i c hi _ hlt
    have hle := Nat.mul_le_mul_right v.bpc (Nat.add_le_add_right hi 1)
    omega
  | cons c rest ih =>
    rcases Nat.lt_or_ge ((front.length + len + 1) * v.bpc) n with hmore | hlast
    · have hlength : (front ++ List.range' cur (len + 1)).length = front.length + len + 1 := by
        rw [List.length_append, List.length_range', Nat.add_assoc]
      have hthis : l[front.length + len]? = some (cur + len) := by
        rw [h.chain, ← List.append_assoc, List.getElem?_append_left (by omega),
          List.getElem?_append_right (by omega), Nat.add_sub_cancel_left, List.getElem?_range' (by omega)]
        congr 1
        omega
      rcases Nat.lt_or_ge (v.entry (cur + len)) 0xfff0 with hentry | hentry
      · obtain ⟨front', cur', len', r', h', hplace, hloop⟩ :=
          loop_step h hfile hfits hlen hn hmore hentry
        obtain ⟨k, g, m, hrun, hgood, hbad⟩ := ih h'
        have hlinks : LinksFrom v l n (front'.length + len') ↔ LinksFrom v l n (front.length + len) := by
          rw [hplace]
          constructor
          · intro hall i c hi hic hlt
            rcases Nat.eq_or_lt_of_le hi with rfl | hgt
            · obtain rfl := Option.some.inj (hthis.symm.trans hic)
              exact hentry
            · exact hall i c hgt hic hlt
          · exact fun hall i c hi ↦ hall i c (by omega)
        rw [hlinks] at hgood hbad
        exact ⟨k + 1, g, m, (hloop k).trans hrun, hgood, hbad⟩
      · obtain ⟨g, m, hrun, hlt⟩ := loop_stops h hfile hlen hn hmore hentry 0
        refine ⟨1, g, m, hrun, fun hall ↦ ?_, fun _ ↦ hlt⟩
        have := hall _ _ (Nat.le_refl _) hthis hmore
        omega
    · refine ⟨1, n, _, loop_finish h hfile hfits hn hlast 0, fun _ ↦ ⟨rfl, rfl⟩, fun hnot ↦ absurd ?_ hnot⟩
      intro i c hi _ hlt
      have hle := Nat.mul_le_mul_right v.bpc (Nat.add_le_add_right hi 1)
      omega

theorem getContentsLoop_mono {dev : Dev} {k : ℕ} {x : ℕ × Mem} (h : getContentsLoop dev k r = some x)
    (j : ℕ) : getContentsLoop dev (k + j) r = some x := by
  induction k generalizing r with
  | zero => cases h
  | succ k ih =>
    rw [Nat.add_right_comm]
    rw [getContentsLoop] at h ⊢
    dsimp only at h ⊢
    split_ifs at h ⊢
    · exact h
    · exact ih h
    · exact h
    · exact ih h
    · exact h

theorem startsect_getFatent (dev : Dev) (d : FsData) (c c' : ℕ) :
    startsect (getFatent dev d c).2 c' = startsect d c' := by
  obtain ⟨hclust, hbegin, hroot⟩ := getFatent_geometry dev d c
  rw [startsect, startsect, hclust, hbegin, hroot]

theorem bytesperclust_getFatent (dev : Dev) (d : FsData) (c : ℕ) :
    (getFatent dev d c).2.bytesperclust = d.bytesperclust := by
  rw [FsData.bytesperclust, (getFatent_geometry dev d c).1]
  rfl

theorem getCluster_keeps (dev : Dev) (d : FsData) (c : ℕ) (buffer : Mem) {pos k : ℕ} (size : ℕ)
    (h : k < pos) : getCluster dev d c buffer pos size k = buffer k := by
  unfold getCluster
  dsimp only
  split_ifs
  · rw [store_of_lt _ _ (by omega), store_of_lt _ _ h]
  · rw [store_of_lt _ _ h]

theorem store_first (m : Mem) (pos : ℕ) (m' : Mem) (off : ℕ) {n : ℕ} (h : 0 < n) :
    Lib.Memory.store m pos (bytes m' off n) pos = m' off := by
  obtain ⟨n, rfl⟩ := Nat.exists_eq_add_one_of_ne_zero h.ne'
  rw [Lib.Memory.store, if_pos (Nat.le_refl pos), Nat.sub_self, bytes, List.range_succ_eq_map]
  rfl

theorem getCluster_first (dev : Dev) (d : FsData) (c : ℕ) (buffer : Mem) (pos : ℕ) {size : ℕ}
    (h : 0 < size) : getCluster dev d c buffer pos size pos =
      dev.disk (sectorSize * ((startsect d c + dev.partOffset.toNat) % 4294967296)) := by
  have hsector : sectorSize = 512 := rfl
  unfold getCluster
  dsimp only
  rcases Nat.eq_zero_or_pos (size / sectorSize) with hidx | hidx
  · have hmod := Nat.mod_lt size (show 0 < sectorSize by decide)
    have hrest : 0 < size % sectorSize := by
      have := Nat.div_add_mod size sectorSize
      rw [hidx] at this
      omega
    rw [if_pos hrest.ne', hidx, Nat.add_zero, Nat.zero_mul, Nat.add_zero,
      Nat.mod_eq_of_lt (startsect_lt d c), diskRead, diskRead, Nat.mul_one, take_bytes _ _ hmod.le]
    exact store_first _ _ _ _ hrest
  · have hpos : 0 < sectorSize * (size / sectorSize) := Nat.mul_pos (by decide) hidx
    split_ifs
    · rw [store_of_lt _ _ (by rw [Nat.mul_comm] at hpos; omega), diskRead]
      exact store_first _ _ _ _ hpos
    · rw [diskRead]
      exact store_first _ _ _ _ hpos

theorem loop_keeps {dev : Dev} {k g : ℕ} {m : Mem} (h : getContentsLoop dev k r = some (g, m))
    (hpos : 0 < r.pos) : m 0 = r.buffer 0 := by
  induction k generalizing r with
  | zero => cases h
  | succ k ih =>
    rw [getContentsLoop] at h
    dsimp only at h
    split_ifs at h
    · obtain ⟨-, rfl⟩ := Prod.mk.inj (Option.some.inj h)
      exact getCluster_keeps _ _ _ _ _ hpos
    · rw [ih h (Nat.lt_of_lt_of_le hpos (Nat.le_add_right _ _))]
      exact getCluster_keeps _ _ _ _ _ hpos
    · obtain ⟨-, rfl⟩ := Prod.mk.inj (Option.some.inj h)
      rfl
    · have hrest := ih h hpos
      exact hrest
    · obtain ⟨-, rfl⟩ := Prod.mk.inj (Option.some.inj h)
      rw [getCluster_keeps _ _ _ _ _ (Nat.lt_of_lt_of_le hpos (Nat.le_add_right _ _)),
        getCluster_keeps _ _ _ _ _ hpos]

/-- Whatever the FAT says, the first byte comes from the first sector of the first cluster. -/
theorem loop_first {dev : Dev} {k j g : ℕ} {m : Mem} (h : getContentsLoop dev k r = some (g, m))
    (hpos : r.pos = 0) (hgot : r.gotsize = 0)
    (hbpc : 0 < r.mydata.bytesperclust ∧ r.mydata.bytesperclust ≤ 65536)
    (hend : r.endclust = r.curclust + j) (hact : r.actsize = (j + 1) * r.mydata.bytesperclust)
    (hsmall : j = 0 ∨ r.curclust + j < 0xfff0) (hfile : 0 < r.filesize ∧ r.filesize < 4294967296) :
    g = 0 ∨ m 0 =
      dev.disk (sectorSize * ((startsect r.mydata r.curclust + dev.partOffset.toNat) % 4294967296)) := by
  induction k generalizing r j with
  | zero => cases h
  | succ k ih =>
    have hactpos : 0 < r.actsize := by
      rw [hact]
      exact Nat.mul_pos (Nat.succ_pos j) hbpc.1
    rw [getContentsLoop] at h
    dsimp only at h
    split_ifs at h with hlt hnext hends hends
    · obtain ⟨-, rfl⟩ := Prod.mk.inj (Option.some.inj h)
      right
      rw [hpos, getCluster_first _ _ _ _ _ hactpos, startsect_getFatent]
    · right
      rw [loop_keeps h (Nat.lt_of_lt_of_le hactpos (Nat.le_add_left _ _))]
      dsimp only
      rw [hpos, getCluster_first _ _ _ _ _ hactpos, startsect_getFatent]
    · obtain ⟨rfl, -⟩ := Prod.mk.inj (Option.some.inj h)
      exact .inl hgot
    · rw [not_not] at hnext
      have hclust : (getFatent dev r.mydata r.endclust).1 = r.curclust + (j + 1) ∧
          r.curclust + (j + 1) < 0xfff0 := by
        unfold endsReading at hends
        omega
      have hsame := bytesperclust_getFatent dev r.mydata r.endclust
      have hnew := ih (j := j + 1) h hpos hgot (by rw [hsame]; exact hbpc) hclust.1 (by
        have hle := Nat.mul_le_mul (show j + 1 + 1 ≤ 0xfff0 by omega) hbpc.2
        dsimp only
        rw [hsame, hact, ← Nat.add_one_mul]
        exact Nat.mod_eq_of_lt (by omega)) (.inr hclust.2) hfile
      rw [startsect_getFatent] at hnew
      exact hnew
    · obtain ⟨-, rfl⟩ := Prod.mk.inj (Option.some.inj h)
      right
      have hsize : (r.actsize + 4294967296 - r.mydata.bytesperclust) % 4294967296 =
          j * r.mydata.bytesperclust := by
        have hle := Nat.mul_le_mul (show j ≤ 0xfff0 by omega) hbpc.2
        rw [hact, Nat.add_one_mul]
        omega
      rw [hsize, hpos, Nat.zero_add]
      rcases Nat.eq_zero_or_pos j with rfl | hj
      · rw [Nat.zero_mul, Nat.sub_zero, Nat.add_mod_right, Nat.mod_eq_of_lt hfile.2,
          getCluster_first _ _ _ _ _ hfile.1, hend, Nat.add_zero]
      · have hjpos := Nat.mul_pos hj hbpc.1
        rw [getCluster_keeps _ _ _ _ _ hjpos, getCluster_first _ _ _ _ _ hjpos]

/-- A FAT whose length is 0 in 16 bits is not read, and the buffer stays as it was. -/
theorem getFatent_unread (dev : Dev) {d : FsData} (hlen : d.fatlength = 0) (hbuf : d.fatbuf = fun _ ↦ 0)
    (c : ℕ) : (getFatent dev d c).1 = 0 ∧ (getFatent dev d c).2.fatlength = 0 ∧
      (getFatent dev d c).2.fatbuf = fun _ ↦ 0 := by
  have hzero : ∀ bufsize entryAt, fatFormat d.fatsize = some (bufsize, entryAt) →
      ∀ offset, entryAt (fun _ ↦ 0) offset = 0 := by
    intro bufsize entryAt h offset
    unfold fatFormat at h
    split at h <;> cases h
    · rfl
    · rfl
    · have hword : ∀ off, le16 (fun _ ↦ 0) off = 0 := fun _ ↦ rfl
      rw [fat12Entry_eq, rawEntry, if_neg (by decide), if_neg (by decide), hword, Nat.zero_mod,
        Nat.zero_div, ite_self]
  unfold getFatent
  cases hformat : fatFormat d.fatsize with
  | none => exact ⟨rfl, hlen, hbuf⟩
  | some f =>
    obtain ⟨bufsize, entryAt⟩ := f
    dsimp only
    split_ifs with hnum hblocks
    · have hread : ∀ startblock, diskRead dev startblock (d.fatlength.toNat * sectorSize) = [] := by
        intro startblock
        rw [hlen]
        rfl
      rw [hread, store_nil, hbuf]
      exact ⟨hzero _ _ hformat _, hlen, rfl⟩
    · rw [hlen] at hblocks
      exact absurd (show fatBufBlocks > (0 : UInt16).toNat * sectorSize by decide) hblocks
    · refine ⟨?_, hlen, hbuf⟩
      rw [hbuf]
      exact hzero _ _ hformat _

theorem rawEntry_congr {fatsize n c : ℕ} {fat fat' : Mem} (h : fatsize = 12 ∨ fatsize = 16 ∨ fatsize = 32)
    (hfat : ∀ k < n, fat k = fat' k) (hc : (c + 1) * fatsize ≤ 8 * n) :
    rawEntry fatsize fat c = rawEntry fatsize fat' c := by
  rcases h with rfl | rfl | rfl
  · have hword : le16 fat (c + c / 2) = le16 fat' (c + c / 2) :=
      le16_congr (hfat _ (by omega)) (hfat _ (by omega))
    simp only [rawEntry, hword, show ¬(12 = 32) by decide, show ¬(12 = 16) by decide, if_false]
  · have hword : le16 fat (2 * c) = le16 fat' (2 * c) :=
      le16_congr (hfat _ (by omega)) (hfat _ (by omega))
    rw [rawEntry, rawEntry, if_neg (by decide), if_pos rfl, if_neg (by decide), if_pos rfl, hword]
  · rw [rawEntry, rawEntry, if_pos rfl, if_pos rfl]
    exact le32_congr fun i hi ↦ hfat _ (by omega)

theorem SameButData.refl (v : Volume) : SameButData v v := ⟨rfl, rfl, rfl, rfl, fun _ _ ↦ rfl⟩

theorem SameButData.geometry (h : SameButData v v') :
    v'.bpc = v.bpc ∧ v'.fatLen = v.fatLen ∧ v'.dataStart = v.dataStart ∧ v'.dataBegin = v.dataBegin := by
  obtain ⟨hbs, hfatsize, -⟩ := h
  simp only [Volume.bpc, Volume.clust, Volume.fatLen, Volume.dataStart, Volume.dataBegin,
    Volume.rootSectors, hbs, hfatsize, and_self]

theorem SameButData.entry (h : SameButData v v') {c : ℕ} (hc : c < v.clusters + 2) :
    v'.entry c = v.entry c := by
  have hfits : (v.clusters + 2) * v.fatsize ≤ 8 * sectorSize * v.fatLen := v.entries_fit
  have hle : (c + 1) * v.fatsize ≤ (v.clusters + 2) * v.fatsize := Nat.mul_le_mul_right _ hc
  rw [Volume.entry, Volume.entry, h.fatsize]
  apply rawEntry_congr (n := sectorSize * v.fatLen) (fatsize_of v)
  · intro k hk
    rw [Volume.fat, Volume.fat, h.bs, h.partOffset]
    apply h.disk
    rintro ⟨hlow, -⟩
    have hfats : v.fatLen ≤ v.bs.fats.toNat * v.fatLen := Nat.le_mul_of_pos_left _ v.fats_pos
    rw [Volume.sector, Volume.dataStart, Nat.sub_self, Nat.zero_mul, Nat.add_zero] at hlow
    rw [show sectorSize = 512 from rfl] at hlow hk
    omega
  · rw [← Nat.mul_assoc]
    exact hle.trans hfits

theorem SameButData.isFile (h : SameButData v v') (hfile : IsFile v dent l) : IsFile v' dent l := by
  refine ⟨?_, ?_, ?_, ?_⟩
  · rw [h.fatsize]
    exact hfile.head
  · rw [h.clusters]
    exact hfile.numbers
  · intro i a b ha hb
    have hentry := h.entry (hfile.numbers a (List.mem_of_getElem? ha)).2
    have hlink := hfile.links i a b ha hb
    rw [Volume.link] at hlink ⊢
    rwa [h.fatsize, hentry]
  · rw [h.geometry.1]
    exact hfile.covers

theorem SameButData.linksFrom (h : SameButData v v') (hfile : IsFile v dent l) {n k : ℕ}
    (hlinks : LinksFrom v l n k) : LinksFrom v' l n k := by
  intro i c hi hc hlt
  rw [h.geometry.1] at hlt
  rw [h.entry (hfile.numbers c (List.mem_of_getElem? hc)).2]
  exact hlinks i c hi hc hlt

theorem wanted_le (dent : DirEntry) (maxsize : UInt32) : wanted dent maxsize ≤ dent.size.toNat := by
  unfold wanted
  split_ifs
  · exact Nat.le_refl _
  · exact Nat.min_le_left _ _

/-- The state in which the loop of `get_contents` begins. -/
def initial (v : Volume) (dent : DirEntry) (maxsize : UInt32) (fatbuf buffer : Mem) : Reading where
  mydata := doFatRead v.bs v.fatsize fatbuf
  filesize := wanted dent maxsize
  gotsize := 0
  curclust := dent.START v.fatsize
  endclust := dent.START v.fatsize
  actsize := v.bpc
  buffer := buffer
  pos := 0

theorem getContents_eq (v : Volume) (dent : DirEntry) (maxsize : UInt32) (fatbuf buffer : Mem) (k : ℕ) :
    getContents v.dev k (doFatRead v.bs v.fatsize fatbuf) dent buffer maxsize =
      getContentsLoop v.dev k (initial v dent maxsize fatbuf buffer) := by
  rw [getContents, limited_eq]
  rfl

theorem initial_at (hfile : IsFile v dent l) {maxsize : UInt32} (hpos : 0 < wanted dent maxsize)
    (fatbuf buffer : Mem) : ∃ rest, At v l (wanted dent maxsize) buffer [] (dent.START v.fatsize) 0 rest
      (initial v dent maxsize fatbuf buffer) := by
  have hle := wanted_le dent maxsize
  have hcovers := hfile.covers
  cases l with
  | nil =>
    rw [List.length_nil, Nat.zero_mul] at hcovers
    omega
  | cons c rest =>
    have hc := hfile.head c rfl
    refine ⟨rest, ⟨?_, cached_doFatRead v fatbuf, ?_, ?_, rfl, rfl, ?_, ?_, ?_, ?_, .inl rfl⟩⟩
    · rw [← hc]
      rfl
    · rw [List.length_nil, Nat.zero_mul]
      rfl
    · rw [List.length_nil, Nat.zero_mul]
      rfl
    · rw [Nat.zero_add, Nat.one_mul]
      rfl
    · exact (store_nil buffer 0).symm
    · rw [List.length_nil, Nat.zero_mul]
      rfl
    · rw [List.length_nil, Nat.zero_mul]
      exact hpos

/-- The part of the boot sector that matters lies in front of the data. -/
theorem readBootsectandvi_congr {dev dev' : Dev} (h : diskRead dev' 0 1 = diskRead dev 0 1) :
    readBootsectandvi dev' = readBootsectandvi dev := by
  rw [readBootsectandvi, readBootsectandvi, h]

theorem sector_two (v : Volume) : v.sector 2 = v.dev.partOffset.toNat + v.dataStart := by
  rw [Volume.sector, Nat.sub_self, Nat.zero_mul, Nat.add_zero]

theorem dataStart_pos (v : Volume) : 0 < v.dataStart :=
  Nat.lt_of_lt_of_le v.reserved_pos (Nat.le_add_right_of_le (Nat.le_add_right _ _))

/-- The volume with another byte in its data area. -/
def withByte (v : Volume) (k : ℕ) (hk : v.InData k) (b : UInt8) : Volume :=
  { v with
    dev := { v.dev with disk := Function.update v.dev.disk k b }
    boot := by
      have hread : diskRead { v.dev with disk := Function.update v.dev.disk k b } 0 1 =
          diskRead v.dev 0 1 := by
        have hpart := v.dev.partOffset.toNat_lt
        rw [diskRead, diskRead]
        apply bytes_congr
        intro i _ hi
        apply Function.update_of_ne
        have hlow := hk.1
        have hpos := dataStart_pos v
        have hsector : sectorSize = 512 := rfl
        rw [sector_two, hsector] at hlow
        rw [hsector] at hi
        dsimp only at hi
        omega
      rw [readBootsectandvi_congr hread]
      exact v.boot }

theorem sameButData_withByte (v : Volume) (k : ℕ) (hk : v.InData k) (b : UInt8) :
    SameButData v (withByte v k hk b) := by
  refine ⟨rfl, rfl, rfl, rfl, fun i hi ↦ ?_⟩
  apply Function.update_of_ne
  rintro rfl
  exact hi hk

theorem inData_cluster {c : ℕ} (hc : 2 ≤ c ∧ c < v.clusters + 2) : v.InData (sectorSize * v.sector c) := by
  have hclust := (clust_pos v).1
  obtain ⟨i, rfl⟩ := Nat.exists_eq_add_of_le hc.1
  obtain ⟨j, hj⟩ := Nat.exists_eq_add_of_lt hc.2
  constructor
  · rw [sector_add (Nat.le_refl 2)]
    exact Nat.mul_le_mul_left _ (Nat.le_add_right _ _)
  · apply Nat.mul_lt_mul_of_pos_left _ (show 0 < sectorSize by decide)
    rw [hj, Nat.add_assoc, sector_add hc.1]
    exact Nat.lt_add_of_pos_right (Nat.mul_pos (Nat.succ_pos j) hclust)

theorem store_contents (v : Volume) (m : Mem) (c : ℕ) (l : List ℕ) {n : ℕ} (hn : 0 < n) :
    Lib.Memory.store m 0 (((c :: l).flatMap v.clusterBytes).take n) 0 =
      v.dev.disk (sectorSize * v.sector c) := by
  have hget : (((c :: l).flatMap v.clusterBytes).take n)[0]? = some (v.dev.disk (sectorSize * v.sector c)) := by
    rw [List.getElem?_take_of_lt hn, List.flatMap_cons, Volume.clusterBytes,
      List.getElem?_append_left (by rw [bytes_length]; exact (bpc_pos v).1), bytes, List.getElem?_map,
      List.getElem?_range (bpc_pos v).1]
    rfl
  rw [Lib.Memory.store, if_pos (Nat.le_refl 0), List.getD_eq_getElem?_getD, Nat.sub_zero, hget]
  rfl

theorem fitsShort_of_reads (hfile : IsFile v dent l) {maxsize : UInt32} (hpos : 0 < wanted dent maxsize)
    (h : ∀ v', SameButData v v' → Reads v' dent l maxsize) : FitsShort v.dataBegin := by
  by_contra hfits
  have hle := wanted_le dent maxsize
  have hbpc := bpc_pos v
  cases l with
  | nil =>
    have hcovers := hfile.covers
    rw [List.length_nil, Nat.zero_mul] at hcovers
    omega
  | cons c l =>
    have hnumber := hfile.numbers c List.mem_cons_self
    have hhead := hfile.head c rfl
    -- the sector that is read instead of the first one
    generalize hw : (startsect (doFatRead v.bs v.fatsize fun _ ↦ 0) c + v.dev.partOffset.toNat) %
      4294967296 = w
    have hne : w ≠ v.sector c := by
      rw [← hw]
      exact fun heq ↦ hfits ((startsect_eq_iff (cached_doFatRead v _) hnumber).mp heq)
    have hk := inData_cluster hnumber
    generalize hv' : withByte v _ hk (v.dev.disk (sectorSize * w) + 1) = v'
    have hsame : SameButData v v' := hv' ▸ sameButData_withByte v _ hk _
    have hwrong : v'.dev.disk (sectorSize * w) = v.dev.disk (sectorSize * w) := by
      rw [← hv']
      apply Function.update_of_ne
      intro heq
      exact hne (Nat.eq_of_mul_eq_mul_left (show 0 < sectorSize by decide) heq)
    have hright : v'.dev.disk (sectorSize * v.sector c) = v.dev.disk (sectorSize * w) + 1 := by
      rw [← hv']
      exact Function.update_self _ _ _
    obtain ⟨k, hrun⟩ := h v' hsame (fun _ ↦ 0) fun _ ↦ 0
    rw [getContents_eq] at hrun
    have hfirst := loop_first (j := 0) hrun rfl rfl
      (by
        change 0 < v'.bpc ∧ v'.bpc ≤ 65536
        exact bpc_pos v') rfl (by
        change v'.bpc = (0 + 1) * v'.bpc
        rw [Nat.zero_add, Nat.one_mul]) (.inl rfl) ⟨hpos, Nat.lt_of_le_of_lt hle dent.size.toNat_lt⟩
    have hplace : (startsect (initial v' dent maxsize (fun _ ↦ 0) fun _ ↦ 0).mydata
        (initial v' dent maxsize (fun _ ↦ 0) fun _ ↦ 0).curclust + v'.dev.partOffset.toNat) %
          4294967296 = w := by
      rw [initial]
      dsimp only
      rw [hsame.bs, hsame.fatsize, hsame.partOffset, ← hhead, hw]
    have hsector : v'.sector c = v.sector c := by
      rw [Volume.sector, Volume.sector, hsame.partOffset, hsame.geometry.2.2.1, Volume.clust, hsame.bs]
      rfl
    rcases hfirst with hzero | hfirst
    · exact hpos.ne' hzero
    · rw [store_contents v' _ c l hpos, hplace, hsector, hright, hwrong] at hfirst
      have hnat := congrArg UInt8.toNat hfirst
      rw [UInt8.toNat_add] at hnat
      have hlt := (v.dev.disk (sectorSize * w)).toNat_lt
      change (_ + 1) % 256 = _ at hnat
      omega

theorem getCluster_zero (dev : Dev) (d : FsData) (c : ℕ) (buffer : Mem) (pos : ℕ) :
    getCluster dev d c buffer pos 0 = buffer := store_nil buffer pos

theorem reads_zero (v : Volume) (l : List ℕ) {maxsize : UInt32} (hzero : wanted dent maxsize = 0) :
    Reads v dent l maxsize := by
  intro fatbuf buffer
  refine ⟨1, ?_⟩
  rw [getContents_eq, getContentsLoop, initial, hzero]
  dsimp only
  have hbpc : (doFatRead v.bs v.fatsize fatbuf).bytesperclust = v.bpc := rfl
  rw [if_neg (Nat.not_lt_zero _), hbpc, Nat.add_sub_cancel_left, Nat.mod_self, getCluster_zero]
  simp only [Nat.zero_add, getCluster_zero, List.take_zero, store_nil]

/-- With a FAT of length 0 in 16 bits, over a buffer of zeros, one cluster is all that is read. -/
theorem unread_of_fatLen (hfile : IsFile v dent l) {maxsize : UInt32} (hlen : v.fatLen % 65536 = 0)
    (hmore : v.bpc < wanted dent maxsize) (buffer m : Mem) (k : ℕ) :
    getContentsLoop v.dev k (initial v dent maxsize (fun _ ↦ 0) buffer) ≠
      some (wanted dent maxsize, m) := by
  have hbpc := bpc_pos v
  obtain ⟨rest, hat⟩ := initial_at hfile (Nat.zero_lt_of_lt hmore) (fun _ ↦ 0) buffer
  have hend := hat.endclust_lt hfile
  have hlength : (initial v dent maxsize (fun _ ↦ 0) buffer).mydata.fatlength = 0 :=
    UInt16.toNat_inj.mp ((cached_doFatRead v fun _ ↦ 0).fatlength.trans hlen)
  obtain ⟨hzero, hlength', hbuf'⟩ := getFatent_unread v.dev hlength rfl
    (initial v dent maxsize (fun _ ↦ 0) buffer).endclust
  obtain ⟨hzero', -, -⟩ := getFatent_unread v.dev hlength' hbuf'
    (initial v dent maxsize (fun _ ↦ 0) buffer).endclust
  cases k with
  | zero => exact nofun
  | succ k =>
    intro hrun
    have hunread : (initial v dent maxsize (fun _ ↦ 0) buffer).actsize <
        (initial v dent maxsize (fun _ ↦ 0) buffer).filesize := hmore
    rw [getContentsLoop, if_pos hunread] at hrun
    dsimp only at hrun
    rw [hzero, hzero', if_pos (by omega), if_pos (.inl (by decide))] at hrun
    have hgot := (Prod.mk.inj (Option.some.inj hrun)).1
    change (0 + v.bpc) % 4294967296 = _ at hgot
    omega

/-- A link that is taken for the end of the file is one too many. -/
theorem linksFrom_of_reads (hfile : IsFile v dent l) (hfits : FitsShort v.dataBegin)
    (hlen : v.fatLen % 65536 ≠ 0) {maxsize : UInt32} (hpos : 0 < wanted dent maxsize)
    (h : Reads v dent l maxsize) : LinksFrom v l (wanted dent maxsize) 0 := by
  by_contra hlinks
  have hle := wanted_le dent maxsize
  obtain ⟨rest, hat⟩ := initial_at hfile hpos (fun _ ↦ 0) (fun _ ↦ 0)
  obtain ⟨k, hrun⟩ := h (fun _ ↦ 0) fun _ ↦ 0
  rw [getContents_eq] at hrun
  obtain ⟨k', g, m, hrun', -, hbad⟩ := loop_outcome hat hfile hfits hlen
    (Nat.lt_of_le_of_lt hle dent.size.toNat_lt) (hle.trans hfile.covers)
  have hboth := getContentsLoop_mono hrun k'
  rw [Nat.add_comm, getContentsLoop_mono hrun' k] at hboth
  obtain ⟨rfl, -⟩ := Prod.mk.inj (Option.some.inj hboth)
  exact Nat.lt_irrefl _ (hbad hlinks)

/-- `get_contents` returns `n = min(size, maxsize)` with the first `n` bytes of the clusters, whatever the
data area holds, just when `data_begin` is representable, the FAT is read at all, and no link that is
needed is one that it takes for the end of the file. -/
theorem contents_exact_iff (v : Volume) (dent : DirEntry) (l : List ℕ) (hfile : IsFile v dent l)
    (maxsize : UInt32) :
    (∀ v', SameButData v v' → Reads v' dent l maxsize) ↔
      wanted dent maxsize = 0 ∨ FitsShort v.dataBegin ∧
        (wanted dent maxsize ≤ v.bpc ∨ v.fatLen % 65536 ≠ 0) ∧
        LinksFrom v l (wanted dent maxsize) 0 := by
  constructor
  · intro h
    rcases Nat.eq_zero_or_pos (wanted dent maxsize) with hzero | hpos
    · exact .inl hzero
    · right
      have hfits := fitsShort_of_reads hfile hpos h
      have hreads := h v (.refl v)
      rcases Nat.lt_or_ge v.bpc (wanted dent maxsize) with hmore | hone
      · have hlen : v.fatLen % 65536 ≠ 0 := by
          intro hlen
          obtain ⟨k, hrun⟩ := hreads (fun _ ↦ 0) fun _ ↦ 0
          rw [getContents_eq] at hrun
          exact unread_of_fatLen hfile hlen hmore _ _ k hrun
        exact ⟨hfits, .inr hlen, linksFrom_of_reads hfile hfits hlen hpos hreads⟩
      · refine ⟨hfits, .inl hone, ?_⟩
        intro i c _ _ hi
        have hle := Nat.mul_le_mul_right v.bpc (show 1 ≤ i + 1 by omega)
        omega
  · intro h v' hsame
    rcases Nat.eq_zero_or_pos (wanted dent maxsize) with hzero | hpos
    · exact reads_zero v' l hzero
    intro fatbuf buffer
    obtain ⟨hfits, hlen, hlinks⟩ := h.resolve_left hpos.ne'
    have hfile' := hsame.isFile hfile
    obtain ⟨hbpc, hfatLen, -, hbegin⟩ := hsame.geometry
    obtain ⟨rest, hat⟩ := initial_at hfile' hpos fatbuf buffer
    have hle := wanted_le dent maxsize
    have hlt := Nat.lt_of_le_of_lt hle dent.size.toNat_lt
    rw [← hbegin] at hfits
    rw [← hbpc, ← hfatLen] at hlen
    rcases hlen with hone | hlen
    · refine ⟨1, (getContents_eq v' dent maxsize fatbuf buffer 1).trans ?_⟩
      exact loop_finish hat hfile' hfits hlt (by rwa [List.length_nil, Nat.zero_add, Nat.one_mul]) 0
    · obtain ⟨k, g, m, hrun, hgood, -⟩ := loop_outcome hat hfile' hfits hlen hlt (hle.trans hfile'.covers)
      obtain ⟨rfl, rfl⟩ := hgood (hsame.linksFrom hfile hlinks)
      exact ⟨k, (getContents_eq v' dent maxsize fatbuf buffer k).trans hrun⟩

end

/-- A FAT16 with clusters of one sector: the cluster behind 2 is 3, or 0xfff0. -/
def fat16Disk (high : Bool) : Mem := fun k ↦
  if k = 13 ∨ k = 14 ∨ k = 16 ∨ k = 23 then 1
  else if k = 18 then 2
  else if 54 ≤ k ∧ k < 62 then (ascii "FAT16   ").getD (k - 54) 0
  else if k = 516 then if high then 0xf0 else 3
  else if k = 517 then if high then 0xff else 0
  else if k = 518 ∨ k = 519 ∨ k = 131552 ∨ k = 131553 then 0xff
  else 0

def fat16Boot : BootSector := ⟨1, 1, 1, (0, 2), 256, 0⟩

theorem fat16Disk_boot : ∀ high, readBootsectandvi ⟨fat16Disk high, 0⟩ = some (fat16Boot, 16) := by
  decide +kernel

def fat16Volume (high : Bool) : Volume where
  dev := ⟨fat16Disk high, 0⟩
  bs := fat16Boot
  fatsize := 16
  clusters := 65521
  boot := fat16Disk_boot high
  reserved_pos := by decide
  fats_pos := by decide
  clusterSize := ⟨0, by decide, rfl⟩
  rootEntries := by decide
  numbers := by decide
  entries_fit := by decide
  end_le := by cases high <;> decide

theorem fat16Volume_bpc (high : Bool) : (fat16Volume high).bpc = 512 := by
  change fat16Boot.clusterSize.toNat * sectorSize = 512
  decide

theorem isFile_fat16 {high : Bool} {c : ℕ} (hlink : (fat16Volume high).link 2 = c)
    (hc : 2 ≤ c ∧ c < 65523) : IsFile (fat16Volume high) ⟨0, 2, 513⟩ [2, c] := by
  refine ⟨?_, ?_, ?_, ?_⟩
  · rintro _ ⟨⟩
    rfl
  · intro a ha
    rcases List.mem_cons.mp ha with rfl | ha
    · exact ⟨Nat.le_refl 2, show 2 < 65523 by decide⟩
    · rw [List.mem_singleton.mp ha]
      exact hc
  · intro i a b ha hb
    cases i with
    | zero =>
      obtain rfl := Option.some.inj ha
      obtain rfl := Option.some.inj hb
      exact hlink
    | succ i => cases hb
  · rw [fat16Volume_bpc, List.length_cons, List.length_singleton]
    decide

theorem contents_exact_two : Reads (fat16Volume false) ⟨0, 2, 513⟩ [2, 3] 0 := by
  have hfile : IsFile (fat16Volume false) ⟨0, 2, 513⟩ [2, 3] :=
    isFile_fat16 (by decide +kernel) (by decide)
  have hentry : (fat16Volume false).entry 2 < 0xfff0 := by decide +kernel
  have hiff := contents_exact_iff (fat16Volume false) ⟨0, 2, 513⟩ [2, 3] hfile 0
  refine hiff.mpr (.inr ⟨by decide, .inr (by decide), ?_⟩) (fat16Volume false) (.refl _)
  have hwanted : wanted ⟨0, 2, 513⟩ 0 = 513 := by decide
  intro i c _ hc hi
  rw [fat16Volume_bpc, hwanted] at hi
  obtain rfl : i = 0 := by omega
  obtain rfl := Option.some.inj hc
  exact hentry

/-- Cluster 0xfff0 of a FAT16 is a cluster like any other; the reading ends in front of it. -/
theorem contents_cut : IsFile (fat16Volume true) ⟨0, 2, 513⟩ [2, 0xfff0] ∧
    ¬Reads (fat16Volume true) ⟨0, 2, 513⟩ [2, 0xfff0] 0 := by
  have hfile : IsFile (fat16Volume true) ⟨0, 2, 513⟩ [2, 0xfff0] :=
    isFile_fat16 (by decide +kernel) (by decide)
  have hentry : ¬(fat16Volume true).entry 2 < 0xfff0 := by decide +kernel
  refine ⟨hfile, fun h ↦ ?_⟩
  have hlinks := linksFrom_of_reads hfile (by decide) (by decide) (by decide) h
  exact hentry (hlinks 0 2 (Nat.le_refl 0) rfl (by decide))

end UBoot.Fs.FatContents
