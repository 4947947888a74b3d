import Mathlib.Algebra.Group.Nat.Defs
import UBoot.Lib.Memory

namespace UBoot.Include.Image

open Lib.Memory

def ihOsNetbsd : ℕ := 2

def ihOsLinux : ℕ := 5

def ihOsVxworks : ℕ := 14

def ihOsQnx : ℕ := 16

def ihOsRtems : ℕ := 18

def ihCpuMips : ℕ := 5

def ihTypeStandalone : ℕ := 1

def ihTypeKernel : ℕ := 2

def ihTypeRamdisk : ℕ := 3

def ihTypeMulti : ℕ := 4

def ihCompNone : ℕ := 0

def ihCompLzma : ℕ := 3

def ihMagic : ℕ := 0x27051956

def ihNmlen : ℕ := 32

/-- `sizeof (image_header_t)`. -/
def imageHeaderSize : ℕ := 64

/-- The fields of `image_header_t` in the order of the bytes, without the name. -/
structure ImageHeader where
  ihMagic : ℕ
  ihHcrc : ℕ
  ihTime : ℕ
  ihSize : ℕ
  ihLoad : ℕ
  ihEp : ℕ
  ihDcrc : ℕ
  ihOs : ℕ
  ihArch : ℕ
  ihType : ℕ
  ihComp : ℕ
deriving DecidableEq

/-- The header at `addr`. -/
def readHeader (m : Mem) (addr : ℕ) : ImageHeader where
  ihMagic := load32 m addr
  ihHcrc := load32 m (addr + 4)
  ihTime := load32 m (addr + 8)
  ihSize := load32 m (addr + 12)
  ihLoad := load32 m (addr + 16)
  ihEp := load32 m (addr + 20)
  ihDcrc := load32 m (addr + 24)
  ihOs := (m (addr + 28)).toNat
  ihArch := (m (addr + 29)).toNat
  ihType := (m (addr + 30)).toNat
  ihComp := (m (addr + 31)).toNat

/-- The bytes of the header `h` with the name field `name`. -/
def ImageHeader.bytes (h : ImageHeader) (name : List UInt8) : List UInt8 :=
  be32 h.ihMagic ++ be32 h.ihHcrc ++ be32 h.ihTime ++ be32 h.ihSize ++ be32 h.ihLoad ++
    be32 h.ihEp ++ be32 h.ihDcrc ++
    [UInt8.ofNat h.ihOs, UInt8.ofNat h.ihArch, UInt8.ofNat h.ihType, UInt8.ofNat h.ihComp] ++ name

/-- The fields have the width that they have in the source. -/
structure ImageHeader.Bounded (h : ImageHeader) : Prop where
  magic : h.ihMagic < 2 ^ 32
  hcrc : h.ihHcrc < 2 ^ 32
  time : h.ihTime < 2 ^ 32
  size : h.ihSize < 2 ^ 32
  load : h.ihLoad < 2 ^ 32
  ep : h.ihEp < 2 ^ 32
  dcrc : h.ihDcrc < 2 ^ 32
  os : h.ihOs < 2 ^ 8
  arch : h.ihArch < 2 ^ 8
  type : h.ihType < 2 ^ 8
  comp : h.ihComp < 2 ^ 8

theorem readHeader_of_bytes {m : Mem} {addr n : ℕ} {h : ImageHeader} {name : List UInt8}
    (hb : Lib.Memory.bytes m addr n = h.bytes name) (hw : h.Bounded) : readHeader m addr = h := by
  simp only [ImageHeader.bytes, List.append_assoc] at hb
  obtain ⟨hmagic, hb⟩ := load32_head hb
  obtain ⟨hhcrc, hb⟩ := load32_head hb
  obtain ⟨htime, hb⟩ := load32_head hb
  obtain ⟨hsize, hb⟩ := load32_head hb
  obtain ⟨hload, hb⟩ := load32_head hb
  obtain ⟨hep, hb⟩ := load32_head hb
  obtain ⟨hdcrc, hb⟩ := load32_head hb
  have hat (i : ℕ) (hi : i < 4) := apply_of_bytes hb (i := i) (by simp; omega)
  have hos := hat 0 (by omega)
  have harch := hat 1 (by omega)
  have htype := hat 2 (by omega)
  have hcomp := hat 3 (by omega)
  simp only [Nat.add_assoc, Nat.reduceAdd] at hhcrc htime hsize hload hep hdcrc hos harch htype hcomp
  have hword {v : ℕ} (hv : v < 2 ^ 32) : v % 4294967296 = v := Nat.mod_eq_of_lt hv
  have hbyte {v : ℕ} (hv : v < 2 ^ 8) : (UInt8.ofNat v).toNat = v := by
    rw [UInt8.toNat_ofNat']
    exact Nat.mod_eq_of_lt hv
  rw [readHeader, hmagic, hhcrc, htime, hsize, hload, hep, hdcrc, hos, harch, htype, hcomp,
    hword hw.magic, hword hw.hcrc, hword hw.time, hword hw.size, hword hw.load, hword hw.ep,
    hword hw.dcrc]
  simp only [List.cons_append, List.getElem_cons_zero, List.getElem_cons_succ, hbyte hw.os,
    hbyte hw.arch, hbyte hw.type, hbyte hw.comp]

end UBoot.Include.Image
