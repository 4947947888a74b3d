import UBoot.Common.MultiImage
import UBoot.LibGeneric.LzmaRoundTrip

namespace UBoot.Common.KernelImage

open Lib.Memory Include.Image LibGeneric.Crc32 CmdBootm Tools.Mkimage MultiImage
open LibGeneric.LzmaDecode LibGeneric.LzmaRoundTrip

section Mkimage

variable (opt : Options) (type comp : ℕ) (data : List UInt8)

/-- The new header that `main` of mkimage.c builds for another type than `multi`. -/
def fileHeader (hcrc : ℕ) : ImageHeader := { newHeader opt data hcrc with ihType := type, ihComp := comp }

def fileChecksum : ℕ := (crc32 0 ((fileHeader opt type comp data 0).bytes (nameField opt.name))).toNat

/-- `main` for one file and neither `-T multi` nor `-T script`. -/
def mkimageFile (file : List UInt8) : Option (List UInt8) :=
  (copyFile file false).map fun data ↦
    (fileHeader opt type comp data (fileChecksum opt type comp data)).bytes (nameField opt.name) ++ data

end Mkimage

/-- What `lzma_decode` makes of its input for `do_bootm`, with the image to be put at `load`. -/
def lzmaTo (m : Mem) (load : ℕ) (inBuffer : List UInt8) : Option (List UInt8) := do
  let o ← lzma_decode inBuffer fun k ↦ m (load + k)
  if o.result = lzmaResultOk then o.outSizeProcessed.map (bytes o.outStream 0) else none

variable {m : Mem} {opt : Options} {type comp : ℕ} {data : List UInt8}

theorem fileHeader_bounded (htype : type < 2 ^ 8) (hcomp : comp < 2 ^ 8) (hdata : data.length < 2 ^ 32) :
    (fileHeader opt type comp data (fileChecksum opt type comp data)).Bounded where
  magic := (by decide : ihMagic < 2 ^ 32)
  hcrc := UInt32.toNat_lt _
  time := opt.mtime_lt
  size := hdata
  load := opt.addr_lt
  ep := opt.ep_lt
  dcrc := UInt32.toNat_lt _
  os := opt.optOs_lt
  arch := opt.optArch_lt
  type := htype
  comp := hcomp

theorem fileHeader_bytes_length (hcrc : ℕ) :
    ((fileHeader opt type comp data hcrc).bytes (nameField opt.name)).length = imageHeaderSize := by
  simp [ImageHeader.bytes, nameField_length, imageHeaderSize]

theorem checkImage_fileHeader {addr k : ℕ} (htype : type < 2 ^ 8) (hcomp : comp < 2 ^ 8)
    (hdata : data.length < 2 ^ 32)
    (h : bytes m addr k = (fileHeader opt type comp data (fileChecksum opt type comp data)).bytes
      (nameField opt.name) ++ data) (verify : Bool) :
    checkImage m addr verify = .ok (fileHeader opt type comp data (fileChecksum opt type comp data)) := by
  obtain ⟨hhdr, hbody⟩ := bytes_eq_append h
  rw [fileHeader_bytes_length] at hhdr hbody
  have hread := readHeader_of_bytes hhdr (fileHeader_bounded htype hcomp hdata)
  have hzero : bytes m addr 4 ++ be32 0 ++ bytes m (addr + 8) 56 =
      (fileHeader opt type comp data 0).bytes (nameField opt.name) := by
    simp only [ImageHeader.bytes, List.append_assoc] at hhdr ⊢
    obtain ⟨hmagic, hrest⟩ := bytes_eq_append hhdr
    obtain ⟨-, hrest⟩ := bytes_eq_append hrest
    simp only [be32_length, List.length_append, nameField_length, List.length_cons,
      List.length_nil, Nat.add_assoc, Nat.reduceAdd] at hmagic hrest
    rw [hmagic, hrest]
    rfl
  have hmagic : (fileHeader opt type comp data (fileChecksum opt type comp data)).ihMagic = ihMagic := rfl
  have hsize : (fileHeader opt type comp data (fileChecksum opt type comp data)).ihSize = data.length := rfl
  have hhcrc : (crc32 0 ((fileHeader opt type comp data 0).bytes (nameField opt.name))).toNat =
      (fileHeader opt type comp data (fileChecksum opt type comp data)).ihHcrc := rfl
  have hdcrc : (crc32 0 data).toNat = (fileHeader opt type comp data (fileChecksum opt type comp data)).ihDcrc :=
    rfl
  simp only [checkImage, hread, hmagic, hzero, hsize, hbody]
  rw [if_neg (not_not_intro rfl), if_neg (not_not_intro hhcrc), if_neg fun hc ↦ hc.2 hdcrc]

/-- What `lzma_decode` makes of a file that LzmaAlone.cpp has written. -/
theorem lzmaTo_lzmaAlone {c : Tools.LzmaEncoder.Settings} (hmax : c.numLiteralContextBits + c.numLiteralPosStateBits ≤ 3)
    (hpb : c.posStateBits ≤ 4) (dictionarySize : ℕ) {kernel : List UInt8} (hlt : kernel.length < 0xFFFFFFFF)
    {found : List (ℕ × ℕ)} (hcovers : kernel ≠ [] →
      Covers c kernel (Tools.LzmaEncoder.encodeLiteral c kernel Tools.LzmaEncoder.init) found) (m : Mem) (load : ℕ) :
    lzmaTo m load (Tools.LzmaEncoder.lzmaAlone c dictionarySize kernel found) = some kernel := by
  obtain ⟨o, hdecode, ho⟩ :=
    lzma_decode_lzmaAlone c hmax hpb dictionarySize kernel hlt found hcovers [] fun k ↦ m (load + k)
  rw [List.append_nil] at hdecode
  simp only [lzmaTo, hdecode, Option.bind_eq_bind, Option.bind_some, if_pos ho.result, ho.processed, Option.map_some,
    ho.bytes]

theorem bootChecked_kernel {lzma : List UInt8 → Option (List UInt8)} {args : Args} {kernel : List UInt8} {hcrc : ℕ}
    (harch : opt.optArch = ihCpuMips) (hos : opt.optOs ∉ [ihOsNetbsd, ihOsRtems, ihOsVxworks, ihOsQnx])
    (harg : args.arg2 = none) (hlzma : lzma (bytes m (args.addr + imageHeaderSize) data.length) = some kernel) :
    bootChecked lzma m args (.ok (fileHeader opt ihTypeKernel ihCompLzma data hcrc)) =
      ([.lzmaDecode (args.addr + imageHeaderSize) data.length opt.addr, .linux opt.ep none], .done) := by
  have hknown : ¬ ihTypeKernel ∉ [ihTypeStandalone, ihTypeKernel, ihTypeMulti] := by decide
  have hstd : ihTypeKernel ≠ ihTypeStandalone := by decide
  have hmulti : ihTypeKernel ≠ ihTypeMulti := by decide
  have hcomp : ihCompLzma ≠ ihCompNone := by decide
  have hload : loadImage lzma m (fileHeader opt ihTypeKernel ihCompLzma data hcrc) args.addr
      (args.addr + imageHeaderSize) data.length opt.addr =
      .ok ([.lzmaDecode (args.addr + imageHeaderSize) data.length opt.addr], some (store m opt.addr kernel)) := by
    rw [loadImage]
    refine (if_neg hcomp).trans ?_
    rw [hlzma]
    rfl
  have hstart (m' : Mem) : startImage m' (fileHeader opt ihTypeKernel ihCompLzma data hcrc)
      (args.addr + imageHeaderSize) args = ([.linux opt.ep none], .done) := by
    rw [startImage]
    refine (if_neg hstd).trans ((if_neg hos).trans ?_)
    rw [doBootmLinux, harg]
    exact if_neg fun h ↦ hmulti h.1
  rw [bootChecked]
  refine (if_neg (not_not_intro harch)).trans ((if_neg hknown).trans ?_)
  have hplace : kernelImage m (fileHeader opt ihTypeKernel ihCompLzma data hcrc) (args.addr + imageHeaderSize) =
      some (args.addr + imageHeaderSize, data.length) := if_neg hmulti
  have haddr : loadAddress (fileHeader opt ihTypeKernel ihCompLzma data hcrc) args = opt.addr := if_neg hstd
  rw [hplace]
  simp only [loadAndStart, haddr, hload, hstart, List.cons_append, List.nil_append]

/-- `do_bootm` on a kernel that LzmaAlone.cpp has compressed and `mkimage` wrapped: it starts the kernel
with what `lzma_decode` puts at the load address, and that is the kernel. -/
theorem do_bootm_kernel {c : Tools.LzmaEncoder.Settings} (hmax : c.numLiteralContextBits + c.numLiteralPosStateBits ≤ 3)
    (hpb : c.posStateBits ≤ 4) {dictionarySize : ℕ} {kernel : List UInt8} (hlt : kernel.length < 0xFFFFFFFF)
    {found : List (ℕ × ℕ)} (hcovers : kernel ≠ [] →
      Covers c kernel (Tools.LzmaEncoder.encodeLiteral c kernel Tools.LzmaEncoder.init) found)
    {file img : List UInt8} (hfile : file = Tools.LzmaEncoder.lzmaAlone c dictionarySize kernel found)
    (himg : mkimageFile opt ihTypeKernel ihCompLzma file = some img) {args : Args}
    (hmem : bytes m args.addr img.length = img)
    (hover : opt.addr + kernel.length ≤ args.addr ∨ args.addr + img.length ≤ opt.addr)
    (harch : opt.optArch = ihCpuMips) (hos : opt.optOs ∉ [ihOsNetbsd, ihOsRtems, ihOsVxworks, ihOsQnx])
    (harg : args.arg2 = none) :
    doBootm (lzmaTo m opt.addr) m args =
        ([.lzmaDecode (args.addr + imageHeaderSize) file.length opt.addr, .linux opt.ep none], .done) ∧
      lzmaTo m opt.addr (bytes m (args.addr + imageHeaderSize) file.length) = some kernel ∧
      bytes (store m opt.addr kernel) args.addr img.length = img := by
  rw [mkimageFile, copyFile] at himg
  split_ifs at himg with hlarge
  · cases himg
  have himg : (fileHeader opt ihTypeKernel ihCompLzma file (fileChecksum opt ihTypeKernel ihCompLzma file)).bytes
      (nameField opt.name) ++ file = img := Option.some.inj himg
  have hload := lzmaTo_lzmaAlone hmax hpb dictionarySize hlt hcovers m opt.addr
  rw [← hfile] at hload
  have hcheck := checkImage_fileHeader (by decide) (by decide) (by omega) (hmem.trans himg.symm) args.verify
  have hbody : bytes m (args.addr + imageHeaderSize) file.length = file := by
    obtain ⟨-, hbody⟩ := bytes_eq_append (hmem.trans himg.symm)
    rwa [fileHeader_bytes_length] at hbody
  refine ⟨?_, hbody.symm ▸ hload, ?_⟩
  · rw [doBootm, hcheck]
    exact bootChecked_kernel harch hos harg (hbody.symm ▸ hload)
  · rcases hover with hbelow | habove
    · rw [bytes_store_of_le m hbelow, hmem]
    · rw [bytes_store_of_lt m kernel habove, hmem]

/-- A kernel of four bytes, compressed. -/
def fourFile : List UInt8 := Tools.LzmaEncoder.lzmaAlone ⟨3, 0, 2⟩ 0x800000 [0x61, 0x61, 0x61, 0x61] [(0, 3)]

/-- The image of it. -/
def fourImage : List UInt8 :=
  (fileHeader sample ihTypeKernel ihCompLzma fourFile (fileChecksum sample ihTypeKernel ihCompLzma fourFile)).bytes
    (nameField sample.name) ++ fourFile

/-- The memory with the image. -/
def fourMem : Mem := store (fun _ ↦ 0) 0x1000 fourImage

theorem do_bootm_kernel_four :
    doBootm (lzmaTo fourMem 0x100) fourMem ⟨0x1000, none, true, true⟩ =
        ([.lzmaDecode 0x1040 fourFile.length 0x100, .linux 0x100 none], .done) ∧
      lzmaTo fourMem 0x100 (bytes fourMem 0x1040 fourFile.length) = some [0x61, 0x61, 0x61, 0x61] ∧
      bytes (store fourMem 0x100 [0x61, 0x61, 0x61, 0x61]) 0x1000 fourImage.length = fourImage := by
  have hshort : ¬ 2 ^ 31 ≤ fourFile.length := by decide +kernel
  have himg : mkimageFile sample ihTypeKernel ihCompLzma fourFile = some fourImage := by
    rw [mkimageFile, copyFile, if_neg hshort]
    rfl
  have hcovers : ([0x61, 0x61, 0x61, 0x61] : List UInt8) ≠ [] → Covers ⟨3, 0, 2⟩ [0x61, 0x61, 0x61, 0x61]
      (Tools.LzmaEncoder.encodeLiteral ⟨3, 0, 2⟩ [0x61, 0x61, 0x61, 0x61] Tools.LzmaEncoder.init) [(0, 3)] :=
    fun _ ↦ ⟨.rep (by decide) (by decide) (by decide) ⟨by decide, by decide⟩, rfl⟩
  exact do_bootm_kernel (by decide) (by decide) (by decide) hcovers rfl himg (bytes_store _ _ _)
    (Or.inl (by decide)) rfl (by decide) rfl

end UBoot.Common.KernelImage
