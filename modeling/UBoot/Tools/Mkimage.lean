import UBoot.Include.Image
import UBoot.LibGeneric.Crc32

namespace UBoot.Tools.Mkimage

open Lib.Memory Include.Image LibGeneric.Crc32

/-- The options that go into the header. `name` is the text of `-n`, `mtime` the time stamp of the
image file. -/
structure Options where
  optOs : ℕ
  optArch : ℕ
  addr : ℕ
  ep : ℕ
  name : List UInt8
  mtime : ℕ
  optOs_lt : optOs < 2 ^ 8
  optArch_lt : optArch < 2 ^ 8
  addr_lt : addr < 2 ^ 32
  ep_lt : ep < 2 ^ 32
  mtime_lt : mtime < 2 ^ 32

/-- `copy_file`: the bytes that it writes, `none` for a size that is negative as an `int`. -/
def copyFile (file : List UInt8) (pad : Bool) : Option (List UInt8) :=
  if 2 ^ 31 ≤ file.length then none
  else
    let tail := file.length % 4
    some (if pad ∧ tail ≠ 0 then file ++ List.replicate (4 - tail) 0 else file)

/-- The first loop of `main` over the files: the table of sizes with the terminating zero. -/
def sizeTable : List (List UInt8) → List UInt8
  | [] => be32 0
  | file :: files => be32 file.length ++ sizeTable files

/-- The second loop: all files but the last are padded. -/
def copyFiles : List (List UInt8) → Option (List UInt8)
  | [] => some []
  | [file] => copyFile file false
  | file :: files => do return (← copyFile file true) ++ (← copyFiles files)

/-- `strncpy` of the name into its field. -/
def nameField (name : List UInt8) : List UInt8 :=
  (name ++ List.replicate ihNmlen 0).take ihNmlen

/-- The new header that `main` builds in front of `data`, with the checksum `hcrc`. -/
def newHeader (opt : Options) (data : List UInt8) (hcrc : ℕ) : ImageHeader where
  ihMagic := ihMagic
  ihHcrc := hcrc
  ihTime := opt.mtime
  ihSize := data.length
  ihLoad := opt.addr
  ihEp := opt.ep
  ihDcrc := (crc32 0 data).toNat
  ihOs := opt.optOs
  ihArch := opt.optArch
  ihType := ihTypeMulti
  ihComp := ihCompNone

/-- The checksum of the header, over the bytes with a zero in its place. -/
def headerChecksum (opt : Options) (data : List UInt8) : ℕ :=
  (crc32 0 ((newHeader opt data 0).bytes (nameField opt.name))).toNat

/-- `main` for `-T multi -C none`: the image that is written, unless a file is too large. -/
def mkimage (opt : Options) (files : List (List UInt8)) : Option (List UInt8) :=
  (copyFiles files).map fun copied ↦
    let data := sizeTable files ++ copied
    (newHeader opt data (headerChecksum opt data)).bytes (nameField opt.name) ++ data

end UBoot.Tools.Mkimage
