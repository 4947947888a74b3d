import UBoot.Include.Image
import UBoot.LibGeneric.Crc32

namespace UBoot.Common.CmdBootm

open Lib.Memory Include.Image LibGeneric.Crc32

/-- The messages with which `do_bootm` returns 1 before it starts anything. -/
inductive Failure
  | badMagicNumber
  | badHeaderChecksum
  | badDataCrc
  | unsupportedArchitecture
  | wrongImageType
  | unimplementedCompression
deriving DecidableEq

/-- What `do_bootm` does with the memory, in this order. An initrd is a start address and a length. -/
inductive Event
  | copy (src len dst : ℕ)
  | lzmaDecode (src len dst : ℕ)
  | standalone (ep : ℕ)
  | linux (ep : ℕ) (initrd : Option (ℕ × ℕ))
  | otherOs (os : ℕ)
deriving DecidableEq

inductive Outcome
  | failed (f : Failure)
  | reset
  /-- the table of lengths does not end in the address space -/
  | endless
  | done
deriving DecidableEq

/-- The command line and the variables `verify` and `autostart`. `arg2` is `argv[2]`. -/
structure Args where
  addr : ℕ
  arg2 : Option ℕ
  verify : Bool
  autostart : Bool

/-- The checks that both `do_bootm` and `do_bootm_linux` make of the image at `addr`. -/
def checkImage (m : Mem) (addr : ℕ) (verify : Bool) : Except Failure ImageHeader :=
  let hdr := readHeader m addr
  if hdr.ihMagic ≠ ihMagic then .error .badMagicNumber
  else if (crc32 0 (bytes m addr 4 ++ be32 0 ++ bytes m (addr + 8) 56)).toNat ≠ hdr.ihHcrc then
    .error .badHeaderChecksum
  else if verify ∧
      (crc32 0 (bytes m (addr + imageHeaderSize) hdr.ihSize)).toNat ≠ hdr.ihDcrc then
    .error .badDataCrc
  else .ok hdr

/-- The `n`-th word of the table of lengths. -/
def lenPtr (m : Mem) (table n : ℕ) : ℕ := load32 m (table + 4 * n)

/-- `for (i = ..; len_ptr[i]; ++i)`: where the loop ends. -/
def tableEnd (m : Mem) (table : ℕ) : ℕ → ℕ → Option ℕ
  | 0, _ => none
  | fuel + 1, i => if lenPtr m table i = 0 then some i else tableEnd m table fuel (i + 1)

/-- The loop from `len_ptr[1]` on, up to the end of the address space. -/
def tableWords (m : Mem) (table : ℕ) : Option ℕ := tableEnd m table ((2 ^ 32 - table) / 4 - 1) 1

/-- The initrd from the command line, with what the checks of its image say. -/
def startWithRamdisk (hdr : ImageHeader) (addr : ℕ) :
    Except Failure ImageHeader → List Event × Outcome
  | .error _ => ([], .reset)
  | .ok rd =>
    if rd.ihOs ≠ ihOsLinux ∨ rd.ihArch ≠ ihCpuMips ∨ rd.ihType ≠ ihTypeRamdisk then ([], .reset)
    else ([.linux hdr.ihEp (some (addr + imageHeaderSize, rd.ihSize))], .done)

/-- `do_bootm_linux` of `lib_mips`, with the header that `do_bootm` has read. -/
def doBootmLinux (m : Mem) (hdr : ImageHeader) (table : ℕ) (args : Args) : List Event × Outcome :=
  match args.arg2 with
  | some addr => startWithRamdisk hdr addr (checkImage m addr args.verify)
  | none =>
    if hdr.ihType = ihTypeMulti ∧ lenPtr m table 1 ≠ 0 then
      match tableWords m table with
      | none => ([], .endless)
      | some n =>
        let tail := lenPtr m table 0 % 4
        let data := table + 8 + 4 * (n - 1) + lenPtr m table 0 + (if tail ≠ 0 then 4 - tail else 0)
        let data := data % 2 ^ 32
        ([.linux hdr.ihEp (if data ≠ 0 then some (data, lenPtr m table 1) else none)], .done)
    else ([.linux hdr.ihEp none], .done)

/-- The image to load: its place and its length, from the header or from the table. -/
def kernelImage (m : Mem) (hdr : ImageHeader) (table : ℕ) : Option (ℕ × ℕ) :=
  if hdr.ihType = ihTypeMulti then
    (tableWords m table).map fun n ↦ (table + 8 + 4 * (n - 1), lenPtr m table 0)
  else some (table, hdr.ihSize)

/-- What `do_bootm` starts behind the loaded image. -/
def startImage (m : Mem) (hdr : ImageHeader) (table : ℕ) (args : Args) : List Event × Outcome :=
  if hdr.ihType = ihTypeStandalone then
    (if args.autostart then [.standalone hdr.ihEp] else [], .done)
  else if hdr.ihOs ∈ [ihOsNetbsd, ihOsRtems, ihOsVxworks, ihOsQnx] then ([.otherOs hdr.ihOs], .done)
  else doBootmLinux m hdr table args

/-- The `switch` over `ih_comp`: what is done, and the memory after it or `none` for the failed
decoding. Without `CONFIG_BZIP2` only these two are known. -/
def loadImage (lzma : List UInt8 → Option (List UInt8)) (m : Mem) (hdr : ImageHeader)
    (addr data len load : ℕ) : Except Failure (List Event × Option Mem) :=
  if hdr.ihComp = ihCompNone then
    if load = addr then .ok ([], some m)
    else .ok ([.copy data len load], some (store m load (bytes m data len)))
  else if hdr.ihComp = ihCompLzma then
    .ok ([.lzmaDecode data len load], (lzma (bytes m data len)).map (store m load))
  else .error .unimplementedCompression

/-- The address that the image is loaded to. A standalone program can get another one. -/
def loadAddress (hdr : ImageHeader) (args : Args) : ℕ :=
  if hdr.ihType = ihTypeStandalone then args.arg2.getD hdr.ihLoad else hdr.ihLoad

/-- `do_bootm` behind the `switch` over `ih_type`, with the place and the length of the image. -/
def loadAndStart (lzma : List UInt8 → Option (List UInt8)) (m : Mem) (hdr : ImageHeader)
    (args : Args) (data len : ℕ) : List Event × Outcome :=
  match loadImage lzma m hdr args.addr data len (loadAddress hdr args) with
  | .error f => ([], .failed f)
  | .ok (done, none) => (done, .reset)
  | .ok (done, some m') =>
    let (started, outcome) := startImage m' hdr (args.addr + imageHeaderSize) args
    (done ++ started, outcome)

/-- `do_bootm` with what the checks of the image say. -/
def bootChecked (lzma : List UInt8 → Option (List UInt8)) (m : Mem) (args : Args) :
    Except Failure ImageHeader → List Event × Outcome
  | .error f => ([], .failed f)
  | .ok hdr =>
    if hdr.ihArch ≠ ihCpuMips then ([], .failed .unsupportedArchitecture)
    else if hdr.ihType ∉ [ihTypeStandalone, ihTypeKernel, ihTypeMulti] then
      ([], .failed .wrongImageType)
    else match kernelImage m hdr (args.addr + imageHeaderSize) with
      | none => ([], .endless)
      | some (data, len) => loadAndStart lzma m hdr args data len

/-- `do_bootm`, where `lzma` is what `lzma_decode` makes of its input. -/
def doBootm (lzma : List UInt8 → Option (List UInt8)) (m : Mem) (args : Args) :
    List Event × Outcome :=
  bootChecked lzma m args (checkImage m args.addr args.verify)

end UBoot.Common.CmdBootm
