import UBoot.LibGeneric.Vsprintf

namespace UBoot.Common.CmdJffs2

open Lib.CString LibGeneric.Vsprintf

def sizeRemaining : ℕ := 0xffffffff

def offsetNotSpecified : ℕ := 0xffffffff

def minPartSize : ℕ := 4096

def mtdWriteableCmd : ℕ := 1

inductive DevType
  | nor
  | nand
deriving DecidableEq

/-- `struct mtdids`. -/
structure MtdId where
  type : DevType
  num : ℕ
  size : ℕ
  mtdId : CStr
  size_lt : size < 4294967296
  nulFree : NulFree mtdId
deriving DecidableEq

/-- `struct part_info`. -/
structure PartInfo where
  name : CStr
  autoName : Bool
  size : ℕ
  offset : ℕ
  maskFlags : ℕ
deriving DecidableEq

/-- `struct mtd_device`. -/
structure Device where
  id : MtdId
  parts : List PartInfo
deriving DecidableEq

/-- `num_parts`, which counts the partitions in 16 bits. -/
def Device.numParts (dev : Device) : UInt16 := UInt16.ofNat dev.parts.length

theorem Device.numParts_toNat (dev : Device) : dev.numParts.toNat = dev.parts.length % 65536 :=
  UInt16.toNat_ofNat'

structure FlashInfo where
  start : List ℕ
  size : ℕ

/-- `flash_info`, and the erase sizes of `nand_info` where there is support for NAND. -/
structure Hardware where
  flashInfo : ℕ → FlashInfo
  erasesize : Option (ℕ → ℕ)

/-- How often a suffix shifts a number by 10 bits. -/
def suffixShifts (c : UInt8) : ℕ :=
  if c = 0x47 ∨ c = 0x67 then 3
  else if c = 0x4d ∨ c = 0x6d then 2
  else if c = 0x4b ∨ c = 0x6b then 1
  else 0

def memsizeParse (ptr : CStr) : ℕ × CStr :=
  let r := simpleStrtoul ptr 0
  let shifts := suffixShifts (first r.2)
  (r.1.toNat * 1024 ^ shifts % 4294967296, if shifts = 0 then r.2 else r.2.drop 1)

def memsizeFormat (size : ℕ) : CStr :=
  if size % 1073741824 = 0 then numberDec (size / 1073741824) ++ [0x67]
  else if size % 1048576 = 0 then numberDec (size / 1048576) ++ [0x6d]
  else if size % 1024 = 0 then numberDec (size / 1024) ++ [0x6b]
  else numberDec size

/-- Whether a sector of the flash starts at this offset. -/
def FlashInfo.startsAt (flash : FlashInfo) (offset : ℕ) : Bool :=
  flash.start.any fun s ↦ (s + 4294967296 - flash.start.headD 0) % 4294967296 == offset

def partValidateNor (hw : Hardware) (id : MtdId) (part : PartInfo) : Bool :=
  let flash := hw.flashInfo id.num
  let endOffset := (part.offset + part.size) % 4294967296
  flash.startsAt part.offset && (flash.startsAt endOffset || flash.size == endOffset)

def partValidateNand (hw : Hardware) (id : MtdId) (part : PartInfo) : Bool :=
  match hw.erasesize with
  | none => false
  | some erasesize => part.offset % erasesize id.num == 0 && part.size % erasesize id.num == 0

def partAligned (hw : Hardware) (id : MtdId) (part : PartInfo) : Bool :=
  match id.type with
  | .nand => partValidateNand hw id part
  | .nor => partValidateNor hw id part

/-- `part->size` when the rest of the device is meant. -/
def resolveSize (id : MtdId) (part : PartInfo) : PartInfo :=
  if part.size = sizeRemaining then
    { part with size := (id.size + 4294967296 - part.offset) % 4294967296 }
  else part

/-- The partition as it is when it is valid. -/
def partValidate (hw : Hardware) (id : MtdId) (part : PartInfo) : Option PartInfo :=
  let part := resolveSize id part
  if id.size < part.offset then none
  else if (part.offset + part.size) % 4294967296 ≤ part.offset then none
  else if id.size < (part.offset + part.size) % 4294967296 then none
  else if partAligned hw id part then some part
  else none

/-- The partitions are sorted by offset, with the new one in front of its equals. -/
def partSortAdd (new : PartInfo) : List PartInfo → Option (List PartInfo)
  | [] => some [new]
  | pi :: parts =>
    if new.offset = pi.offset ∧ pi.offset = 0 then none
    else if new.offset ≤ pi.offset then some (new :: pi :: parts)
    else (partSortAdd new parts).map (pi :: ·)

def partAdd (hw : Hardware) (dev : Device) (part : PartInfo) : Option Device := do
  let part ← partValidate hw dev.id part
  let parts ← partSortAdd part dev.parts
  return { dev with parts := parts }

/-- The name of a partition and what is behind it; no name is `none`. -/
def nameParse (p : CStr) : Option (Option CStr × CStr) :=
  if first p = 0x28 then
    let name := (p.drop 1).takeWhile (· ≠ 0x29)
    let p := (p.drop 1).dropWhile (· ≠ 0x29)
    if p = [] then none
    else if name = [] then none
    else some (some name, p.drop 1)
  else some (none, p)

/-- The end of a partition definition. -/
def partEnd (size : ℕ) (p : CStr) : Option CStr :=
  if first p = 0x2c then if size = sizeRemaining then none else some (p.drop 1)
  else if first p = 0x3b ∨ first p = 0 then some p
  else none

/-- The size at the start of a partition definition. -/
def sizeParse (p : CStr) : Option (ℕ × CStr) :=
  if first p = 0x2d then some (sizeRemaining, p.drop 1)
  else
    let r := memsizeParse p
    if r.1 < minPartSize then none else some r

def offsetParse (p : CStr) : ℕ × CStr :=
  if first p = 0x40 then memsizeParse (p.drop 1) else (offsetNotSpecified, p)

def maskFlagsParse (p : CStr) : ℕ × CStr :=
  if hasPrefix p (ascii "ro") then (mtdWriteableCmd, p.drop 2) else (0, p)

def autoNameOf (size offset : ℕ) : CStr :=
  ascii "0x" ++ numberHexSmall 8 size ++ ascii "@0x" ++ numberHexSmall 8 offset

def partParse (partdef : CStr) : Option (PartInfo × CStr) := do
  let (size, p) ← sizeParse partdef
  let (offset, p) := offsetParse p
  let (name, p) ← nameParse p
  let (maskFlags, p) := maskFlagsParse p
  let p ← partEnd size p
  return (⟨name.getD (autoNameOf size offset), name.isNone, size, offset, maskFlags⟩, p)

/-- `part->offset`, or the end of the partition in front. -/
def resolveOffset (offset : ℕ) (part : PartInfo) : PartInfo :=
  if part.offset = offsetNotSpecified then { part with offset := offset } else part

/-- The loop over the partitions of a device. -/
def partsParse (hw : Hardware) (id : MtdId) : ℕ → ℕ → CStr → Option (List PartInfo × CStr)
  | 0, _, _ => none
  | fuel + 1, offset, p =>
    if first p = 0 ∨ first p = 0x3b then some ([], p)
    else do
      let (part, p) ← partParse p
      let part ← partValidate hw id (resolveOffset offset part)
      let (parts, p) ← partsParse hw id fuel ((part.offset + part.size) % 4294967296) p
      return (part :: parts, p)

def idFindByMtdId (ids : List MtdId) (mtdId : CStr) : Option MtdId := ids.find? (·.mtdId == mtdId)

def deviceFind (devices : List Device) (type : DevType) (num : ℕ) : Option Device :=
  devices.find? fun dev ↦ dev.id.type == type && dev.id.num == num

/-- The end of the last partition of a device that is already there. -/
def startOffset (devices : List Device) (id : MtdId) : ℕ :=
  match (deviceFind devices id.type id.num).bind (·.parts.getLast?) with
  | none => 0
  | some part => (part.offset + part.size) % 4294967296

/-- Move the partitions to `dev->parts`. -/
def sortParts (parts : List PartInfo) : Option (List PartInfo) :=
  parts.foldlM (fun sorted part ↦ partSortAdd part sorted) []

def deviceParse (hw : Hardware) (ids : List MtdId) (devices : List Device) (mtdDev : CStr) :
    Option (Device × CStr) := do
  let p := mtdDev.dropWhile (· ≠ 0x3a)
  if p = [] then none
  else
    let id ← idFindByMtdId ids (mtdDev.takeWhile (· ≠ 0x3a))
    let (parts, p) ← partsParse hw id (p.length + 1) (startOffset devices id) (p.drop 1)
    if parts = [] then none
    else
      let sorted ← sortParts parts
      return (⟨id, sorted⟩, if first p = 0x3b then p.drop 1 else p)

/-- The loop over the devices. -/
def devicesParse (hw : Hardware) (ids : List MtdId) : ℕ → List Device → CStr → Option (List Device)
  | 0, _, _ => none
  | fuel + 1, devices, p =>
    if first p = 0 then some devices
    else do
      let (dev, p) ← deviceParse hw ids devices p
      if (deviceFind devices dev.id.type dev.id.num).isSome then none
      else devicesParse hw ids fuel (devices ++ [dev]) p

/-- The devices that `parse_mtdparts` leaves when it succeeds. -/
def parseMtdparts (hw : Hardware) (ids : List MtdId) (mtdparts : CStr) : Option (List Device) :=
  if hasPrefix mtdparts (ascii "mtdparts=") then
    let p := mtdparts.drop 9
    if first p = 0 then none else devicesParse hw ids (p.length + 1) [] p
  else none

/-- The text so far and `maxlen`. -/
abbrev Buffer := CStr × ℕ

def emit (chunk : CStr) (buf : Buffer) : Option Buffer :=
  if buf.2 < chunk.length then none else some (buf.1 ++ chunk, buf.2 - chunk.length)

/-- The offset of a partition, when there is a gap in front of it. -/
def offsetText (prev : Option PartInfo) (part : PartInfo) : CStr :=
  let expected := match prev with
    | none => 0
    | some prev => (prev.offset + prev.size) % 4294967296
  if part.offset = expected then [] else 0x40 :: memsizeFormat part.offset

def nameText (part : PartInfo) : CStr := if part.autoName then [] else 0x28 :: (part.name ++ [0x29])

def maskFlagsText (part : PartInfo) : CStr := if part.maskFlags = 0 then [] else ascii "ro"

def generateParts (prev : Option PartInfo) : List PartInfo → Buffer → Option Buffer
  | [], buf => some buf
  | part :: parts, buf => do
    let buf ← emit (memsizeFormat part.size) buf
    let buf ← emit (offsetText prev part) buf
    let buf ← emit (nameText part) buf
    let buf ← emit (maskFlagsText part) buf
    let buf ← emit (if parts = [] then [] else [0x2c]) buf
    generateParts (some part) parts buf

def generateDevices : List Device → Buffer → Option Buffer
  | [], buf => some buf
  | dev :: devices, buf => do
    let buf ← emit (dev.id.mtdId ++ [0x3a]) buf
    let buf ← generateParts none dev.parts buf
    let buf ← emit (if devices = [] then [] else [0x3b]) buf
    generateDevices devices buf

/-- The text for the variable. The room for `mtdparts=` is not counted. -/
def generateMtdparts (devices : List Device) (buflen : ℕ) : Option CStr :=
  if devices = [] then some []
  else (generateDevices devices (ascii "mtdparts=", buflen - 1)).map Prod.fst

def partAddDescMaxlen : ℕ := 64

def idFind (ids : List MtdId) (type : DevType) (num : ℕ) : Option MtdId :=
  ids.find? fun id ↦ id.type == type && id.num == num

/-- The description for `mtdparts add`. -/
def addDesc (id : MtdId) (sizeOffset name : CStr) (ro : Option CStr) : CStr :=
  id.mtdId ++ 0x3a :: (sizeOffset ++ 0x28 :: (name ++ 0x29 :: ro.getD []))

/-- The devices with a new one in their list. -/
def deviceMerge (hw : Hardware) (devices : List Device) (dev : Device) : Option (List Device) :=
  match devices.findIdx? fun d ↦ d.id.type == dev.id.type && d.id.num == dev.id.num with
  | none => some (devices ++ [dev])
  | some k => do
    -- only the first partition is merged
    let devTmp ← devices[k]?
    let part ← dev.parts.head?
    let devTmp ← partAdd hw devTmp part
    return devices.set k devTmp

/-- `mtdparts add`. A description that does not fit is rejected or, when the 8-bit length wraps, goes
beyond `tmpbuf`; the store of `device_parse` through the null pointer `ret` is left out. -/
def mtdpartsAdd (hw : Hardware) (ids : List MtdId) (devices : List Device) (type : DevType) (num : ℕ)
    (sizeOffset name : CStr) (ro : Option CStr) : Option (List Device) := do
  let id ← idFind ids type num
  let desc := addDesc id sizeOffset name ro
  if partAddDescMaxlen ≤ desc.length then none
  else
    let (dev, _) ← deviceParse hw ids devices desc
    deviceMerge hw devices dev

/-- `part_del` for the partition `pnum` of the device `k`. -/
def partDel (devices : List Device) (k pnum : ℕ) : Option (List Device) := do
  let dev ← devices[k]?
  if pnum < dev.parts.length then
    if dev.parts.length = 1 then return devices.eraseIdx k
    else return devices.set k { dev with parts := dev.parts.eraseIdx pnum }
  else none

end UBoot.Common.CmdJffs2
