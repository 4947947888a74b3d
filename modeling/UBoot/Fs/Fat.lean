import UBoot.Lib.CString
import UBoot.Lib.Memory

namespace UBoot.Fs.Fat

open Lib.CString Lib.Memory

def sectorSize : ℕ := 512

/-- The sectors, and so the bytes and the entries, in the buffer for the FAT. -/
def fatBufBlocks : ℕ := 6

def fatBufSize : ℕ := sectorSize * fatBufBlocks

def fat12BufSize : ℕ := fatBufSize * 2 / 3

def fat16BufSize : ℕ := fatBufSize / 2

def fat32BufSize : ℕ := fatBufSize / 4

def le16 (m : Mem) (off : ℕ) : ℕ := (m off).toNat + 256 * (m (off + 1)).toNat

def le32 (m : Mem) (off : ℕ) : ℕ := le16 m off + 65536 * le16 m (off + 2)

/-- `cur_dev` and `part_offset`. -/
structure Dev where
  disk : Mem
  partOffset : UInt32

def diskRead (dev : Dev) (startblock getsize : ℕ) : List UInt8 :=
  bytes dev.disk (sectorSize * ((startblock + dev.partOffset.toNat) % 4294967296)) (sectorSize * getsize)

/-- The fields of `boot_sector` that the reader of files depends on. -/
structure BootSector where
  clusterSize : UInt8
  reserved : UInt16
  fats : UInt8
  dirEntries : UInt8 × UInt8
  fatLength : UInt16
  fat32Length : UInt32
deriving DecidableEq

/-- The boot sector and the size of the entries of the FAT. -/
def readBootsectandvi (dev : Dev) : Option (BootSector × ℕ) :=
  let block := store (fun _ ↦ 0) 0 (diskRead dev 0 1)
  let bs : BootSector :=
    { clusterSize := block 13
      reserved := UInt16.ofNat (le16 block 14)
      fats := block 16
      dirEntries := (block 17, block 18)
      fatLength := UInt16.ofNat (le16 block 22)
      fat32Length := UInt32.ofNat (le32 block 36) }
  if bs.fatLength = 0 then
    if bytes block 82 8 = ascii "FAT32   " then some (bs, 32) else none
  else if bytes block 54 8 = ascii "FAT12   " then some (bs, 12)
  else if bytes block 54 8 = ascii "FAT16   " then some (bs, 16)
  else none

/-- `fsdata`. -/
structure FsData where
  fatsize : ℕ
  fatlength : UInt16
  fatSect : UInt16
  rootdirSect : UInt16
  clustSize : UInt16
  dataBegin : Int16
  fatbuf : Mem
  fatbufnum : ℕ

/-- What `do_fat_read` makes of the boot sector; the buffer is not initialised. -/
def doFatRead (bs : BootSector) (fatsize : ℕ) (fatbuf : Mem) : FsData :=
  let fatlength := if fatsize = 32 then bs.fat32Length.toUInt16 else bs.fatLength
  let rootdirSect := UInt16.ofNat (bs.reserved.toNat + fatlength.toNat * bs.fats.toNat)
  let clustSize := bs.clusterSize.toUInt16
  let rootdirSize := (bs.dirEntries.2.toNat * 256 + bs.dirEntries.1.toNat) * 32 / sectorSize
  { fatsize := fatsize
    fatlength := fatlength
    fatSect := bs.reserved
    rootdirSect := rootdirSect
    clustSize := clustSize
    dataBegin :=
      if fatsize = 32 then Int16.ofInt (rootdirSect.toNat - clustSize.toNat * 2)
      else Int16.ofInt (rootdirSect.toNat + rootdirSize - clustSize.toNat * 2)
    fatbuf := fatbuf
    fatbufnum := 0xffffffff }

/-- The entry of a FAT12 at `offset`, from the 16-bit words of the buffer. -/
def fat12Entry (fatbuf : Mem) (offset : ℕ) : ℕ :=
  let off16 := offset * 3 / 4
  let word := fun i ↦ le16 fatbuf (2 * i)
  if offset % 4 = 0 then word off16 &&& 0xfff
  else if offset % 4 = 1 then (word (off16 + 1) &&& 0x00ff) <<< 4 ||| (word off16 &&& 0xf000) >>> 12
  else if offset % 4 = 2 then (word (off16 + 1) &&& 0x000f) <<< 8 ||| (word off16 &&& 0xff00) >>> 8
  else (word off16 &&& 0xfff0) >>> 4

/-- The number of entries in the buffer, and the entry at an offset in it. -/
def fatFormat : ℕ → Option (ℕ × (Mem → ℕ → ℕ))
  | 32 => some (fat32BufSize, fun fatbuf offset ↦ le32 fatbuf (4 * offset))
  | 16 => some (fat16BufSize, fun fatbuf offset ↦ le16 fatbuf (2 * offset))
  | 12 => some (fat12BufSize, fat12Entry)
  | _ => none

/-- The entry, and the data with the part of the FAT that holds it. -/
def getFatent (dev : Dev) (mydata : FsData) (entry : ℕ) : ℕ × FsData :=
  match fatFormat mydata.fatsize with
  | none => (0, mydata)
  | some (bufsize, entryAt) =>
    let bufnum := entry / bufsize
    let offset := entry - bufnum * bufsize
    if bufnum ≠ mydata.fatbufnum then
      let fatlength := mydata.fatlength.toNat * sectorSize
      let startblock := bufnum * fatBufBlocks + mydata.fatSect.toNat
      let getsize := if fatBufBlocks > fatlength then fatlength else fatBufBlocks
      let fatbuf := store mydata.fatbuf 0 (diskRead dev startblock getsize)
      (entryAt fatbuf offset, { mydata with fatbuf := fatbuf, fatbufnum := bufnum })
    else (entryAt mydata.fatbuf offset, mydata)

/-- The sector that `get_cluster` starts at. -/
def startsect (mydata : FsData) (clustnum : ℕ) : ℕ :=
  if 0 < clustnum then
    ((mydata.dataBegin.toInt + clustnum * mydata.clustSize.toNat) % 4294967296).toNat
  else mydata.rootdirSect.toNat

/-- `size` bytes of a cluster and the sectors behind it, for `buffer + pos`. -/
def getCluster (dev : Dev) (mydata : FsData) (clustnum : ℕ) (buffer : Mem) (pos size : ℕ) : Mem :=
  let idx := size / sectorSize
  let buffer := store buffer pos (diskRead dev (startsect mydata clustnum) idx)
  if size % sectorSize ≠ 0 then
    let tmpbuf := diskRead dev ((startsect mydata clustnum + idx) % 4294967296) 1
    store buffer (pos + idx * sectorSize) (tmpbuf.take (size % sectorSize))
  else buffer

/-- The fields of `dir_entry` for the contents. -/
structure DirEntry where
  starthi : UInt16
  start : UInt16
  size : UInt32

def DirEntry.START (dent : DirEntry) (fatsize : ℕ) : ℕ :=
  dent.start.toNat + if fatsize ≠ 32 then 0 else dent.starthi.toNat * 65536

/-- The variables of `get_contents`; `pos` is how far `buffer` has moved. -/
structure Reading where
  mydata : FsData
  filesize : ℕ
  gotsize : ℕ
  curclust : ℕ
  endclust : ℕ
  actsize : ℕ
  buffer : Mem
  pos : ℕ

def FsData.bytesperclust (mydata : FsData) : ℕ := mydata.clustSize.toNat * sectorSize

/-- A FAT entry that ends the reading. -/
def endsReading (newclust : ℕ) : Prop := newclust ≤ 0x0001 ∨ 0xfff0 ≤ newclust

instance (newclust : ℕ) : Decidable (endsReading newclust) := inferInstanceAs (Decidable (_ ∨ _))

/-- The size that is returned and the memory, after at most the given number of rounds. -/
def getContentsLoop (dev : Dev) : ℕ → Reading → Option (ℕ × Mem)
  | 0, _ => none
  | n + 1, r =>
    if r.actsize < r.filesize then
      let (newclust, mydata) := getFatent dev r.mydata r.endclust
      if (newclust + 4294967295) % 4294967296 ≠ r.endclust then
        -- `getit`
        let buffer := getCluster dev mydata r.curclust r.buffer r.pos r.actsize
        let gotsize := (r.gotsize + r.actsize) % 4294967296
        let (curclust, mydata) := getFatent dev mydata r.endclust
        if endsReading curclust then some (gotsize, buffer)
        else
          getContentsLoop dev n
            { mydata := mydata
              filesize := r.filesize - r.actsize
              gotsize := gotsize
              curclust := curclust
              endclust := curclust
              actsize := mydata.bytesperclust
              buffer := buffer
              pos := r.pos + r.actsize }
      else if endsReading newclust then some (r.gotsize, r.buffer)
      else
        getContentsLoop dev n
          { r with
            mydata := mydata
            endclust := newclust
            actsize := (r.actsize + mydata.bytesperclust) % 4294967296 }
    else
      let actsize := (r.actsize + 4294967296 - r.mydata.bytesperclust) % 4294967296
      let buffer := getCluster dev r.mydata r.curclust r.buffer r.pos actsize
      let filesize := (r.filesize + 4294967296 - actsize) % 4294967296
      let buffer := getCluster dev r.mydata r.endclust buffer (r.pos + actsize) filesize
      some ((r.gotsize + actsize + filesize) % 4294967296, buffer)

/-- The size of what is to be read. -/
def limited (dent : DirEntry) (maxsize : UInt32) : ℕ :=
  if 0 < maxsize.toNat ∧ maxsize.toNat < dent.size.toNat then maxsize.toNat else dent.size.toNat

def getContents (dev : Dev) (n : ℕ) (mydata : FsData) (dent : DirEntry) (buffer : Mem)
    (maxsize : UInt32) : Option (ℕ × Mem) :=
  getContentsLoop dev n
    { mydata := mydata
      filesize := limited dent maxsize
      gotsize := 0
      curclust := dent.START mydata.fatsize
      endclust := dent.START mydata.fatsize
      actsize := mydata.bytesperclust
      buffer := buffer
      pos := 0 }

end UBoot.Fs.Fat
