import UBoot.Fs.Fat
import UBoot.Lib.StateValue

namespace UBoot.Fs.FatLookup

open Lib.CString (CStr)
open Lib.Memory Lib.Loop Fat

def maxClustsize : ℕ := 65536

/-- The bytes of a `dir_entry` and of a `dir_slot`. -/
def direntSize : ℕ := 32

def direntsPerBlock : ℕ := sectorSize / direntSize

/-- A run without a result has left an array, or its rounds are used up. -/
inductive Stop where
  | outside
  | rounds
  deriving DecidableEq

/-- A device with its number of sectors. -/
structure Disk where
  dev : Dev
  lba : UInt32

/-- A read beyond the end of the device fails, and transfers nothing. -/
def diskRead (d : Disk) (startblock getsize : ℕ) : Option (List UInt8) :=
  let first := (startblock + d.dev.partOffset.toNat) % 4294967296
  if first < d.lba.toNat ∧ first + getsize ≤ d.lba.toNat then
    some (Fat.diskRead d.dev startblock getsize)
  else none

def readBootsectandvi (d : Disk) : Option (BootSector × ℕ) :=
  (diskRead d 0 1).bind fun _ ↦ Fat.readBootsectandvi d.dev

/-- The fields of `fsdata` that change, and `get_vfatname_block`. -/
structure Buffers where
  fatbuf : Mem
  fatbufnum : ℕ
  vfatname : Mem

abbrev M := StateT Buffers (Except Stop)

/-- The attributes of a directory entry, and its fields for the contents. -/
structure Dent where
  attr : UInt8
  entry : DirEntry

def Dent.isDir (dent : Dent) : Bool := dent.attr &&& 16 ≠ 0

section Block

variable (block : Mem) (i : ℕ)

/-- `dentptr->name[0]` and `slotptr->id`. -/
def slotId : UInt8 := block (direntSize * i)

def attr : UInt8 := block (direntSize * i + 11)

def dentAt : Dent :=
  { attr := attr block i
    entry :=
      { starthi := UInt16.ofNat (le16 block (direntSize * i + 20))
        start := UInt16.ofNat (le16 block (direntSize * i + 26))
        size := UInt32.ofNat (le32 block (direntSize * i + 28)) } }

/-- An entry with `ATTR_VOLUME`. -/
def isVolume : Bool := attr block i &&& 8 ≠ 0

/-- The last slot of a long name, which comes first. -/
def isLong : Bool := attr block i &&& 0xf ≠ 0 ∧ slotId block i &&& 0x40 ≠ 0

/-- The low bytes of the characters in a slot. -/
def slotChars : List UInt8 :=
  [1, 3, 5, 7, 9, 14, 16, 18, 20, 22, 24, 28, 30].map fun k ↦ block (direntSize * i + k)

end Block

/-- `TOLOWER`. -/
def toLower (c : UInt8) : UInt8 := if 0x41 ≤ c ∧ c ≤ 0x5a then c + 0x20 else c

def downcase (s : CStr) : CStr := s.map toLower

/-- The first byte may stand for a deleted entry or for another character. -/
def shown : CStr → CStr
  | [] => []
  | c :: s => if c = 0xe5 then [] else downcase ((if c = 0x05 then 0xe5 else c) :: s)

/-- Up to the first NUL or blank. -/
def unpadded (l : List UInt8) : CStr := l.takeWhile fun c ↦ c ≠ 0 ∧ c ≠ 0x20

def getName (block : Mem) (i : ℕ) : CStr :=
  let name := unpadded (bytes block (direntSize * i) 8)
  let ext := unpadded (bytes block (direntSize * i + 8) 3)
  shown (if ext = [] then name else name ++ 0x2e :: ext)

/-- `slot2str`, from `l_name` up to `*idx` on: whether there is a NUL, and `l_name` after it. -/
def slot2str : List UInt8 → CStr → Except Stop (Bool × CStr)
  | [], l_name => .ok (false, l_name)
  | c :: chars, l_name =>
    if l_name.length < 256 then
      if c = 0 then .ok (true, l_name) else slot2str chars (l_name ++ [c])
    else .error .outside

/-- The first loop of `get_vfatname`: the place of `slotptr` after it, when the numbers are right. -/
def matchSlots (cluster : Mem) (entries : ℕ) : ℕ → ℕ → Option ℕ
  | 0, i => some i
  | counter + 1, i =>
    if i < entries then
      if (slotId cluster i &&& ~~~0x40).toNat = counter + 1 then
        matchSlots cluster entries counter (i + 1)
      else none
    else some i

/-- The place of `slotptr2` in `get_vfatname_block`. -/
def lastSlot (block : Mem) : Option ℕ :=
  (List.range (maxClustsize / direntSize)).find? fun j ↦ slotId block j ≤ 1

/-- The slots of `get_vfatname_block` from one on down. -/
def nextSlots (block : Mem) : ℕ → CStr → Except Stop CStr
  | 0, l_name => .ok l_name
  | k + 1, l_name => do
    let (_, l_name) ← slot2str (slotChars block k) l_name
    nextSlots block k l_name

/-- The slots in front of `slotptr`, up to one with `LAST_LONG_ENTRY_MASK` or a NUL. -/
def ownSlots (cluster : Mem) : ℕ → CStr → Except Stop CStr
  | 0, _ => .error .outside
  | k + 1, l_name => do
    let (nul, l_name) ← slot2str (slotChars cluster k) l_name
    if nul ∨ slotId cluster k &&& 0x40 ≠ 0 then .ok l_name else ownSlots cluster k l_name

/-- The end of `get_vfatname`: the block with `realdent` in place `i`, and the name. -/
def finishName (cluster : Mem) (i k : ℕ) (realdent : List UInt8) (l_name : CStr) :
    Except Stop (Mem × CStr) := do
  let l_name ← ownSlots cluster k l_name
  if l_name.length < 256 then .ok (store cluster (direntSize * i) realdent, shown l_name)
  else .error .outside

/-- A name that goes on in the next cluster. -/
def splitName (cluster : Mem) (i k : ℕ) (block : Mem) : Except Stop (Mem × CStr) :=
  match lastSlot block with
  | none => .error .outside
  | some j =>
    if j + 1 < maxClustsize / direntSize then do
      let l_name ← nextSlots block (j + 1) []
      finishName cluster i (k - 1) (bytes block (direntSize * (j + 1)) direntSize) l_name
    else .error .outside

/-- What an entry does to the search. -/
inductive Scan where
  | goOn (block : Mem)
  | ended
  | found (dent : Dent)

/-- The entries from `i` on, at most the given number. -/
def scan (body : ℕ → Mem → M Scan) : ℕ → ℕ → Mem → M Scan
  | 0, _, block => pure (.goOn block)
  | n + 1, i, block => do
    match ← body i block with
    | .goOn block => scan body n (i + 1) block
    | .ended => pure .ended
    | .found dent => pure (.found dent)

/-- The comparison of names. -/
def compareName (filename : CStr) (block : Mem) (i : ℕ) (l_name : CStr) : Scan :=
  if filename ≠ getName block i ∧ filename ≠ l_name then .goOn block else .found (dentAt block i)

section Volume

variable (d : Disk) (mydata : FsData)

def getFatent (entry : UInt32) : M UInt32 := fun s ↦
  match fatFormat mydata.fatsize with
  | none => .ok (0, s)
  | some (bufsize, entryAt) =>
    let bufnum := entry.toNat / bufsize
    let offset := entry.toNat - bufnum * bufsize
    if bufnum ≠ s.fatbufnum then
      let fatlength := mydata.fatlength.toNat * sectorSize
      let startblock := bufnum * fatBufBlocks + mydata.fatSect.toNat
      let getsize := if fatBufBlocks > fatlength then fatlength else fatBufBlocks
      match diskRead d startblock getsize with
      | none => .ok (0, s)
      | some sectors =>
        let fatbuf := store s.fatbuf 0 sectors
        .ok (UInt32.ofNat (entryAt fatbuf offset), { s with fatbuf := fatbuf, fatbufnum := bufnum })
    else .ok (UInt32.ofNat (entryAt s.fatbuf offset), s)

/-- Whether the reads succeed, and the buffer. -/
def getCluster (clustnum : UInt32) (buffer : Mem) (pos size : ℕ) : Bool × Mem :=
  let startsect := startsect mydata clustnum.toNat
  let idx := size / sectorSize
  match diskRead d startsect idx with
  | none => (false, buffer)
  | some sectors =>
    let buffer := store buffer pos sectors
    if size % sectorSize ≠ 0 then
      match diskRead d ((startsect + idx) % 4294967296) 1 with
      | none => (false, buffer)
      | some tmpbuf => (true, store buffer (pos + idx * sectorSize) (tmpbuf.take (size % sectorSize)))
    else (true, buffer)

/-- A cluster for an array of `MAX_CLUSTSIZE` bytes, unless it cannot be read. -/
def getBlock (clustnum : UInt32) (block : Mem) : Except Stop (Option Mem) :=
  match getCluster d mydata clustnum block 0 mydata.bytesperclust with
  | (false, _) => .ok none
  | (true, block) => if mydata.bytesperclust ≤ maxClustsize then .ok (some block) else .error .outside

def direntsPerClust : ℕ := mydata.bytesperclust / direntSize

/-- `get_cluster` for `get_vfatname_block`. -/
def getVfatnameBlock (clustnum : UInt32) : M (Option Mem) := fun s ↦
  match getBlock d mydata clustnum s.vfatname with
  | .error e => .error e
  | .ok none => .ok (none, s)
  | .ok (some block) => .ok (some block, { s with vfatname := block })

/-- The block behind a cluster, unless there is none. -/
def getNext (curclust : UInt32) : M (Option Mem) := do
  let curclust ← getFatent d mydata curclust
  if endsReading curclust.toNat then pure none else getVfatnameBlock d mydata curclust

def getVfatname (curclust : UInt32) (cluster : Mem) (i : ℕ) : M (Option (Mem × CStr)) :=
  match matchSlots cluster (direntsPerClust mydata) (slotId cluster i &&& ~~~0x40).toNat i with
  | none => pure none
  | some k =>
    if direntsPerClust mydata ≤ k then do
      match ← getNext d mydata curclust with
      | none => pure none
      | some block => liftM ((splitName cluster i k block).map some)
    else liftM ((finishName cluster i k (bytes cluster (direntSize * k) direntSize) []).map some)

/-- The block and the name after a long name; without one they are as before. -/
def longName (curclust : UInt32) (block : Mem) (i : ℕ) : M (Mem × CStr) := do
  let r ← getVfatname d mydata curclust block i
  pure (r.getD (block, []))

section Dir

variable (filename : CStr) (dols : ℤ) (curclust : UInt32)

/-- The entry behind the slots, or one without slots. -/
def dirName (block : Mem) (i : ℕ) (l_name : CStr) : Scan :=
  if slotId block i = 0 then .ended
  else if dols ≠ 0 then .goOn block
  else compareName filename block i l_name

/-- An entry in `get_dentfromdir`. What is printed is left out, with the checksums for it. -/
def dirEntry (i : ℕ) (block : Mem) : M Scan :=
  if slotId block i = 0xe5 then pure (.goOn block)
  else if isVolume block i then
    if isLong block i then do
      let (block, l_name) ← longName d mydata curclust block i
      if dols ≠ 0 then pure (.goOn block) else pure (dirName filename dols block i l_name)
    else pure (.goOn block)
  else pure (dirName filename dols block i [])

/-- The next cluster, or the entry. -/
def dirAfter : Scan → M (UInt32 ⊕ Option Dent)
  | .ended => pure (.inr none)
  | .found dent => pure (.inr (some dent))
  | .goOn _ => do
    let newclust ← getFatent d mydata curclust
    if endsReading newclust.toNat then pure (.inr none) else pure (.inl newclust)

/-- A round of `get_dentfromdir`. The block is read up to its entries only. -/
def dirRound : M (UInt32 ⊕ Option Dent) := do
  match ← liftM (getBlock d mydata curclust fun _ ↦ 0) with
  | none => pure (.inr none)
  | some block =>
    let r ← scan (dirEntry d mydata filename dols curclust) (direntsPerClust mydata) 0 block
    dirAfter d mydata curclust r

def getDentfromdir (n : ℕ) : M (Option Dent) :=
  loop (liftM (Except.error Stop.rounds : Except Stop (Option Dent)))
    (dirRound d mydata filename dols) n curclust

end Dir

section Root

variable (filename : CStr) (dols : ℤ)

def lsRoot : ℤ := 2

/-- An entry of the root directory that may have the name. -/
def rootName (block : Mem) (i : ℕ) (l_name : CStr) : Scan :=
  if dols = lsRoot then .goOn block else compareName filename block i l_name

/-- An entry of the root directory in `do_fat_read`. -/
def rootEntry (i : ℕ) (block : Mem) : M Scan :=
  if isVolume block i then
    if isLong block i then do
      let (block, l_name) ← longName d mydata 0 block i
      pure (rootName filename dols block i l_name)
    else pure (.goOn block)
  else if slotId block i = 0 then pure .ended
  else pure (rootName filename dols block i [])

/-- `do_fat_read_block` after a read, unless the read fails. -/
def readRoot (cursect : UInt32) (block : Mem) : Except Stop (Option Mem) :=
  match diskRead d cursect.toNat mydata.clustSize.toNat with
  | none => .ok none
  | some sectors =>
    if mydata.bytesperclust ≤ maxClustsize then .ok (some (store block 0 sectors)) else .error .outside

/-- The next sector, the entry, or the value of `do_fat_read`. -/
def rootAfter (cursect : UInt32) : Scan → UInt32 × Mem ⊕ Dent ⊕ ℤ
  | .ended => .inr (.inr (if dols = lsRoot then 0 else -1))
  | .found dent => .inr (.inl dent)
  | .goOn block => .inl (cursect + 1, block)

/-- A round over the sectors of the root directory. -/
def rootRound (p : UInt32 × Mem) : M (UInt32 × Mem ⊕ Dent ⊕ ℤ) := do
  match ← liftM (readRoot d mydata p.1 p.2) with
  | none => pure (.inr (.inr (-1)))
  | some block =>
    let r ← scan (rootEntry d mydata filename dols) direntsPerBlock 0 block
    pure (rootAfter dols p.1 r)

def searchRoot (n : ℕ) (block : Mem) : M (Dent ⊕ ℤ) :=
  loop (liftM (Except.error Stop.rounds : Except Stop (Dent ⊕ ℤ))) (rootRound d mydata filename dols) n
    (mydata.rootdirSect.toUInt32, block)

end Root

/-- `ISDIRDELIM`. -/
def isDirdelim (c : UInt8) : Bool := c = 0x2f ∨ c = 0x5c

/-- The part of a path up to its first delimiter. -/
def head (path : CStr) : CStr := path.takeWhile (! isDirdelim ·)

/-- The part behind the first delimiters. -/
def tail (path : CStr) : CStr :=
  ((path.dropWhile (! isDirdelim ·)).drop 1).dropWhile isDirdelim

def START (dent : Dent) : UInt32 := UInt32.ofNat (dent.entry.START mydata.fatsize)

/-- The variables of `while (isdir)`. -/
structure Look where
  subname : CStr
  firsttime : Bool
  dent : Dent

section Look

variable (dols : ℤ) (look : Look)

def Look.delim : Bool := look.subname.any isDirdelim

/-- `isdir` behind the test for a delimiter. -/
def Look.isdir : Bool := look.delim ∨ dols ≠ 0 ∧ look.firsttime

/-- The flag for the next round, after `dent` has been found. -/
def Look.next (dent : Dent) : Look :=
  if look.delim then
    { subname := tail look.subname
      firsttime := look.firsttime && ¬ (dols ≠ 0 ∧ tail look.subname = [])
      dent := dent }
  else { look with firsttime := look.firsttime && dols = 0, dent := dent }

/-- `dols` for `get_dentfromdir`. -/
def Look.ls : ℤ := if look.isdir dols then 0 else dols

/-- The end of a round. -/
def Look.after : Option Dent → Look ⊕ Dent ⊕ ℤ
  | none => .inr (.inr (if dols ≠ 0 ∧ ¬ look.isdir dols then 0 else -1))
  | some dent =>
    if look.delim ∧ ¬ dent.isDir then .inr (.inr (-1))
    else if look.isdir dols then .inl (look.next dols dent)
    else .inr (.inl dent)

def lookRound (n : ℕ) : M (Look ⊕ Dent ⊕ ℤ) := do
  let r ← getDentfromdir d mydata (head look.subname) (look.ls dols) (START mydata look.dent) n
  pure (look.after dols r)

def searchDirs (n : ℕ) : M (Dent ⊕ ℤ) :=
  loop (liftM (Except.error Stop.rounds : Except Stop (Dent ⊕ ℤ)))
    (fun look ↦ lookRound d mydata dols look n) n look

end Look

/-- The variables of `get_contents`, as in `Reading`. -/
structure Contents where
  filesize : ℕ
  gotsize : ℕ
  curclust : UInt32
  endclust : UInt32
  actsize : ℕ
  buffer : Mem
  pos : ℕ

/-- A cluster behind `endclust` that is consecutive. -/
def consecutive (r : Contents) (newclust : UInt32) : Contents ⊕ ℤ × Mem :=
  if endsReading newclust.toNat then .inr (r.gotsize, r.buffer)
  else
    .inl { r with endclust := newclust, actsize := (r.actsize + mydata.bytesperclust) % 4294967296 }

/-- `getit`, when the consecutive clusters have been read. -/
def getit (r : Contents) (buffer : Mem) (curclust : UInt32) : Contents ⊕ ℤ × Mem :=
  let gotsize := (r.gotsize + r.actsize) % 4294967296
  if endsReading curclust.toNat then .inr (gotsize, buffer)
  else
    .inl
      { filesize := r.filesize - r.actsize
        gotsize := gotsize
        curclust := curclust
        endclust := curclust
        actsize := mydata.bytesperclust
        buffer := buffer
        pos := r.pos + r.actsize }

/-- The remaining clusters and bytes. -/
def lastBytes (r : Contents) : ℤ × Mem :=
  let actsize := (r.actsize + 4294967296 - mydata.bytesperclust) % 4294967296
  match getCluster d mydata r.curclust r.buffer r.pos actsize with
  | (false, buffer) => (-1, buffer)
  | (true, buffer) =>
    let filesize := (r.filesize + 4294967296 - actsize) % 4294967296
    match getCluster d mydata r.endclust buffer (r.pos + actsize) filesize with
    | (false, buffer) => (-1, buffer)
    | (true, buffer) => (((r.gotsize + actsize + filesize) % 4294967296 : ℕ), buffer)

/-- What a step does with the entry for `endclust`. -/
def contentsTurn (r : Contents) (newclust : UInt32) : M (Contents ⊕ ℤ × Mem) :=
  if newclust - 1 ≠ r.endclust then
    match getCluster d mydata r.curclust r.buffer r.pos r.actsize with
    | (false, buffer) => pure (.inr (-1, buffer))
    | (true, buffer) => do
      let curclust ← getFatent d mydata r.endclust
      pure (getit mydata r buffer curclust)
  else pure (consecutive mydata r newclust)

/-- A step of the search for consecutive clusters, or of the loop around it. -/
def contentsRound (r : Contents) : M (Contents ⊕ ℤ × Mem) :=
  if r.actsize < r.filesize then do
    let newclust ← getFatent d mydata r.endclust
    contentsTurn d mydata r newclust
  else pure (.inr (lastBytes d mydata r))

def initial (dent : Dent) (buffer : Mem) (maxsize : UInt32) : Contents :=
  { filesize := limited dent.entry maxsize
    gotsize := 0
    curclust := START mydata dent
    endclust := START mydata dent
    actsize := mydata.bytesperclust
    buffer := buffer
    pos := 0 }

def getContents (n : ℕ) (dent : Dent) (buffer : Mem) (maxsize : UInt32) : M (ℤ × Mem) :=
  loop (liftM (Except.error Stop.rounds : Except Stop (ℤ × Mem))) (contentsRound d mydata) n
    (initial mydata dent buffer maxsize)

end Volume

/-- The arguments of `do_fat_read`, and what is in its arrays before. -/
structure Call where
  filename : CStr
  buffer : Mem
  maxsize : UInt32
  dols : ℤ
  fatbuf : Mem
  rootBlock : Mem
  vfatname : Mem

namespace Call

variable (c : Call)

/-- `fnamecopy`, in an array of 2048 bytes. -/
def fnamecopy : CStr := downcase (c.filename.dropWhile isDirdelim)

/-- `dols` and `isdir` when the search begins. -/
def dolsRoot : ℤ := if c.fnamecopy = [] then lsRoot else c.dols

def isdir : Bool := c.fnamecopy ≠ [] ∧ (c.fnamecopy.any isDirdelim ∨ c.dols ≠ 0)

def buffers : Buffers := ⟨c.fatbuf, 0xffffffff, c.vfatname⟩

/-- The first round of `while (isdir)`. -/
def look (dent : Dent) : Look := ⟨tail c.fnamecopy, true, dent⟩

end Call

section Read

variable (d : Disk) (mydata : FsData) (c : Call) (n : ℕ)

/-- The directories below the root directory. -/
def descend : Dent ⊕ ℤ → M (Dent ⊕ ℤ)
  | .inl dent =>
    if c.isdir then
      if dent.isDir then searchDirs d mydata c.dolsRoot (c.look dent) n else pure (.inr (-1))
    else pure (.inl dent)
  | .inr ret => pure (.inr ret)

def contentsOf : Dent ⊕ ℤ → M (ℤ × Mem)
  | .inl dent => getContents d mydata n dent c.buffer c.maxsize
  | .inr ret => pure (ret, c.buffer)

def search : M (ℤ × Mem) := do
  let r ← searchRoot d mydata (head c.fnamecopy) c.dolsRoot n c.rootBlock
  let r ← descend d mydata c n r
  contentsOf d mydata c n r

/-- The value and the memory of the caller, after at most `n` rounds of each loop. -/
def doFatRead : Except Stop (ℤ × Mem) :=
  match readBootsectandvi d with
  | none => .ok (-1, c.buffer)
  | some (bs, fatsize) =>
    if c.fnamecopy.length < 2048 then
      if c.fnamecopy = [] ∧ c.dols = 0 then .ok (-1, c.buffer)
      else (search d (Fat.doFatRead bs fatsize c.fatbuf) c n c.buffers).map Prod.fst
    else .error .outside

end Read

end UBoot.Fs.FatLookup
