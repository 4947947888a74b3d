import UBoot.Lib.CString
import UBoot.Lib.Memory
import UBoot.Lib.TreeWalk

namespace UBoot.Disk.PartDos

open Lib.CString Lib.Memory Lib.TreeWalk

/-- `block_dev_desc_t`, as far as it is read; `read` is a `block_read` of one sector. -/
structure BlockDev where
  ifType : UInt8
  dev : ℕ
  lba : UInt32
  read : UInt32 → Option Mem

structure DosPartition where
  sysInd : UInt8
  start4 : UInt32
  size4 : UInt32

structure DiskPartition where
  start : UInt32
  size : UInt32
  blksz : UInt32
  name : CStr
  type : CStr

def le32ToInt (le32 : Mem) (off : ℕ) : UInt32 :=
  (le32 (off + 3)).toUInt32 <<< 24 + (le32 (off + 2)).toUInt32 <<< 16 +
    (le32 (off + 1)).toUInt32 <<< 8 + (le32 off).toUInt32

def isExtended (partType : UInt8) : Bool := partType = 0x5 ∨ partType = 0xf ∨ partType = 0x85

inductive BlockType where
  | pbr
  | mbr
deriving DecidableEq

/-- `none` is a sector without the signature. -/
def testBlockType (buffer : Mem) : Option BlockType :=
  if buffer 0x1fe ≠ 0x55 ∨ buffer 0x1ff ≠ 0xaa then none
  else if bytes buffer 0x36 3 = ascii "FAT" then some .pbr
  else some .mbr

/-- The four entries from `DOS_PART_TBL_OFFSET` on. -/
def table (buffer : Mem) : List DosPartition :=
  (List.range 4).map fun i ↦
    let pt := 0x1be + 16 * i
    ⟨buffer (pt + 4), le32ToInt buffer (pt + 8), le32ToInt buffer (pt + 12)⟩

/-- What is printed of a partition. -/
structure Line where
  partNum : ℕ
  lbaStart : UInt32
  lbaSize : UInt32
  sysInd : UInt8
  extd : Bool

/-- The fdisk part# assignment rule. -/
def nextNum (extPartSector : UInt32) (pt : DosPartition) (partNum : ℕ) : ℕ :=
  if extPartSector = 0 ∨ (pt.sysInd ≠ 0 ∧ ¬ isExtended pt.sysInd) then partNum + 1 else partNum

/-- The sector of an extended partition, and what the ones behind it are relative to. -/
def follows (extPartSector relative : UInt32) (pt : DosPartition) : UInt32 × UInt32 :=
  let lbaStart := pt.start4 + relative
  (lbaStart, if extPartSector = 0 then lbaStart else relative)

/-- The first loop of `print_partition_extended`, and `part_num` behind it. -/
def printTable (extPartSector : UInt32) : List DosPartition → ℕ → List Line × ℕ
  | [], partNum => ([], partNum)
  | pt :: pts, partNum =>
    let rest := printTable extPartSector pts (nextNum extPartSector pt partNum)
    if pt.sysInd ≠ 0 ∧ (extPartSector = 0 ∨ ¬ isExtended pt.sysInd) then
      (⟨partNum, extPartSector + pt.start4, pt.size4, pt.sysInd, isExtended pt.sysInd⟩ :: rest.1,
        rest.2)
    else rest

/-- The sectors that are read and the lines that are printed. -/
structure Printed where
  reads : List UInt32
  lines : List Line

def printPartitionExtended (dev : BlockDev) : ℕ → UInt32 → UInt32 → ℕ → Option Printed
  | 0, _, _, _ => none
  | fuel + 1, extPartSector, relative, partNum =>
    match dev.read extPartSector with
    | none => some ⟨[extPartSector], []⟩
    | some buffer =>
      match testBlockType buffer with
      | none => some ⟨[extPartSector], []⟩
      | some .pbr => some ⟨[extPartSector], [⟨1, 0, dev.lba, buffer 0x15, false⟩]⟩
      | some .mbr =>
        let (lines, partNum) := printTable extPartSector (table buffer) partNum
        (((table buffer).filter fun pt ↦ isExtended pt.sysInd).mapM fun pt ↦
          let next := follows extPartSector relative pt
          printPartitionExtended dev fuel next.1 next.2 partNum).map fun outs ↦
            ⟨extPartSector :: (outs.map (·.reads)).flatten, lines ++ (outs.map (·.lines)).flatten⟩

/-- The name of a partition. -/
def partName (dev : BlockDev) (partNum : ℕ) : CStr :=
  let disk :=
    match dev.ifType with
    | 1 | 3 => "hd"
    | 2 => "sd"
    | 4 => "usbd"
    | 5 => "docd"
    | _ => "xx"
  ascii disk ++ UInt8.ofNat (97 + dev.dev) :: ascii (toString partNum) ++ [10]

/-- The first loop of `get_partition_info_extended`: the partition, or `part_num` behind the loop. -/
def findPart (dev : BlockDev) (extPartSector : UInt32) (whichPart : ℕ) :
    List DosPartition → ℕ → DiskPartition ⊕ ℕ
  | [], partNum => .inr partNum
  | pt :: pts, partNum =>
    if pt.sysInd ≠ 0 ∧ partNum = whichPart ∧ isExtended pt.sysInd = false then
      .inl ⟨extPartSector + pt.start4, pt.size4, 512, partName dev partNum, ascii "U-Boot"⟩
    else findPart dev extPartSector whichPart pts (nextNum extPartSector pt partNum)

/-- The sectors that are read and the result. -/
structure Got where
  reads : List UInt32
  info : Option DiskPartition

def getPartitionInfoExtended (dev : BlockDev) (whichPart : ℕ) :
    ℕ → UInt32 → UInt32 → ℕ → Option Got
  | 0, _, _, _ => none
  | fuel + 1, extPartSector, relative, partNum =>
    match dev.read extPartSector with
    | none => some ⟨[extPartSector], none⟩
    | some buffer =>
      if buffer 0x1fe ≠ 0x55 ∨ buffer 0x1ff ≠ 0xaa then some ⟨[extPartSector], none⟩
      else
        match findPart dev extPartSector whichPart (table buffer) partNum with
        | .inl info => some ⟨[extPartSector], some info⟩
        | .inr partNum =>
          match (table buffer).find? fun pt ↦ isExtended pt.sysInd with
          | none => some ⟨[extPartSector], none⟩
          | some pt =>
            let next := follows extPartSector relative pt
            (getPartitionInfoExtended dev whichPart fuel next.1 next.2 partNum).map fun got ↦
              ⟨extPartSector :: got.reads, got.info⟩

def printPartDos (dev : BlockDev) (fuel : ℕ) : Option Printed := printPartitionExtended dev fuel 0 0 1

def getPartitionInfoDos (dev : BlockDev) (part fuel : ℕ) : Option Got :=
  getPartitionInfoExtended dev part fuel 0 0 1

section Tree

variable {dev : BlockDev} {t : UInt32 × UInt32} {buffer : Mem} {fuel partNum : ℕ} {out : Printed}

/-- The extended partitions of a table, each with its sector and what is relative to. -/
def extended (t : UInt32 × UInt32) (buffer : Mem) : List (UInt32 × UInt32) :=
  ((table buffer).filter fun pt ↦ isExtended pt.sysInd).map (follows t.1 t.2)

/-- The tables that are printed behind this one. -/
def children (dev : BlockDev) (t : UInt32 × UInt32) : List (UInt32 × UInt32) :=
  match dev.read t.1 with
  | none => []
  | some buffer => if testBlockType buffer = some .mbr then extended t buffer else []

theorem children_mbr (hread : dev.read t.1 = some buffer) (htype : testBlockType buffer = some .mbr) :
    children dev t = extended t buffer := by
  rw [children, hread]
  exact if_pos htype

theorem print_mbr (hread : dev.read t.1 = some buffer) (htype : testBlockType buffer = some .mbr) :
    printPartitionExtended dev (fuel + 1) t.1 t.2 partNum = some out ↔
      ∃ outs, List.Forall₂ (fun c out ↦ printPartitionExtended dev fuel c.1 c.2
          (printTable t.1 (table buffer) partNum).2 = some out) (children dev t) outs ∧
        ⟨t.1 :: (outs.map (·.reads)).flatten,
          (printTable t.1 (table buffer) partNum).1 ++ (outs.map (·.lines)).flatten⟩ = out := by
  rw [printPartitionExtended, hread]
  simp only [htype]
  rw [Option.map_eq_some_iff, children_mbr hread htype, extended]
  simp only [mapM_eq_some, List.forall₂_map_left_iff]

/-- The sectors that are read are those of a walk. -/
theorem reads_print (dev : BlockDev) (fuel : ℕ) (t : UInt32 × UInt32) (partNum : ℕ) :
    (printPartitionExtended dev fuel t.1 t.2 partNum).map (·.reads) =
      walk (children dev) Prod.fst fuel t := by
  induction fuel generalizing t partNum with
  | zero => rfl
  | succ fuel ih =>
    rw [printPartitionExtended, walk, children]
    cases hread : dev.read t.1 with
    | none => rfl
    | some buffer =>
      cases htype : testBlockType buffer with
      | none => simp [htype]
      | some type =>
        cases type with
        | pbr => simp [htype]
        | mbr =>
          simp only [htype, if_true, Option.map_map]
          have hwalk : walk (children dev) Prod.fst fuel ∘ follows t.1 t.2 = fun pt ↦
              (printPartitionExtended dev fuel (follows t.1 t.2 pt).1 (follows t.1 t.2 pt).2
                (printTable t.1 (table buffer) partNum).2).map (·.reads) :=
            funext fun pt ↦ (ih (follows t.1 t.2 pt) _).symm
          rw [extended, List.mapM_map, hwalk, ← map_mapM, Option.map_map]
          rfl

/-- A sector that is no table has no children, and at most one line. -/
theorem print_leaf (h : ∀ buffer, dev.read t.1 = some buffer → testBlockType buffer ≠ some .mbr) :
    children dev t = [] ∧ ∃ lines, (∀ fuel partNum,
      printPartitionExtended dev (fuel + 1) t.1 t.2 partNum = some ⟨[t.1], lines⟩) ∧
      ∀ line, line ∈ lines ↔ ∃ buffer, dev.read t.1 = some buffer ∧
        testBlockType buffer = some .pbr ∧ line = ⟨1, 0, dev.lba, buffer 0x15, false⟩ := by
  simp only [children, printPartitionExtended]
  cases hread : dev.read t.1 with
  | none => exact ⟨rfl, [], fun _ _ ↦ rfl, by simp⟩
  | some buffer =>
    cases htype : testBlockType buffer with
    | none => exact ⟨by simp [htype], [], fun _ _ ↦ by simp [htype], by simp [htype]⟩
    | some type =>
      cases type with
      | pbr => exact ⟨by simp [htype], [_], fun _ _ ↦ by simp [htype]; rfl, by simp [htype]⟩
      | mbr => exact absurd htype (h buffer hread)

end Tree

end UBoot.Disk.PartDos
