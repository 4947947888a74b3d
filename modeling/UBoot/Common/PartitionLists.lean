import UBoot.Common.MtdpartsRoundTrip

namespace UBoot.Common.PartitionLists

open Lib Lib.CString Lib.KeyOrder CmdJffs2 MtdpartsText MtdpartsRoundTrip

/-- `struct mtd_device` with the counter that the functions keep. -/
structure MtdDevice extends Device where
  numParts : UInt16
deriving DecidableEq

/-- A `struct part_info`, whose numbers have 32 bits. -/
def Part : Type := { part : PartInfo // part.offset < 4294967296 ∧ part.size < 4294967296 }

def partSortAdd (part : PartInfo) (dev : MtdDevice) : Option MtdDevice :=
  (CmdJffs2.partSortAdd part dev.parts).map fun parts ↦
    { dev with parts := parts, numParts := dev.numParts + 1 }

def partAdd (hw : Hardware) (dev : MtdDevice) (part : PartInfo) : Option MtdDevice := do
  let part ← partValidate hw dev.id part
  partSortAdd part dev

def deviceParse (hw : Hardware) (ids : List MtdId) (devices : List MtdDevice) (mtdDev : CStr) :
    Option (MtdDevice × CStr) := do
  let p := mtdDev.dropWhile (· ≠ 0x3a)
  if p = [] then none
  else
    let id ← idFindByMtdId ids (mtdDev.takeWhile (· ≠ 0x3a))
    let offset := startOffset (devices.map MtdDevice.toDevice) id
    let (parts, p) ← partsParse hw id (p.length + 1) offset (p.drop 1)
    -- the partitions are counted in 16 bits here, too
    if UInt16.ofNat parts.length = 0 then none
    else
      let dev ← parts.foldlM (fun dev part ↦ partSortAdd part dev) ⟨⟨id, []⟩, 0⟩
      return (dev, if first p = 0x3b then p.drop 1 else p)

def sameNum (dev dev' : MtdDevice) : Bool :=
  dev.id.type == dev'.id.type && dev.id.num == dev'.id.num

/-- What `parse_mtdparts` does with a device. -/
def deviceAppend (devices : List MtdDevice) (dev : MtdDevice) : Option (List MtdDevice) :=
  if devices.any (sameNum · dev) then none else some (devices ++ [dev])

/-- What `mtdparts add` does with a device. -/
def deviceMerge (hw : Hardware) (devices : List MtdDevice) (dev : MtdDevice) :
    Option (List MtdDevice) :=
  match devices.findIdx? (sameNum · dev) with
  | none => some (devices ++ [dev])
  | some k => do
    let devTmp ← devices[k]?
    let part ← dev.parts.head?
    let devTmp ← partAdd hw devTmp part
    return devices.set k devTmp

/-- `part_del` for the partition `pnum` of the device `k`. -/
def partDel (devices : List MtdDevice) (k pnum : ℕ) : Option (List MtdDevice) := do
  let dev ← devices[k]?
  if pnum < dev.parts.length then
    if dev.numParts = 1 then return devices.eraseIdx k
    else
      return devices.set k
        { dev with parts := dev.parts.eraseIdx pnum, numParts := dev.numParts - 1 }
  else none

inductive Op
  | devicesInit
  | partAdd (k : ℕ) (part : Part)
  | deviceParse (ids : List MtdId) (mtdDev : CStr)
  | mtdpartsAdd (ids : List MtdId) (desc : CStr)
  | partDel (k pnum : ℕ)

def step (hw : Hardware) (devices : List MtdDevice) : Op → Option (List MtdDevice)
  | .devicesInit => some []
  | .partAdd k part => do
    let dev ← devices[k]?
    let dev ← partAdd hw dev part.val
    return devices.set k dev
  | .deviceParse ids mtdDev => do
    let (dev, _) ← deviceParse hw ids devices mtdDev
    deviceAppend devices dev
  | .mtdpartsAdd ids desc => do
    let (dev, _) ← deviceParse hw ids devices desc
    deviceMerge hw devices dev
  | .partDel k pnum => partDel devices k pnum

/-- Where a partition may be on its device. -/
structure Placed (hw : Hardware) (id : MtdId) (part : PartInfo) : Prop where
  size_pos : 0 < part.size
  end_le : part.offset + part.size ≤ id.size
  nor : id.type = .nor → (hw.flashInfo id.num).startsAt part.offset = true ∧
    ((hw.flashInfo id.num).startsAt (part.offset + part.size) = true ∨
      (hw.flashInfo id.num).size = part.offset + part.size)
  nand : id.type = .nand → ∃ erasesize, hw.erasesize = some erasesize ∧
    erasesize id.num ∣ part.offset ∧ erasesize id.num ∣ part.size

structure WellFormed (hw : Hardware) (dev : MtdDevice) : Prop where
  numParts : dev.numParts = UInt16.ofNat dev.parts.length
  ne_nil : dev.parts ≠ []
  ascending : Ascending PartInfo.offset dev.parts
  oneAtZero : OneAtZero dev.parts
  placed : ∀ part ∈ dev.parts, Placed hw dev.id part

section Validate

variable {hw : Hardware} {id : MtdId} {part part' : PartInfo}

theorem aligned_iff (hend : part.offset + part.size < 4294967296) :
    partAligned hw id part = true ↔
      (id.type = .nor → (hw.flashInfo id.num).startsAt part.offset = true ∧
        ((hw.flashInfo id.num).startsAt (part.offset + part.size) = true ∨
          (hw.flashInfo id.num).size = part.offset + part.size)) ∧
      (id.type = .nand → ∃ erasesize, hw.erasesize = some erasesize ∧
        erasesize id.num ∣ part.offset ∧ erasesize id.num ∣ part.size) := by
  rw [partAligned]
  cases htype : id.type with
  | nor =>
    simp only [partValidateNor, Nat.mod_eq_of_lt hend, Bool.and_eq_true, Bool.or_eq_true,
      beq_iff_eq, forall_const, reduceCtorEq, false_implies, and_true]
  | nand =>
    cases herase : hw.erasesize with
    | none => simp [partValidateNand, herase]
    | some erasesize =>
      simp [partValidateNand, herase, Nat.dvd_iff_mod_eq_zero]

theorem placed_iff (hsize : part.size < 4294967296) : Placed hw id part ↔ Valid hw id part := by
  constructor
  · rintro ⟨hpos, hle, hnor, hnand⟩
    have hend : part.offset + part.size < 4294967296 := hle.trans_lt id.size_lt
    refine ⟨by omega, ?_, ?_, (aligned_iff hend).mpr ⟨hnor, hnand⟩⟩
    · rw [Nat.mod_eq_of_lt hend]
      omega
    · rwa [Nat.mod_eq_of_lt hend]
  · intro h
    have hend := h.end_lt hsize
    have hlt := h.lt_end
    have hle := h.end_le
    rw [Nat.mod_eq_of_lt hend] at hlt hle
    obtain ⟨hnor, hnand⟩ := (aligned_iff hend).mp h.aligned
    exact ⟨by omega, hle, hnor, hnand⟩

theorem Placed.size_lt (h : Placed hw id part) : part.size < 4294967296 := by
  have hle := h.end_le
  have hid := id.size_lt
  omega

theorem Placed.partValidate (h : Placed hw id part) : partValidate hw id part = some part :=
  partValidate_of_valid ((placed_iff h.size_lt).mp h) h.size_lt

theorem placed_of_partValidate (hsize : part.size < 4294967296)
    (h : CmdJffs2.partValidate hw id part = some part') : Placed hw id part' := by
  obtain ⟨rfl, hvalid⟩ := partValidate_eq_some.mp h
  refine (placed_iff ?_).mpr hvalid
  rw [resolveSize]
  split_ifs
  · exact Nat.mod_lt _ (by decide)
  · exact hsize

end Validate

section Keeps

variable {hw : Hardware} {ids : List MtdId} {devices devices' : List MtdDevice}
  {dev dev' : MtdDevice} {part : PartInfo} {p p' : CStr}

theorem partSortAdd_eq (h : partSortAdd part dev = some dev') :
    CmdJffs2.partSortAdd part dev.parts = some dev'.parts ∧ dev'.id = dev.id ∧
      dev'.numParts = dev.numParts + 1 := by
  rw [partSortAdd] at h
  obtain ⟨parts, hparts, rfl⟩ := Option.map_eq_some_iff.mp h
  exact ⟨hparts, rfl, rfl⟩

theorem length_partSortAdd {parts parts' : List PartInfo}
    (h : CmdJffs2.partSortAdd part parts = some parts') : parts'.length = parts.length + 1 := by
  rw [eq_of_partSortAdd h, KeyOrder.insert, List.orderedInsert_length]

theorem counter_succ {n : UInt16} {k : ℕ} (h : n = UInt16.ofNat k) :
    n + 1 = UInt16.ofNat (k + 1) := by
  rw [h, UInt16.ofNat_add]
  rfl

theorem WellFormed.partAdd (h : WellFormed hw dev) (hsize : part.size < 4294967296)
    (hadd : partAdd hw dev part = some dev') : WellFormed hw dev' := by
  rw [PartitionLists.partAdd, Option.bind_eq_bind, Option.bind_eq_some_iff] at hadd
  obtain ⟨valid, hvalid, hadd⟩ := hadd
  obtain ⟨hparts, hid, hnum⟩ := partSortAdd_eq hadd
  have heq := eq_of_partSortAdd hparts
  have hmem : ∀ q, q ∈ dev'.parts ↔ q = valid ∨ q ∈ dev.parts := by
    intro q
    rw [heq, KeyOrder.insert, List.mem_orderedInsert]
  refine ⟨?_, ?_, ?_, oneAtZero_partSortAdd h.ascending h.oneAtZero hparts, ?_⟩
  · rw [hnum, length_partSortAdd hparts]
    exact counter_succ h.numParts
  · exact List.ne_nil_of_mem ((hmem valid).mpr (Or.inl rfl))
  · rw [heq]
    exact h.ascending.insert valid
  · intro q hq
    rw [hid]
    rcases (hmem q).mp hq with rfl | hin
    · exact placed_of_partValidate hsize hvalid
    · exact h.placed q hin

/-- The loop that moves the partitions to the device. -/
theorem sortParts_of_foldlM {parts : List PartInfo}
    (h : parts.foldlM (fun dev part ↦ partSortAdd part dev) dev = some dev') :
    parts.foldlM (fun sorted part ↦ CmdJffs2.partSortAdd part sorted) dev.parts = some dev'.parts ∧
      dev'.id = dev.id ∧ (dev.numParts = UInt16.ofNat dev.parts.length →
        dev'.numParts = UInt16.ofNat dev'.parts.length) := by
  induction parts generalizing dev with
  | nil =>
    cases h
    exact ⟨rfl, rfl, id⟩
  | cons part parts ih =>
    rw [List.foldlM_cons, Option.bind_eq_bind, Option.bind_eq_some_iff] at h
    obtain ⟨next, hadd, h⟩ := h
    obtain ⟨hparts, hid, hnum⟩ := partSortAdd_eq hadd
    obtain ⟨hrest, hid', hcount⟩ := ih h
    refine ⟨?_, hid'.trans hid, fun hdev ↦ hcount ?_⟩
    · rw [List.foldlM_cons, Option.bind_eq_bind, hparts, Option.bind_some, hrest]
    · rw [hnum, length_partSortAdd hparts]
      exact counter_succ hdev

/-- Apart from the counters, a device is parsed as it is without them. -/
theorem toDevice_of_deviceParse (h : deviceParse hw ids devices p = some (dev, p')) :
    CmdJffs2.deviceParse hw ids (devices.map MtdDevice.toDevice) p = some (dev.toDevice, p') ∧
      dev.numParts = UInt16.ofNat dev.parts.length := by
  rw [deviceParse] at h
  simp only at h
  split_ifs at h with hcolon
  simp only [Option.bind_eq_bind, Option.bind_eq_some_iff] at h
  obtain ⟨id, hid, ⟨parts, p₁⟩, hparts, h⟩ := h
  simp only at h
  by_cases hzero : UInt16.ofNat parts.length = 0
  · rw [if_pos hzero] at h
    cases h
  rw [if_neg hzero, Option.bind_eq_some_iff] at h
  obtain ⟨sorted, hsorted, h⟩ := h
  cases h
  obtain ⟨hsort, hsame, hcount⟩ := sortParts_of_foldlM hsorted
  refine ⟨?_, hcount rfl⟩
  have hne : parts ≠ [] := by
    rintro rfl
    exact hzero rfl
  rw [CmdJffs2.deviceParse]
  simp only [if_neg hcolon, Option.bind_eq_bind, hid, Option.bind_some, hparts]
  have hsame' : dev.id = id := hsame
  subst hsame'
  rw [if_neg hne, sortParts, hsort]
  rfl

theorem wellFormed_of_deviceParse (h : deviceParse hw ids devices p = some (dev, p')) :
    WellFormed hw dev := by
  obtain ⟨hparse, hnum⟩ := toDevice_of_deviceParse h
  have hgood := goodDevice_of_deviceParse hparse
  refine ⟨hnum, hgood.ne_nil, hgood.ascending, hgood.oneAtZero, fun part hpart ↦ ?_⟩
  exact (placed_iff (hgood.part part hpart).size_lt).mpr (hgood.part part hpart).toValid

/-- The list without one partition of several. -/
theorem WellFormed.eraseIdx {pnum : ℕ} (h : WellFormed hw dev) (hlt : pnum < dev.parts.length)
    (hnum : dev.numParts ≠ 1) : WellFormed hw
      { dev with parts := dev.parts.eraseIdx pnum, numParts := dev.numParts - 1 } := by
  have hsub := List.eraseIdx_sublist dev.parts pnum
  have hlength := List.length_eraseIdx_of_lt hlt
  have hone : dev.parts.length ≠ 1 := by
    intro hone
    apply hnum
    rw [h.numParts, hone]
    rfl
  refine ⟨?_, ?_, h.ascending.sublist hsub, (hsub.filter _).length_le.trans h.oneAtZero,
    fun q hq ↦ h.placed q (hsub.subset hq)⟩
  · have hcount : dev.parts.length = (dev.parts.length - 1) + 1 := by omega
    change dev.numParts - 1 = UInt16.ofNat (dev.parts.eraseIdx pnum).length
    rw [hlength, h.numParts, hcount, UInt16.ofNat_add, Nat.add_sub_cancel]
    exact UInt16.add_sub_cancel _ _
  · intro hnil
    have hzero : (dev.parts.eraseIdx pnum).length = 0 := List.length_eq_zero_iff.mpr hnil
    omega

/-- The devices of a list are well-formed. -/
def AllFormed (hw : Hardware) (devices : List MtdDevice) : Prop :=
  ∀ dev ∈ devices, WellFormed hw dev

theorem AllFormed.concat (h : AllFormed hw devices) (hdev : WellFormed hw dev) :
    AllFormed hw (devices ++ [dev]) := by
  intro d hd
  rcases List.mem_append.mp hd with hin | hlast
  · exact h d hin
  · rw [List.mem_singleton.mp hlast]
    exact hdev

theorem AllFormed.set (h : AllFormed hw devices) (hdev : WellFormed hw dev) (k : ℕ) :
    AllFormed hw (devices.set k dev) := by
  intro d hd
  rcases List.mem_or_eq_of_mem_set hd with hin | rfl
  · exact h d hin
  · exact hdev

theorem AllFormed.step {op : Op} (h : AllFormed hw devices)
    (hstep : step hw devices op = some devices') : AllFormed hw devices' := by
  cases op with
  | devicesInit =>
    cases hstep
    exact fun _ hdev ↦ absurd hdev List.not_mem_nil
  | partAdd k part =>
    simp only [PartitionLists.step, Option.bind_eq_bind, Option.bind_eq_some_iff] at hstep
    obtain ⟨dev, hdev, dev', hadd, hstep⟩ := hstep
    cases hstep
    exact h.set ((h dev (List.mem_of_getElem? hdev)).partAdd part.2.2 hadd) k
  | deviceParse ids mtdDev =>
    simp only [PartitionLists.step, Option.bind_eq_bind, Option.bind_eq_some_iff] at hstep
    obtain ⟨⟨dev, p⟩, hparse, hstep⟩ := hstep
    simp only [deviceAppend] at hstep
    split_ifs at hstep
    cases hstep
    exact h.concat (wellFormed_of_deviceParse hparse)
  | mtdpartsAdd ids desc =>
    simp only [PartitionLists.step, Option.bind_eq_bind, Option.bind_eq_some_iff] at hstep
    obtain ⟨⟨dev, p⟩, hparse, hstep⟩ := hstep
    have hdev := wellFormed_of_deviceParse hparse
    simp only [deviceMerge] at hstep
    split at hstep
    · cases hstep
      exact h.concat hdev
    · next k _ =>
      simp only [Option.bind_eq_bind, Option.bind_eq_some_iff] at hstep
      obtain ⟨old, hold, part, hpart, merged, hmerged, hstep⟩ := hstep
      cases hstep
      have hsize := (hdev.placed part (List.mem_of_mem_head? hpart)).size_lt
      exact h.set ((h old (List.mem_of_getElem? hold)).partAdd hsize hmerged) k
  | partDel k pnum =>
    simp only [PartitionLists.step, partDel, Option.bind_eq_bind, Option.bind_eq_some_iff] at hstep
    obtain ⟨dev, hdev, hstep⟩ := hstep
    split_ifs at hstep with hlt hone
    · cases hstep
      exact fun d hd ↦ h d (List.mem_of_mem_eraseIdx hd)
    · cases hstep
      exact h.set ((h dev (List.mem_of_getElem? hdev)).eraseIdx hlt hone) k

theorem AllFormed.run {ops : List Op} (h : AllFormed hw devices)
    (hrun : ops.foldlM (PartitionLists.step hw) devices = some devices') : AllFormed hw devices' := by
  induction ops generalizing devices with
  | nil =>
    cases hrun
    exact h
  | cons op ops ih =>
    rw [List.foldlM_cons, Option.bind_eq_bind, Option.bind_eq_some_iff] at hrun
    obtain ⟨next, hstep, hrun⟩ := hrun
    exact ih (h.step hstep) hrun

end Keeps

theorem partition_lists (hw : Hardware) :
    (∀ (ops : List Op) (devices : List MtdDevice), ops.foldlM (step hw) [] = some devices →
      ∀ dev ∈ devices, WellFormed hw dev) ∧
    ∀ (id : MtdId) (part : PartInfo), Placed hw id part → partValidate hw id part = some part := by
  refine ⟨fun ops devices hrun ↦ ?_, fun id part h ↦ h.partValidate⟩
  have hnil : AllFormed hw [] := fun _ hdev ↦ absurd hdev List.not_mem_nil
  exact hnil.run hrun

section Sample

def samplePart : Part := ⟨⟨ascii "p", false, 65536, 65536, 0⟩, by decide⟩

/-- Equal partitions are added any number of times. -/
theorem run_replicate (dev : MtdDevice) (hid : dev.id = sampleIds.head (by decide)) (n : ℕ) :
    ∃ dev', (List.replicate n (.partAdd 0 samplePart)).foldlM (step sampleHw) [dev] = some [dev'] ∧
      dev'.numParts = dev.numParts + UInt16.ofNat n ∧
      dev'.parts.length = dev.parts.length + n := by
  induction n generalizing dev with
  | zero => exact ⟨dev, rfl, (UInt16.add_zero _).symm, rfl⟩
  | succ n ih =>
    have hvalid : partValidate sampleHw dev.id samplePart.val = some samplePart.val := by
      rw [hid]
      decide +kernel
    have hsort : CmdJffs2.partSortAdd samplePart.val dev.parts = some _ :=
      partSortAdd_of fun hzero ↦ absurd hzero (by decide)
    have hstep : step sampleHw [dev] (.partAdd 0 samplePart) =
        some [⟨⟨dev.id, insert PartInfo.offset samplePart.val dev.parts⟩, dev.numParts + 1⟩] := by
      simp [step, partAdd, hvalid, partSortAdd, hsort]
    obtain ⟨dev', hrun, hnum, hlength⟩ :=
      ih ⟨⟨dev.id, insert PartInfo.offset samplePart.val dev.parts⟩, dev.numParts + 1⟩ hid
    refine ⟨dev', ?_, ?_, ?_⟩
    · rw [List.replicate_succ, List.foldlM_cons, hstep]
      exact hrun
    · rw [hnum, Nat.add_comm n, UInt16.ofNat_add, ← UInt16.add_assoc]
      rfl
    · have hone := length_partSortAdd hsort
      rw [hlength]
      change (insert PartInfo.offset samplePart.val dev.parts).length + n = _
      omega

/-- 65536 partitions on one device. -/
def manyParts : List Op :=
  .deviceParse sampleIds (ascii "nor:64k@64k") :: List.replicate 65535 (.partAdd 0 samplePart)

/-- The same flash chips with a NAND chip. -/
def sampleNand : Hardware := { sampleHw with erasesize := some fun _ ↦ 16384 }

def sampleNandId : MtdId := ⟨.nand, 0, 65536, ascii "nand", by decide, by decide⟩

def smallPart : PartInfo := ⟨ascii "p", false, 4096, 0, 0⟩

theorem partition_lists_not : (∃ devices, manyParts.foldlM (step sampleHw) [] = some devices ∧
      ∃ dev ∈ devices, dev.numParts.toNat ≠ dev.parts.length) ∧
    0 < smallPart.size ∧ smallPart.offset + smallPart.size ≤ sampleNandId.size ∧
      partValidate sampleNand sampleNandId smallPart = none := by
  refine ⟨?_, by decide +kernel⟩
  have hparse : ∃ dev, step sampleHw [] (.deviceParse sampleIds (ascii "nor:64k@64k")) = some [dev] ∧
      dev.id = sampleIds.head (by decide) ∧ dev.numParts = 1 ∧ dev.parts.length = 1 := by
    refine ⟨⟨⟨sampleIds.head (by decide), [⟨autoNameOf 65536 65536, true, 65536, 65536, 0⟩]⟩, 1⟩, ?_⟩
    decide +kernel
  obtain ⟨dev, hstep, hid, hnum, hlength⟩ := hparse
  obtain ⟨dev', hrun, hnum', hlength'⟩ := run_replicate dev hid 65535
  refine ⟨[dev'], ?_, dev', List.mem_singleton_self _, ?_⟩
  · rw [manyParts, List.foldlM_cons, hstep]
    exact hrun
  · rw [hnum', hlength', hnum, hlength]
    decide

def sampleOps : List Op :=
  [.deviceParse sampleIds (ascii "nor:64k,128k@0x20000(root)ro"), .partAdd 0 samplePart,
    .mtdpartsAdd sampleIds (ascii "big:4k@4k"), .partDel 0 0]

theorem partition_lists_sample : (∃ devices, sampleOps.foldlM (step sampleHw) [] = some devices ∧
      devices.length = 2 ∧ ∀ dev ∈ devices, WellFormed sampleHw dev) ∧
    partValidate sampleHw (sampleIds.head (by decide)) samplePart.val = some samplePart.val := by
  have hrun : ((sampleOps.foldlM (step sampleHw) []).map List.length) = some 2 := by
    decide +kernel
  obtain ⟨devices, hdevices, hlength⟩ := Option.map_eq_some_iff.mp hrun
  refine ⟨⟨devices, hdevices, hlength, (partition_lists sampleHw).1 sampleOps devices hdevices⟩, ?_⟩
  apply (partition_lists sampleHw).2
  exact ⟨by decide, by decide +kernel, fun _ ↦ by decide +kernel, fun h ↦ absurd h (by decide)⟩

end Sample

end UBoot.Common.PartitionLists
