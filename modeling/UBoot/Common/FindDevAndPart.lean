import UBoot.Common.IdParse
import UBoot.Common.MtdpartsRoundTrip

namespace UBoot.Common.FindDevAndPart

open Lib Lib.CString LibGeneric.Vsprintf CmdJffs2 IdParse MtdpartsRoundTrip

/-- The list `devices`, where the number of a device has 8 bits. -/
def Devices : Type := { devices : List Device // ∀ dev ∈ devices, dev.id.num < 256 }

def jffs2PartInfo (dev : Device) (partNum : ℕ) : Option PartInfo :=
  if dev.numParts.toNat ≤ partNum then none else dev.parts[partNum]?

def findDevAndPart (devices : Devices) (id : CStr) : Option (Device × UInt8 × PartInfo) := do
  let (p, type, dnum) ← idParse id
  if first p = 0x2c ∧ first (p.drop 1) ≠ 0 then
    let r := simpleStrtoul (p.drop 1) 0
    let pnum := r.1.toUInt8
    if first r.2 = 0 then
      let dev ← deviceFind devices.val type dnum.toNat
      let part ← jffs2PartInfo dev pnum.toNat
      return (dev, pnum, part)
    else none
  else none

/-- `do_flerase` with a partition: the first and the last address that are erased. -/
def doFlerase (hw : Hardware) (devices : Devices) (arg : CStr) : Option (ℕ × ℕ) := do
  let _ ← idParse arg
  let (dev, _, part) ← findDevAndPart devices arg
  match dev.id.type with
  | .nor =>
    let addrFirst := (part.offset + (hw.flashInfo dev.id.num).start.headD 0) % 4294967296
    some (addrFirst, (addrFirst + part.size + 4294967295) % 4294967296)
  | .nand => none

/-- `<type><devnum>,<partnum>` -/
def Written (id : CStr) (type : DevType) (dnum pnum : ℕ) : Prop :=
  ∃ t u, id = mtdDevType type ++ (t ++ 0x2c :: u) ∧ Numeral t dnum ∧ Numeral u pnum

/-- The partition of this index on the device of this number. -/
structure Denotes (devices : Devices) (type : DevType) (dnum pnum : ℕ) (dev : Device)
    (part : PartInfo) : Prop where
  device : deviceFind devices.val type dnum = some dev
  partition : dev.parts[pnum]? = some part

structure Correct (devices : Devices) (id : CStr) : Prop where
  succeeds : (findDevAndPart devices id).isSome ↔
    ∃ type dnum pnum dev part, Written id type dnum pnum ∧ Denotes devices type dnum pnum dev part
  returns : ∀ dev pnum part, findDevAndPart devices id = some (dev, pnum, part) →
    ∃ type dnum, Written id type dnum pnum.toNat ∧ Denotes devices type dnum pnum.toNat dev part

/-- The numbers fit in 8 bits and the counter knows the partition, or there is no partition for them,
and none for their low 8 bits. -/
def Harmless (devices : Devices) (type : DevType) (dnum pnum : ℕ) : Prop :=
  (dnum < 256 ∧ pnum < 256 ∧ ∀ dev part, Denotes devices type dnum pnum dev part →
    pnum < dev.numParts.toNat) ∨
  (∀ dev part, ¬ Denotes devices type dnum pnum dev part) ∧
    ∀ dev, deviceFind devices.val type (dnum % 256) = some dev → dev.numParts.toNat ≤ pnum % 256

section Find

variable {devices : Devices} {id : CStr} {type : DevType} {dnum pnum : ℕ}

theorem Written.unique {type' : DevType} {dnum' pnum' : ℕ} (h : Written id type dnum pnum)
    (h' : Written id type' dnum' pnum') : type = type' ∧ dnum = dnum' ∧ pnum = pnum' := by
  obtain ⟨t, u, rfl, ht, hu⟩ := h
  obtain ⟨t', u', heq, ht', hu'⟩ := h'
  obtain ⟨htype, hdnum, rfl⟩ := id_inj (by decide) (by decide) ht ht' heq
  exact ⟨htype, hdnum, hu.unique hu'⟩

/-- A partition id is read with the low 8 bits of its numbers. -/
theorem findDevAndPart_of_written (hid : NulFree id) (h : Written id type dnum pnum) :
    findDevAndPart devices id =
      (deviceFind devices.val type (dnum % 256)).bind fun dev ↦
        (jffs2PartInfo dev (pnum % 256)).map fun part ↦ (dev, UInt8.ofNat pnum, part) := by
  obtain ⟨t, u, rfl, ht, hu⟩ := h
  have hnul : first u ≠ 0 := by
    apply hid
    simp [first_mem hu.ne_nil]
  have hread := simpleStrtoul_append hu (show isxdigit (first []) = false by decide)
    (show first [] ≠ 0x78 by decide)
  rw [List.append_nil] at hread
  have hcomma : isxdigit (first (0x2c :: u)) = false ∧ first (0x2c :: u) ≠ 0x78 := by
    rw [first_cons]
    decide
  rw [findDevAndPart, idParse_append type ht hcomma.1 hcomma.2]
  simp only [Option.bind_eq_bind, Option.bind_some, List.drop_one, List.tail_cons, hread]
  rw [if_pos ⟨first_cons _ _, hnul⟩]
  have hnum : (UInt32.ofNat pnum).toUInt8 = UInt8.ofNat pnum := by simp
  have hend : first ([] : CStr) = 0 := rfl
  rw [hnum, if_pos hend, UInt8.toNat_ofNat', UInt8.toNat_ofNat']
  congr 1
  funext dev
  cases jffs2PartInfo dev (pnum % 2 ^ 8) <;> rfl

/-- Only a digit is read at the start. -/
theorem isdigit_of_moved {u : CStr} (h : (simpleStrtoul u 0).2 ≠ u) : isdigit (first u) = true := by
  by_contra hdigit
  rw [Bool.not_eq_true] at hdigit
  have hzero : first u ≠ 0x30 := by
    intro heq
    rw [heq] at hdigit
    exact absurd hdigit (by decide)
  rw [simpleStrtoul, if_neg hzero, if_pos rfl, strtoulDigits_stop (Nat.le_refl 10) 0 hdigit] at h
  exact h rfl

theorem written_of_findDevAndPart (hid : NulFree id) (h : (findDevAndPart devices id).isSome) :
    ∃ type dnum pnum, Written id type dnum pnum := by
  obtain ⟨r, hr⟩ := Option.isSome_iff_exists.mp h
  rw [findDevAndPart] at hr
  simp only [Option.bind_eq_bind, Option.bind_eq_some_iff] at hr
  obtain ⟨⟨p, type, num⟩, hparse, hr⟩ := hr
  simp only at hr
  split_ifs at hr with hcomma hend
  obtain ⟨t, dnum, rfl, ht, -⟩ := exists_of_idParse hparse
  obtain _ | ⟨c, u⟩ := p
  · exact absurd hcomma.1 (by decide)
  rw [first_cons, List.drop_one, List.tail_cons] at hcomma
  obtain ⟨rfl, hne⟩ := hcomma
  rw [List.drop_one, List.tail_cons] at hend
  have hdigit : isdigit (first u) = true := by
    apply isdigit_of_moved
    intro heq
    rw [heq] at hend
    exact hne hend
  obtain ⟨u', pnum, hu, hnum, -⟩ := numeral_of_simpleStrtoul hdigit
  have hnil : (simpleStrtoul u 0).2 = [] := by
    by_contra hrest
    refine hid _ ?_ hend
    have hmem : first (simpleStrtoul u 0).2 ∈ u' ++ (simpleStrtoul u 0).2 :=
      List.mem_append_right u' (first_mem hrest)
    rw [← hu] at hmem
    simp [hmem]
  rw [hnil, List.append_nil] at hu
  exact ⟨type, dnum, pnum, t, u, rfl, ht, hu ▸ hnum⟩

/-- No device has a number of more than 8 bits. -/
theorem lt_of_deviceFind {dev : Device} (h : deviceFind devices.val type dnum = some dev) :
    dnum < 256 := by
  have hnum := List.find?_some h
  rw [Bool.and_eq_true, beq_iff_eq, beq_iff_eq] at hnum
  rw [← hnum.2]
  exact devices.property dev (List.mem_of_find?_eq_some h)

theorem jffs2PartInfo_eq_some {dev : Device} {part : PartInfo} :
    jffs2PartInfo dev pnum = some part ↔ pnum < dev.numParts.toNat ∧ dev.parts[pnum]? = some part := by
  rw [jffs2PartInfo]
  split_ifs with hle
  · simp [Nat.not_lt.mpr hle]
  · simp [Nat.lt_of_not_le hle]

/-- The counter is not above the length. -/
theorem exists_part {dev : Device} (h : pnum < dev.numParts.toNat) :
    ∃ part, dev.parts[pnum]? = some part := by
  have hle : dev.numParts.toNat ≤ dev.parts.length := by
    rw [Device.numParts_toNat]
    exact Nat.mod_le _ _
  exact ⟨_, List.getElem?_eq_getElem (h.trans_le hle)⟩

theorem findDevAndPart_eq_some (devices : Devices) (hid : NulFree id)
    (h : Written id type dnum pnum) (dev : Device) (num : UInt8) (part : PartInfo) :
    findDevAndPart devices id = some (dev, num, part) ↔
      deviceFind devices.val type (dnum % 256) = some dev ∧ pnum % 256 < dev.numParts.toNat ∧
        dev.parts[pnum % 256]? = some part ∧ num = UInt8.ofNat pnum := by
  rw [findDevAndPart_of_written hid h, Option.bind_eq_some_iff]
  simp only [Option.map_eq_some_iff, jffs2PartInfo_eq_some, Prod.mk.injEq]
  constructor
  · rintro ⟨_, hdev, _, ⟨hlt, hpart⟩, rfl, rfl, rfl⟩
    exact ⟨hdev, hlt, hpart, rfl⟩
  · rintro ⟨hdev, hlt, hpart, rfl⟩
    exact ⟨dev, hdev, part, ⟨hlt, hpart⟩, rfl, rfl, rfl⟩

theorem correct_of_harmless (hid : NulFree id) (hwritten : Written id type dnum pnum)
    (h : Harmless devices type dnum pnum) : Correct devices id := by
  rcases h with ⟨hdnum, hpnum, hcount⟩ | ⟨hnone, hlow⟩
  · have hfind := findDevAndPart_eq_some devices hid hwritten
    rw [Nat.mod_eq_of_lt hdnum, Nat.mod_eq_of_lt hpnum] at hfind
    have hreturns : ∀ dev num part, findDevAndPart devices id = some (dev, num, part) →
        num.toNat = pnum ∧ Denotes devices type dnum pnum dev part := by
      intro dev num part hsome
      obtain ⟨hdev, -, hpart, rfl⟩ := (hfind dev num part).mp hsome
      exact ⟨UInt8.toNat_ofNat_of_lt' hpnum, hdev, hpart⟩
    refine ⟨?_, ?_⟩
    · constructor
      · intro hsome
        obtain ⟨⟨dev, num, part⟩, hsome⟩ := Option.isSome_iff_exists.mp hsome
        exact ⟨type, dnum, pnum, dev, part, hwritten, (hreturns dev num part hsome).2⟩
      · rintro ⟨type', dnum', pnum', dev, part, hwritten', hdenotes⟩
        obtain ⟨rfl, rfl, rfl⟩ := hwritten.unique hwritten'
        rw [(hfind dev _ part).mpr
          ⟨hdenotes.device, hcount dev part hdenotes, hdenotes.partition, rfl⟩]
        rfl
    · intro dev num part hsome
      obtain ⟨rfl, hdenotes⟩ := hreturns dev num part hsome
      exact ⟨type, dnum, hwritten, hdenotes⟩
  · have hfails : findDevAndPart devices id = none := by
      rw [Option.eq_none_iff_forall_ne_some]
      rintro ⟨dev, num, part⟩ hsome
      obtain ⟨hdev, hlt, -, -⟩ := (findDevAndPart_eq_some devices hid hwritten dev num part).mp hsome
      exact Nat.not_lt.mpr (hlow dev hdev) hlt
    rw [← Option.not_isSome_iff_eq_none] at hfails
    refine ⟨iff_of_false hfails ?_, ?_⟩
    · rintro ⟨type', dnum', pnum', dev, part, hwritten', hdenotes⟩
      obtain ⟨rfl, rfl, rfl⟩ := hwritten.unique hwritten'
      exact hnone dev part hdenotes
    · intro dev num part hsome
      rw [hsome] at hfails
      exact absurd rfl hfails

theorem harmless_of_correct (hid : NulFree id) (hwritten : Written id type dnum pnum)
    (h : Correct devices id) : Harmless devices type dnum pnum := by
  have hfind := findDevAndPart_eq_some devices hid hwritten
  by_cases hlow : ∃ dev, deviceFind devices.val type (dnum % 256) = some dev ∧
      pnum % 256 < dev.numParts.toNat
  · obtain ⟨dev, hdev, hlt⟩ := hlow
    obtain ⟨part, hpart⟩ := exists_part hlt
    have hsome := (hfind dev _ part).mpr ⟨hdev, hlt, hpart, rfl⟩
    obtain ⟨type', dnum', hwritten', hdenotes⟩ := h.returns dev _ part hsome
    obtain ⟨rfl, rfl, hpnum⟩ := hwritten.unique hwritten'
    have hmod : pnum = pnum % 256 := hpnum.trans UInt8.toNat_ofNat'
    refine Or.inl ⟨lt_of_deviceFind hdenotes.device, by omega, ?_⟩
    intro dev' part' hdenotes'
    have hsame := hdenotes'.device.symm.trans hdenotes.device
    cases hsame
    omega
  · have hcount : ∀ dev, deviceFind devices.val type (dnum % 256) = some dev →
        dev.numParts.toNat ≤ pnum % 256 := by
      intro dev hdev
      by_contra hlt
      exact hlow ⟨dev, hdev, Nat.lt_of_not_le hlt⟩
    refine Or.inr ⟨?_, hcount⟩
    intro dev part hdenotes
    have hsome := h.succeeds.mpr ⟨type, dnum, pnum, dev, part, hwritten, hdenotes⟩
    obtain ⟨⟨dev', num, part'⟩, hsome⟩ := Option.isSome_iff_exists.mp hsome
    obtain ⟨hdev, hlt, -, -⟩ := (hfind dev' num part').mp hsome
    exact Nat.not_lt.mpr (hcount dev' hdev) hlt

end Find

theorem findDevAndPart_correct_iff (devices : Devices) (id : CStr) (hid : NulFree id) :
    Correct devices id ↔
      ∀ type dnum pnum, Written id type dnum pnum → Harmless devices type dnum pnum := by
  constructor
  · exact fun h type dnum pnum hwritten ↦ harmless_of_correct hid hwritten h
  · intro h
    by_cases hwritten : ∃ type dnum pnum, Written id type dnum pnum
    · obtain ⟨type, dnum, pnum, hwritten⟩ := hwritten
      exact correct_of_harmless hid hwritten (h type dnum pnum hwritten)
    · have hfails : ¬ (findDevAndPart devices id).isSome := by
        intro hsome
        exact hwritten (written_of_findDevAndPart hid hsome)
      refine ⟨iff_of_false hfails ?_, ?_⟩
      · rintro ⟨type, dnum, pnum, -, -, hwritten', -⟩
        exact hwritten ⟨type, dnum, pnum, hwritten'⟩
      · intro dev num part hsome
        rw [hsome] at hfails
        exact absurd rfl hfails

section Sample

def sampleDevices : Devices :=
  ⟨sampleParse "mtdparts=nor:64k,128k@0x20000(root)ro;big:4k(a)", by decide +kernel⟩

theorem findDevAndPart_correct_sample : Correct sampleDevices (ascii "nor0x0,01") := by
  apply (findDevAndPart_correct_iff sampleDevices _ (by decide)).mpr
  intro type dnum pnum hwritten
  have hsample : Written (ascii "nor0x0,01") .nor 0 1 :=
    ⟨ascii "0x0", ascii "01", rfl, .hex (t := [0x30]) (by decide) (by decide +kernel),
      .oct (t := [0x31]) (by decide +kernel)⟩
  obtain ⟨rfl, rfl, rfl⟩ := hsample.unique hwritten
  refine Or.inl ⟨by decide, by decide, fun dev part hdenotes ↦ ?_⟩
  have hcount : ∀ dev ∈ deviceFind sampleDevices.val .nor 0, 1 < dev.numParts.toNat := by
    decide +kernel
  exact hcount dev hdenotes.device

/-- Device 256 is taken for device 0, whose first partition is erased. -/
theorem findDevAndPart_wraps : ¬ Correct sampleDevices (ascii "nor256,0") ∧
    doFlerase sampleHw sampleDevices (ascii "nor256,0") = some (0, 65535) := by
  refine ⟨fun h ↦ ?_, by decide +kernel⟩
  have hsome : (findDevAndPart sampleDevices (ascii "nor256,0")).isSome := by decide +kernel
  obtain ⟨type, dnum, pnum, dev, part, hwritten, hdenotes⟩ := h.succeeds.mp hsome
  have hsample : Written (ascii "nor256,0") .nor 256 0 :=
    ⟨ascii "256", ascii "0", rfl, .dec (by decide) (by decide) (by decide +kernel),
      .oct (t := []) (by decide +kernel)⟩
  obtain ⟨rfl, rfl, rfl⟩ := hsample.unique hwritten
  exact absurd (lt_of_deviceFind hdenotes.device) (by decide)

end Sample

end UBoot.Common.FindDevAndPart
