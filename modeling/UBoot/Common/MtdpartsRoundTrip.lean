import UBoot.Common.MtdpartsText

namespace UBoot.Common.MtdpartsRoundTrip

open Lib Lib.CString Lib.KeyOrder CmdJffs2 MtdpartsText

section Sorting

variable {new : PartInfo} {parts parts' : List PartInfo}

/-- Only one partition is at offset 0. -/
def OneAtZero (parts : List PartInfo) : Prop := (group PartInfo.offset 0 parts).length ≤ 1

theorem partSortAdd_of (h : new.offset = 0 → group PartInfo.offset 0 parts = []) :
    partSortAdd new parts = some (insert PartInfo.offset new parts) := by
  induction parts with
  | nil => rfl
  | cons pi parts ih =>
    have hzero : ¬ (new.offset = pi.offset ∧ pi.offset = 0) := by
      rintro ⟨hsame, hpi⟩
      have hgroup := h (hsame.trans hpi)
      rw [group_cons, if_pos hpi] at hgroup
      cases hgroup
    rw [partSortAdd, if_neg hzero, KeyOrder.insert, List.orderedInsert_cons]
    split_ifs with hle
    · rfl
    · have hne : new.offset ≠ 0 := by omega
      rw [ih fun hnew ↦ absurd hnew hne]
      rfl

theorem eq_of_partSortAdd (h : partSortAdd new parts = some parts') :
    parts' = insert PartInfo.offset new parts := by
  induction parts generalizing parts' with
  | nil =>
    cases h
    rfl
  | cons pi parts ih =>
    rw [partSortAdd] at h
    split_ifs at h with hzero hle
    · cases h
      rw [KeyOrder.insert, List.orderedInsert_cons, if_pos hle]
    · obtain ⟨tail, htail, rfl⟩ := Option.map_eq_some_iff.mp h
      rw [KeyOrder.insert, List.orderedInsert_cons, if_neg hle, ih htail]
      rfl

theorem group_of_partSortAdd (hparts : Ascending PartInfo.offset parts) (hnew : new.offset = 0)
    (h : partSortAdd new parts = some parts') : group PartInfo.offset 0 parts = [] := by
  cases parts with
  | nil => rfl
  | cons pi parts =>
    rw [partSortAdd] at h
    split_ifs at h with hzero hle
    · have hpi : pi.offset ≠ 0 := fun hpi ↦ hzero ⟨hnew.trans hpi.symm, hpi⟩
      rw [group, List.filter_eq_nil_iff]
      intro p hp
      have hle : pi.offset ≤ p.offset := by
        rcases List.mem_cons.mp hp with rfl | hmem
        · exact Nat.le_refl _
        · exact (List.pairwise_cons.mp hparts).1 p hmem
      simp only [decide_eq_true_eq]
      omega
    · omega

theorem oneAtZero_partSortAdd (hparts : Ascending PartInfo.offset parts) (hone : OneAtZero parts)
    (h : partSortAdd new parts = some parts') : OneAtZero parts' := by
  rw [OneAtZero, eq_of_partSortAdd h, group_insert, group_cons]
  split_ifs with hnew
  · rw [group_of_partSortAdd hparts hnew h]
    exact Nat.le_refl 1
  · exact hone

theorem foldlM_partSortAdd {acc : List PartInfo}
    (h : (group PartInfo.offset 0 acc).length + (group PartInfo.offset 0 parts).length ≤ 1) :
    parts.foldlM (fun sorted part ↦ partSortAdd part sorted) acc =
      some (parts.foldl (fun sorted part ↦ insert PartInfo.offset part sorted) acc) := by
  induction parts generalizing acc with
  | nil => rfl
  | cons part parts ih =>
    rw [group_cons] at h
    have hadd : partSortAdd part acc = some (insert PartInfo.offset part acc) := by
      apply partSortAdd_of
      intro hpart
      rw [if_pos hpart, List.length_cons] at h
      exact List.eq_nil_of_length_eq_zero (by omega)
    rw [List.foldlM_cons, hadd, List.foldl_cons, Option.bind_eq_bind, Option.bind_some, ih]
    rw [group_insert, group_cons]
    split_ifs at h ⊢
    · rw [List.length_cons] at h ⊢
      omega
    · exact h

theorem good_of_foldlM {acc sorted : List PartInfo} (hacc : Ascending PartInfo.offset acc)
    (hone : OneAtZero acc)
    (h : parts.foldlM (fun sorted part ↦ partSortAdd part sorted) acc = some sorted) :
    Ascending PartInfo.offset sorted ∧ OneAtZero sorted ∧ (∀ p, p ∈ sorted ↔ p ∈ acc ∨ p ∈ parts) := by
  induction parts generalizing acc with
  | nil =>
    cases h
    simp [hacc, hone]
  | cons part parts ih =>
    rw [List.foldlM_cons, Option.bind_eq_bind, Option.bind_eq_some_iff] at h
    obtain ⟨acc', hadd, h⟩ := h
    have hacc' := eq_of_partSortAdd hadd
    obtain ⟨hsorted, hzero, hmem⟩ := ih (by rw [hacc']; exact hacc.insert part)
      (oneAtZero_partSortAdd hacc hone hadd) h
    refine ⟨hsorted, hzero, fun p ↦ ?_⟩
    rw [hmem, hacc', KeyOrder.insert, List.mem_orderedInsert, List.mem_cons]
    tauto

theorem keyOf_offset (part : PartInfo) : (keyOf part).offset = part.offset := rfl

/-- The partitions at one offset read the same backwards. -/
def SameBackwards (parts : List PartInfo) : Prop :=
  ∀ offset, ((group PartInfo.offset offset parts).map keyOf).reverse =
    (group PartInfo.offset offset parts).map keyOf

/-- Where no two partitions share an offset, each is alone at its own. -/
theorem sameBackwards_of_nodup (h : (parts.map PartInfo.offset).Nodup) : SameBackwards parts := by
  intro offset
  have hlength : (group PartInfo.offset offset parts).length ≤ 1 := by
    rw [group, ← List.countP_eq_length_filter]
    have hcount := List.nodup_iff_count_le_one.mp h offset
    rw [List.count, List.countP_map] at hcount
    exact hcount
  rcases hgroup : group PartInfo.offset offset parts with - | ⟨part, - | ⟨next, rest⟩⟩
  · rfl
  · rfl
  · rw [hgroup] at hlength
    exact absurd hlength (by simp)

theorem sortParts_text (hparts : Ascending PartInfo.offset parts) (hone : OneAtZero parts)
    (hsame : SameBackwards parts) (hkeys : parts'.map keyOf = parts.map keyOf) :
    ∃ sorted, sortParts parts' = some sorted ∧ sorted.map keyOf = parts.map keyOf := by
  have hgroup : ∀ k, (group PartInfo.offset k parts').map keyOf = (group PartInfo.offset k parts).map keyOf := by
    intro k
    rw [← group_map keyOf_offset, hkeys, group_map keyOf_offset]
  refine ⟨_, foldlM_partSortAdd ?_, ?_⟩
  · have hlength := congrArg List.length (hgroup 0)
    rw [List.length_map, List.length_map] at hlength
    rw [hlength]
    exact (Nat.zero_add _).le.trans hone
  · rw [map_foldl_insert keyOf_offset, hkeys, List.map_nil]
    apply (ascending_map keyOf_offset hparts).foldl_insert_eq
    intro k
    rw [group_map keyOf_offset]
    exact hsame k

end Sorting

structure GoodDevice (hw : Hardware) (ids : List MtdId) (dev : Device) : Prop where
  id : idFindByMtdId ids dev.id.mtdId = some dev.id
  colon : 0x3a ∉ dev.id.mtdId
  ne_nil : dev.parts ≠ []
  ascending : Ascending PartInfo.offset dev.parts
  oneAtZero : OneAtZero dev.parts
  part : ∀ part ∈ dev.parts, GoodPart hw dev.id part

/-- The number that tells devices apart. -/
def devNum (dev : Device) : DevType × ℕ := (dev.id.type, dev.id.num)

structure Good (hw : Hardware) (ids : List MtdId) (devices : List Device) : Prop where
  device : ∀ dev ∈ devices, GoodDevice hw ids dev
  nodup : (devices.map devNum).Nodup

/-- The lists that the commands can make. -/
inductive Reachable (hw : Hardware) (ids : List MtdId) : List Device → Prop
  | start : Reachable hw ids []
  | parse {mtdparts : CStr} {devices : List Device} :
      parseMtdparts hw ids mtdparts = some devices → Reachable hw ids devices
  | add {devices devices' : List Device} {type : DevType} {num : ℕ} {sizeOffset name : CStr}
      {ro : Option CStr} : Reachable hw ids devices →
      mtdpartsAdd hw ids devices type num sizeOffset name ro = some devices' →
      Reachable hw ids devices'
  | del {devices devices' : List Device} {k pnum : ℕ} : Reachable hw ids devices →
      partDel devices k pnum = some devices' → Reachable hw ids devices'

section Invariant

variable {hw : Hardware} {ids : List MtdId} {id : MtdId} {part part' : PartInfo} {p p' : CStr}

theorem memsizeParse_lt (p : CStr) : (memsizeParse p).1 < 4294967296 := Nat.mod_lt _ (by decide)

theorem sizeParse_lt {size : ℕ} (h : sizeParse p = some (size, p')) : size < 4294967296 := by
  rw [sizeParse] at h
  split_ifs at h with hminus
  · cases h
    decide
  · have hlt := memsizeParse_lt p
    simp only at h
    split_ifs at h
    rw [Option.some.injEq] at h
    rwa [h] at hlt

theorem nameParse_some {name : CStr} (h : nameParse p = some (some name, p')) :
    name ≠ [] ∧ 0x29 ∉ name := by
  rw [nameParse] at h
  split_ifs at h with hopen
  · simp only at h
    split_ifs at h with hclose hempty
    simp only [Option.some.injEq, Prod.mk.injEq] at h
    rw [← h.1]
    refine ⟨hempty, fun hmem ↦ ?_⟩
    have hne := List.mem_takeWhile_imp hmem
    simp at hne
  · cases h

/-- The fields of a partition that the checks of the device do not look at. -/
structure Parsed (part : PartInfo) : Prop where
  size_lt : part.size < 4294967296
  maskFlags : part.maskFlags = 0 ∨ part.maskFlags = mtdWriteableCmd
  name : part.autoName = false → part.name ≠ [] ∧ 0x29 ∉ part.name

theorem parsed_of_partParse (h : partParse p = some (part, p')) : Parsed part := by
  rw [partParse] at h
  simp only [Option.bind_eq_bind, Option.bind_eq_some_iff] at h
  obtain ⟨⟨size, p₁⟩, hsize, ⟨name, p₂⟩, hname, p₃, hend, h⟩ := h
  cases h
  refine ⟨sizeParse_lt hsize, ?_, ?_⟩
  · rw [maskFlagsParse]
    split_ifs
    · exact Or.inr rfl
    · exact Or.inl rfl
  · cases name with
    | none =>
      intro hauto
      cases hauto
    | some name =>
      intro _
      exact nameParse_some hname

theorem goodPart_of_partValidate (h : Parsed part) (hvalid : partValidate hw id part = some part') :
    GoodPart hw id part' := by
  obtain ⟨rfl, hvalid⟩ := partValidate_eq_some.mp hvalid
  refine ⟨hvalid, ?_, ?_, ?_⟩
  · rw [resolveSize]
    split_ifs
    · exact Nat.mod_lt _ (by decide)
    · exact h.size_lt
  · rw [resolveSize]
    split_ifs <;> exact h.maskFlags
  · rw [resolveSize]
    split_ifs <;> exact h.name

theorem Parsed.resolveOffset (h : Parsed part) (offset : ℕ) :
    Parsed (CmdJffs2.resolveOffset offset part) := by
  rw [CmdJffs2.resolveOffset]
  split_ifs
  · exact ⟨h.size_lt, h.maskFlags, h.name⟩
  · exact h

theorem goodPart_of_partsParse {fuel offset : ℕ} {parts : List PartInfo}
    (h : partsParse hw id fuel offset p = some (parts, p')) : ∀ part ∈ parts, GoodPart hw id part := by
  induction fuel generalizing offset p parts with
  | zero => cases h
  | succ fuel ih =>
    rw [partsParse] at h
    split_ifs at h with hstop
    · cases h
      intro part hpart
      cases hpart
    · simp only [Option.bind_eq_bind, Option.bind_eq_some_iff] at h
      obtain ⟨⟨part, p₁⟩, hparse, valid, hvalid, ⟨parts', p₂⟩, hrest, h⟩ := h
      cases h
      intro q hq
      rcases List.mem_cons.mp hq with rfl | hmem
      · exact goodPart_of_partValidate ((parsed_of_partParse hparse).resolveOffset offset) hvalid
      · exact ih hrest q hmem

theorem goodDevice_of_deviceParse {devices : List Device} {dev : Device}
    (h : deviceParse hw ids devices p = some (dev, p')) : GoodDevice hw ids dev := by
  rw [deviceParse] at h
  simp only at h
  split_ifs at h with hcolon
  simp only [Option.bind_eq_bind, Option.bind_eq_some_iff] at h
  obtain ⟨id, hid, ⟨parts, p₁⟩, hparts, h⟩ := h
  simp only at h
  by_cases hne : parts = []
  · rw [if_pos hne] at h
    cases h
  rw [if_neg hne, Option.bind_eq_some_iff] at h
  obtain ⟨sorted, hsorted, h⟩ := h
  cases h
  obtain ⟨hascending, hone, hmem⟩ := good_of_foldlM List.Pairwise.nil (Nat.zero_le 1) hsorted
  have hname : id.mtdId = p.takeWhile (· ≠ 0x3a) := by
    have hfound := List.find?_some hid
    simpa using hfound
  refine ⟨by rw [hname]; exact hid, fun hin ↦ ?_, ?_, hascending, hone, ?_⟩
  · have hne := List.mem_takeWhile_imp (hname ▸ hin)
    simp at hne
  · obtain ⟨q, parts, rfl⟩ := List.exists_cons_of_ne_nil hne
    exact List.ne_nil_of_mem ((hmem q).mpr (Or.inr List.mem_cons_self))
  · intro q hq
    rcases (hmem q).mp hq with hnil | hin
    · cases hnil
    · exact goodPart_of_partsParse hparts q hin

theorem deviceFind_eq_none {devices : List Device} {dev : Device} :
    deviceFind devices dev.id.type dev.id.num = none ↔ devNum dev ∉ devices.map devNum := by
  rw [deviceFind, List.find?_eq_none, List.mem_map]
  simp [devNum]

theorem Good.concat {devices : List Device} {dev : Device} (h : Good hw ids devices)
    (hdev : GoodDevice hw ids dev) (hnew : devNum dev ∉ devices.map devNum) :
    Good hw ids (devices ++ [dev]) := by
  refine ⟨fun d hd ↦ ?_, ?_⟩
  · rcases List.mem_append.mp hd with hin | hlast
    · exact h.device d hin
    · rw [List.mem_singleton.mp hlast]
      exact hdev
  · rw [List.map_append, List.map_singleton, List.nodup_append]
    refine ⟨h.nodup, List.nodup_singleton _, fun a ha b hb ↦ ?_⟩
    rintro rfl
    rw [List.mem_singleton.mp hb] at ha
    exact hnew ha

theorem good_of_devicesParse {fuel : ℕ} {devices devices' : List Device} (hgood : Good hw ids devices)
    (h : devicesParse hw ids fuel devices p = some devices') : Good hw ids devices' := by
  induction fuel generalizing devices p with
  | zero => cases h
  | succ fuel ih =>
    rw [devicesParse] at h
    split_ifs at h with hstop
    · cases h
      exact hgood
    · simp only [Option.bind_eq_bind, Option.bind_eq_some_iff] at h
      obtain ⟨⟨dev, p₁⟩, hdev, h⟩ := h
      simp only at h
      split_ifs at h with hfound
      refine ih (hgood.concat (goodDevice_of_deviceParse hdev) ?_) h
      rw [← deviceFind_eq_none]
      simpa using hfound

theorem Good.set {devices : List Device} {k : ℕ} {dev dev' : Device} (h : Good hw ids devices)
    (hk : devices[k]? = some dev) (hdev : GoodDevice hw ids dev') (hnum : devNum dev' = devNum dev) :
    Good hw ids (devices.set k dev') := by
  refine ⟨fun d hd ↦ ?_, ?_⟩
  · rcases List.mem_or_eq_of_mem_set hd with hin | rfl
    · exact h.device d hin
    · exact hdev
  · rw [List.map_set, hnum]
    obtain ⟨hlt, rfl⟩ := List.getElem?_eq_some_iff.mp hk
    have hlt' : k < (devices.map devNum).length := by rwa [List.length_map]
    have hself : devNum devices[k] = (devices.map devNum)[k] := by rw [List.getElem_map]
    rw [hself, List.set_getElem_self]
    exact h.nodup

theorem goodDevice_of_partAdd {dev dev' : Device} (h : GoodDevice hw ids dev) (hpart : Parsed part)
    (hadd : partAdd hw dev part = some dev') :
    GoodDevice hw ids dev' ∧ devNum dev' = devNum dev := by
  rw [partAdd] at hadd
  simp only [Option.bind_eq_bind, Option.bind_eq_some_iff] at hadd
  obtain ⟨valid, hvalid, parts, hparts, hadd⟩ := hadd
  cases hadd
  have heq := eq_of_partSortAdd hparts
  have hmem : ∀ q, q ∈ parts ↔ q = valid ∨ q ∈ dev.parts := by
    intro q
    rw [heq, KeyOrder.insert, List.mem_orderedInsert]
  refine ⟨⟨h.id, h.colon, ?_, ?_, oneAtZero_partSortAdd h.ascending h.oneAtZero hparts, ?_⟩, rfl⟩
  · exact List.ne_nil_of_mem ((hmem valid).mpr (Or.inl rfl))
  · rw [heq]
    exact h.ascending.insert valid
  · intro q hq
    rcases (hmem q).mp hq with rfl | hin
    · exact goodPart_of_partValidate hpart hvalid
    · exact h.part q hin

theorem good_of_mtdpartsAdd {devices devices' : List Device} {type : DevType} {num : ℕ}
    {sizeOffset name : CStr} {ro : Option CStr} (hgood : Good hw ids devices)
    (h : mtdpartsAdd hw ids devices type num sizeOffset name ro = some devices') :
    Good hw ids devices' := by
  rw [mtdpartsAdd] at h
  simp only [Option.bind_eq_bind, Option.bind_eq_some_iff] at h
  obtain ⟨id, -, h⟩ := h
  split_ifs at h
  rw [Option.bind_eq_some_iff] at h
  obtain ⟨⟨dev, p₁⟩, hdev, h⟩ := h
  have hdev' := goodDevice_of_deviceParse hdev
  rw [deviceMerge] at h
  split at h
  · next hnone =>
    cases h
    apply hgood.concat hdev'
    rw [← deviceFind_eq_none, deviceFind, List.find?_eq_none]
    intro d hd
    have hall := List.findIdx?_eq_none_iff.mp hnone d hd
    simpa using hall
  · next k _ =>
    simp only [Option.bind_eq_bind, Option.bind_eq_some_iff] at h
    obtain ⟨old, hold, part, hpart, merged, hmerged, h⟩ := h
    cases h
    have hgoodPart := hdev'.part part (List.mem_of_mem_head? hpart)
    obtain ⟨hgoodDev, hnum⟩ := goodDevice_of_partAdd (hgood.device old (List.mem_of_getElem? hold))
      ⟨hgoodPart.size_lt, hgoodPart.maskFlags, hgoodPart.name⟩ hmerged
    exact hgood.set hold hgoodDev hnum

theorem good_of_partDel {devices devices' : List Device} {k pnum : ℕ} (hgood : Good hw ids devices)
    (h : partDel devices k pnum = some devices') : Good hw ids devices' := by
  rw [partDel] at h
  simp only [Option.bind_eq_bind, Option.bind_eq_some_iff] at h
  obtain ⟨dev, hdev, h⟩ := h
  split_ifs at h with hlt hone
  · cases h
    refine ⟨fun d hd ↦ hgood.device d (List.mem_of_mem_eraseIdx hd), ?_⟩
    exact hgood.nodup.sublist ((List.eraseIdx_sublist _ _).map _)
  · cases h
    have hold := hgood.device dev (List.mem_of_getElem? hdev)
    have hsub := List.eraseIdx_sublist dev.parts pnum
    refine hgood.set hdev ⟨hold.id, hold.colon, ?_, hold.ascending.sublist hsub, ?_, ?_⟩ rfl
    · intro hnil
      have hlength := List.length_eraseIdx_of_lt hlt
      have hzero : (dev.parts.eraseIdx pnum).length = 0 := List.length_eq_zero_iff.mpr hnil
      omega
    · exact (hsub.filter _).length_le.trans hold.oneAtZero
    · exact fun q hq ↦ hold.part q (hsub.subset hq)

theorem Reachable.good {devices : List Device} (h : Reachable hw ids devices) :
    Good hw ids devices := by
  have hnil : Good hw ids [] := ⟨fun _ hdev ↦ absurd hdev List.not_mem_nil, List.nodup_nil⟩
  induction h with
  | start => exact hnil
  | parse h =>
    rw [parseMtdparts] at h
    split_ifs at h with hprefix
    simp only at h
    split_ifs at h
    exact good_of_devicesParse hnil h
  | add _ h ih => exact good_of_mtdpartsAdd ih h
  | del _ h ih => exact good_of_partDel ih h

end Invariant

/-- A device without generated names. -/
def deviceKey (dev : Device) : Device := { dev with parts := dev.parts.map keyOf }

/-- The text that a buffer of enough room takes is read back to the same devices. -/
def RoundTrips (hw : Hardware) (ids : List MtdId) (devices : List Device) : Prop :=
  ∃ room, ∀ buflen, room ≤ buflen → ∃ text devices', generateMtdparts devices buflen = some text ∧
    parseMtdparts hw ids text = some devices' ∧ devices'.map deviceKey = devices.map deviceKey

/-- The devices that can be read back as they are. -/
structure Restorable (dev : Device) : Prop where
  readable : Readable dev.parts
  sameBackwards : SameBackwards dev.parts

section Devices

variable {hw : Hardware} {ids : List MtdId} {rest : CStr}

theorem partsText_length (prev : Option PartInfo) (parts : List PartInfo) :
    parts.length ≤ (partsText prev parts).length := by
  induction parts generalizing prev with
  | nil => exact Nat.le_refl 0
  | cons part parts ih =>
    have hsize : memsizeFormat part.size ≠ [] := by
      intro hnil
      have hfirst := first_memsizeFormat part.size []
      rw [hnil] at hfirst
      exact absurd hfirst (by decide)
    have hpos := List.length_pos_iff.mpr hsize
    have htail := ih (some part)
    simp only [partsText, partText, List.length_append, List.length_cons]
    omega

theorem deviceParse_text {dev : Device} {devices : List Device} (h : GoodDevice hw ids dev)
    (hrestore : Restorable dev) (hnew : devNum dev ∉ devices.map devNum) (hrest : Closes rest) :
    ∃ dev', deviceParse hw ids devices (deviceText dev ++ rest) =
        some (dev', if first rest = 0x3b then rest.drop 1 else rest) ∧
      deviceKey dev' = deviceKey dev := by
  have htext : deviceText dev ++ rest = dev.id.mtdId ++ 0x3a :: (partsText none dev.parts ++ rest) := by
    simp [deviceText]
  obtain ⟨htake, hdrop⟩ := takeWhile_append_of_notMem h.colon (partsText none dev.parts ++ rest)
  have hstart : startOffset devices dev.id = endOf none := by
    rw [startOffset, deviceFind_eq_none.mpr hnew]
    rfl
  -- the fuel is enough for the partitions
  obtain ⟨fuel, hfuel⟩ : ∃ fuel, (0x3a :: (partsText none dev.parts ++ rest)).length + 1 =
      dev.parts.length + fuel + 1 := by
    have hlength := partsText_length none dev.parts
    refine ⟨(partsText none dev.parts ++ rest).length - dev.parts.length + 1, ?_⟩
    rw [List.length_cons, List.length_append]
    omega
  obtain ⟨parts', hparse, hkeys⟩ := partsParse_text none fuel h.part hrestore.readable hrest
  obtain ⟨sorted, hsorted, hsame⟩ :=
    sortParts_text h.ascending h.oneAtZero hrestore.sameBackwards hkeys
  have hne : parts' ≠ [] := by
    rintro rfl
    exact h.ne_nil (List.map_eq_nil_iff.mp hkeys.symm)
  refine ⟨⟨dev.id, sorted⟩, ?_, ?_⟩
  · rw [htext, deviceParse, htake, hdrop]
    simp only
    rw [if_neg (List.cons_ne_nil _ _), h.id]
    simp only [Option.bind_eq_bind, Option.bind_some]
    rw [hstart, hfuel, List.drop_one, List.tail_cons, hparse]
    simp only [Option.bind_some]
    rw [if_neg hne, hsorted]
    rfl
  · rw [deviceKey, deviceKey, hsame]

theorem first_devicesText {dev : Device} {devices : List Device} :
    first (devicesText (dev :: devices)) ≠ 0 := by
  have hnul := dev.id.nulFree
  rw [devicesText, deviceText]
  cases hid : dev.id.mtdId with
  | nil => exact (by decide : (0x3a : UInt8) ≠ 0)
  | cons c cs =>
    rw [hid] at hnul
    exact hnul c List.mem_cons_self

theorem devicesParse_text {devices : List Device} (acc : List Device) (fuel : ℕ)
    (hgood : ∀ dev ∈ devices, GoodDevice hw ids dev) (hrestore : ∀ dev ∈ devices, Restorable dev)
    (hnodup : (acc.map devNum ++ devices.map devNum).Nodup) :
    ∃ devices', devicesParse hw ids (devices.length + fuel + 1) acc (devicesText devices) =
      some (acc ++ devices') ∧ devices'.map deviceKey = devices.map deviceKey := by
  induction devices generalizing acc with
  | nil =>
    refine ⟨[], ?_, rfl⟩
    rw [devicesText, devicesParse, List.append_nil]
    rfl
  | cons dev devices ih =>
    rw [List.map_cons] at hnodup
    have hnew : devNum dev ∉ acc.map devNum := by
      intro hin
      exact (List.nodup_append.mp hnodup).2.2 _ hin _ List.mem_cons_self rfl
    have hcloses : Closes ((if devices = [] then [] else [0x3b]) ++ devicesText devices) := by
      split_ifs with hnil
      · rw [hnil]
        exact List.mem_cons_of_mem _ List.mem_cons_self
      · exact List.mem_cons_self
    obtain ⟨dev', hparse, hkey⟩ := deviceParse_text (hgood dev List.mem_cons_self)
      (hrestore dev List.mem_cons_self) hnew hcloses
    have hid : dev'.id = dev.id := (Device.mk.inj hkey).1
    have hnum : devNum dev' = devNum dev := by rw [devNum, devNum, hid]
    obtain ⟨devices', hdevices, hkeys⟩ := ih (acc ++ [dev'])
      (fun d hd ↦ hgood d (List.mem_cons_of_mem dev hd))
      (fun d hd ↦ hrestore d (List.mem_cons_of_mem dev hd))
      (by
        rw [List.map_append, List.map_singleton, hnum, List.append_assoc, List.singleton_append]
        exact hnodup)
    refine ⟨dev' :: devices', ?_, ?_⟩
    · have hnone : deviceFind acc dev'.id.type dev'.id.num = none := by
        rw [hid]
        exact deviceFind_eq_none.mpr hnew
      rw [devicesParse, if_neg first_devicesText, devicesText, hparse]
      simp only [Option.bind_eq_bind, Option.bind_some]
      rw [hnone, if_neg (by decide)]
      have hdrop : (if first ((if devices = [] then [] else [0x3b]) ++ devicesText devices) = 0x3b then
          ((if devices = [] then [] else [0x3b]) ++ devicesText devices).drop 1
          else (if devices = [] then [] else [0x3b]) ++ devicesText devices) = devicesText devices := by
        by_cases hnil : devices = []
        · subst hnil
          rfl
        · rw [if_neg hnil]
          rfl
      rw [hdrop, show (dev :: devices).length + fuel = devices.length + fuel + 1 by
        rw [List.length_cons]; omega, hdevices, List.append_assoc, List.singleton_append]
    · rw [List.map_cons, List.map_cons, hkeys, hkey]

theorem devicesText_length (devices : List Device) : devices.length ≤ (devicesText devices).length := by
  induction devices with
  | nil => exact Nat.le_refl 0
  | cons dev devices ih =>
    simp only [devicesText, deviceText, List.length_append, List.length_cons]
    omega

theorem roundTrips_of_restorable {devices : List Device} (h : Reachable hw ids devices)
    (hne : devices ≠ []) (hrestore : ∀ dev ∈ devices, Restorable dev) :
    RoundTrips hw ids devices := by
  have hgood := h.good
  obtain ⟨fuel, hfuel⟩ : ∃ fuel, (devicesText devices).length + 1 = devices.length + fuel + 1 := by
    have hlength := devicesText_length devices
    exact ⟨(devicesText devices).length - devices.length, by omega⟩
  obtain ⟨devices', hparse, hkeys⟩ :=
    devicesParse_text [] fuel hgood.device hrestore hgood.nodup
  refine ⟨(devicesText devices).length + 1, fun buflen hroom ↦
    ⟨_, devices', generateMtdparts_eq hne (by omega), ?_, hkeys⟩⟩
  have hprefix : hasPrefix (ascii "mtdparts=" ++ devicesText devices) (ascii "mtdparts=") = true := by
    simp [hasPrefix]
  have hdrop : (ascii "mtdparts=" ++ devicesText devices).drop 9 = devicesText devices := rfl
  have hfirst : first (devicesText devices) ≠ 0 := by
    obtain ⟨dev, devices, rfl⟩ := List.exists_cons_of_ne_nil hne
    exact first_devicesText
  rw [parseMtdparts, if_pos hprefix, hdrop]
  simp only
  rw [if_neg hfirst, hfuel]
  exact hparse

end Devices

section Sample

/-- Two flash chips: one that ends with a small sector, and one of 4 GiB less a byte. -/
def sampleHw : Hardware where
  flashInfo num := if num = 0 then ⟨[0, 65536, 131072, 262144], 263168⟩
    else ⟨[0, 4096, 8192], 4294967295⟩
  erasesize := none

def sampleIds : List MtdId :=
  [⟨.nor, 0, 263168, ascii "nor", by decide, by decide⟩,
    ⟨.nor, 1, 4294967295, ascii "big", by decide, by decide⟩]

def sampleParse (s : String) : List Device := (parseMtdparts sampleHw sampleIds (ascii s)).getD []

theorem roundTrips_sample : ∃ devices,
    parseMtdparts sampleHw sampleIds (ascii "mtdparts=nor:64k,128k@0x20000(root)ro;big:4k(a)") =
      some devices ∧ devices.length = 2 ∧ RoundTrips sampleHw sampleIds devices := by
  have hsome : (parseMtdparts sampleHw sampleIds
      (ascii "mtdparts=nor:64k,128k@0x20000(root)ro;big:4k(a)")).isSome = true := by
    decide +kernel
  obtain ⟨devices, hdevices⟩ := Option.isSome_iff_exists.mp hsome
  have hget : devices = sampleParse "mtdparts=nor:64k,128k@0x20000(root)ro;big:4k(a)" := by
    rw [sampleParse, hdevices]
    rfl
  have hfacts : (sampleParse "mtdparts=nor:64k,128k@0x20000(root)ro;big:4k(a)").length = 2 ∧
      ∀ dev ∈ sampleParse "mtdparts=nor:64k,128k@0x20000(root)ro;big:4k(a)",
        (∀ part ∈ dev.parts, minPartSize ≤ part.size) ∧
        (∀ part ∈ dev.parts.dropLast, part.size ≠ sizeRemaining) ∧
        (dev.parts.map PartInfo.offset).Nodup := by
    decide +kernel
  rw [← hget] at hfacts
  refine ⟨devices, hdevices, hfacts.1, roundTrips_of_restorable (.parse hdevices) ?_ ?_⟩
  · rintro rfl
    exact absurd hfacts.1 (by decide)
  · intro dev hdev
    obtain ⟨hmin, hremaining, hnodup⟩ := hfacts.2 dev hdev
    exact ⟨⟨hmin, hremaining⟩, sameBackwards_of_nodup hnodup⟩

theorem RoundTrips.parse {hw : Hardware} {ids : List MtdId} {devices : List Device}
    (hne : devices ≠ []) (h : RoundTrips hw ids devices) :
    (parseMtdparts hw ids (ascii "mtdparts=" ++ devicesText devices)).map (List.map deviceKey) =
      some (devices.map deviceKey) := by
  obtain ⟨room, h⟩ := h
  obtain ⟨text, devices', htext, hparse, hkeys⟩ :=
    h (room + ((devicesText devices).length + 1)) (Nat.le_add_right _ _)
  rw [generateMtdparts_eq hne (by omega), Option.some.injEq] at htext
  rw [htext, hparse, Option.map_some, hkeys]

/-- The list without devices, two partitions at one offset, a last partition of 1 KiB, and a
partition whose size stands for the rest of the device. -/
theorem not_roundTrips :
    (∃ devices, parseMtdparts sampleHw sampleIds (ascii "mtdparts=nor:64k") = some devices ∧
      partDel devices 0 0 = some [] ∧ ¬ RoundTrips sampleHw sampleIds []) ∧
    ∀ s ∈ ["mtdparts=nor:64k@64k(a),192k@64k(b)", "mtdparts=nor:64k,-@256k(b)",
        "mtdparts=big:4k@4k,-@0"],
      ∃ devices, parseMtdparts sampleHw sampleIds (ascii s) = some devices ∧
        ¬ RoundTrips sampleHw sampleIds devices := by
  refine ⟨⟨sampleParse "mtdparts=nor:64k", by decide +kernel, by decide +kernel, ?_⟩, ?_⟩
  · rintro ⟨room, h⟩
    obtain ⟨text, devices', htext, hparse, -⟩ := h room (Nat.le_refl room)
    cases htext
    cases hparse
  · intro s hs
    have hfacts : ∀ s ∈ ["mtdparts=nor:64k@64k(a),192k@64k(b)", "mtdparts=nor:64k,-@256k(b)",
        "mtdparts=big:4k@4k,-@0"], parseMtdparts sampleHw sampleIds (ascii s) = some (sampleParse s) ∧
        sampleParse s ≠ [] ∧
        (parseMtdparts sampleHw sampleIds (ascii "mtdparts=" ++ devicesText (sampleParse s))).map
          (List.map deviceKey) ≠ some ((sampleParse s).map deviceKey) := by
      decide +kernel
    obtain ⟨hparse, hne, hdiffer⟩ := hfacts s hs
    exact ⟨sampleParse s, hparse, fun h ↦ hdiffer (h.parse hne)⟩

end Sample

end UBoot.Common.MtdpartsRoundTrip
