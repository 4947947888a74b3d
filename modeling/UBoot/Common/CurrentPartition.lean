import Mathlib.Data.List.Basic
import UBoot.Common.CmdJffs2
import UBoot.Env.StoreRefinement
import UBoot.Lib.KeyOrder

namespace UBoot.Common.CurrentPartition

open Lib.CString Lib.KeyOrder LibGeneric.Vsprintf CmdJffs2 Env.Layout Env.Nvedit Env.StoreRefinement

/-- A `struct part_info` at its address. -/
structure Part where
  addr : ℕ
  info : PartInfo
deriving DecidableEq

/-- A `struct mtd_device` at its address. -/
structure MtdDevice where
  addr : ℕ
  id : MtdId
  parts : List Part
deriving DecidableEq

def MtdDevice.numParts (dev : MtdDevice) : UInt16 := UInt16.ofNat dev.parts.length

/-- The variables of `cmd_jffs2.c` for the current partition, with the environment. `refused` records
that a call of `setenv` has failed. -/
structure State where
  devices : List MtdDevice
  currentDev : Option ℕ
  currentPartnum : UInt8
  lastPartition : CStr
  globals : Globals
  refused : Bool

def State.device (s : State) (a : ℕ) : Option MtdDevice := s.devices.find? fun dev ↦ dev.addr = a

def jffs2PartInfo (dev : MtdDevice) (partNum : UInt8) : Option Part := dev.parts[partNum.toNat]?

/-- The partition that `current_dev` and `current_partnum` denote. -/
def State.current (s : State) : Option Part :=
  s.currentDev.bind fun a ↦ (s.device a).bind fun dev ↦ jffs2PartInfo dev s.currentPartnum

def mtdDevType : DevType → CStr
  | .nor => ascii "nor"
  | .nand => ascii "nand"

section

variable (ca : ℕ → CStr → Bool)

def setenv (s : State) (name : CStr) (value : Option CStr) : Option State :=
  (doSetenv ca s.globals name [value]).map fun (r, g) ↦
    { s with globals := g, refused := s.refused || r ≠ 0 }

/-- The number of the current partition among all of them, in 16 bits. -/
def mtddevnum (devices : List MtdDevice) (a : ℕ) (partnum : UInt8) : UInt16 :=
  (devices.takeWhile fun dev ↦ dev.addr ≠ a).foldl (fun n dev ↦ n + dev.numParts) 0 +
    partnum.toUInt16

/-- It is `none` where the null pointer is used. -/
def indexPartitions (s : State) : Option State :=
  match s.currentDev with
  | some a => do
    let num := numberDec (mtddevnum s.devices a s.currentPartnum).toNat
    let s ← if (s.device a).isSome then setenv ca s (ascii "mtddevnum") num else some s
    let part ← s.current
    setenv ca s (ascii "mtddevname") (some part.info.name)
  | none => do
    let s ← setenv ca s (ascii "mtddevnum") none
    setenv ca s (ascii "mtddevname") none

/-- The text for the variable `partition`. -/
def partitionText (dev : MtdDevice) (partnum : UInt8) : CStr :=
  mtdDevType dev.id.type ++ numberDec dev.id.num ++ 0x2c :: numberDec partnum.toNat

def currentSave (s : State) : Option State :=
  match s.currentDev with
  | some a => do
    let dev ← s.device a
    let buf := partitionText dev s.currentPartnum
    let s ← setenv ca s (ascii "partition") (some buf)
    indexPartitions ca { s with lastPartition := buf.take 16 }
  | none => do
    let s ← setenv ca s (ascii "partition") none
    indexPartitions ca { s with lastPartition := [] }

def deviceDel (s : State) (a : ℕ) : Option State :=
  let devices := s.devices.eraseP fun dev ↦ dev.addr = a
  if s.currentDev = some a then
    match devices with
    | [] => currentSave ca { s with devices := [], currentDev := none }
    | dev :: devices =>
      currentSave ca
        { s with devices := dev :: devices, currentDev := some dev.addr, currentPartnum := 0 }
  else indexPartitions ca { s with devices := devices }

/-- The list of a device is another one. -/
def State.setParts (s : State) (a : ℕ) (parts : List Part) : State :=
  { s with devices := s.devices.map fun dev ↦ if dev.addr = a then { dev with parts := parts } else dev }

/-- The partition at the address `p` of the device at `a` is deleted. -/
def partDel (s : State) (a p : ℕ) : Option State := do
  let dev ← s.device a
  let part ← dev.parts.find? fun part ↦ part.addr = p
  if dev.numParts = 1 then deviceDel ca s a
  else
    let parts := dev.parts.eraseP fun part ↦ part.addr = p
    let s' := s.setParts a parts
    match if s.currentDev = some a then jffs2PartInfo dev s.currentPartnum else none with
    | some currPi =>
      if currPi.addr = p then currentSave ca { s' with currentPartnum := 0 }
      else if part.info.offset ≤ currPi.info.offset then
        currentSave ca { s' with currentPartnum := s.currentPartnum - 1 }
      else currentSave ca s'
    | none => indexPartitions ca s'

/-- The loop of `part_sort_add`, with the partition that the new one is put in front of. -/
def sortAdd (part : Part) : List Part → Option (List Part × Option Part)
  | [] => some ([part], none)
  | pi :: parts =>
    if part.info.offset = pi.info.offset ∧ pi.info.offset = 0 then none
    else if part.info.offset ≤ pi.info.offset then some (part :: pi :: parts, some pi)
    else (sortAdd part parts).map fun r ↦ (pi :: r.1, r.2)

/-- The new partition for the device at `a`; the result is that of the function. -/
def partSortAdd (s : State) (a : ℕ) (part : Part) : Option (ℕ × State) := do
  let dev ← s.device a
  match sortAdd part dev.parts with
  | none => some (1, s)
  | some (parts, pi) =>
    let s' := s.setParts a parts
    let currPi := if s.currentDev = some a then jffs2PartInfo dev s.currentPartnum else none
    if (pi.bind fun pi ↦ currPi.map fun currPi ↦ decide (pi.info.offset ≤ currPi.info.offset)) =
        some true then
      (currentSave ca { s' with currentPartnum := s.currentPartnum + 1 }).map (Prod.mk 0)
    else (indexPartitions ca s').map (Prod.mk 0)

inductive Op
  | partSortAdd (a : ℕ) (part : Part)
  | partDel (a p : ℕ)

def step (s : State) : Op → Option (ℕ × State)
  | .partSortAdd a part => partSortAdd ca s a part
  | .partDel a p => (partDel ca s a p).map (Prod.mk 0)

end

def State.partition (s : State) : Option CStr :=
  s.currentDev.bind fun a ↦ (s.device a).map fun dev ↦ partitionText dev s.currentPartnum

/-- The number of the current partition, among all of them. -/
def State.devnum (s : State) : Option CStr :=
  s.currentDev.bind fun a ↦ (s.device a).map fun _ ↦ numberDec
    (((s.devices.takeWhile fun dev ↦ dev.addr ≠ a).flatMap MtdDevice.parts).length +
      s.currentPartnum.toNat)

def State.devname (s : State) : Option CStr := s.current.map fun part ↦ part.info.name

/-- The variables for the number and the name agree with the current partition. -/
structure Indexed (s : State) : Prop where
  mtddevnum : getenv s.globals (ascii "mtddevnum") = some s.devnum
  mtddevname : getenv s.globals (ascii "mtddevname") = some s.devname

structure Agrees (s : State) : Prop extends Indexed s where
  partition : getenv s.globals (ascii "partition") = some s.partition

/-- A device list as the commands make it, with its current partition. -/
structure Valid (s : State) : Prop where
  devAddrs : (s.devices.map MtdDevice.addr).Nodup
  partAddrs : ((s.devices.flatMap MtdDevice.parts).map Part.addr).Nodup
  nonempty : ∀ dev ∈ s.devices, dev.parts ≠ []
  sorted : ∀ dev ∈ s.devices, Ascending (fun part : Part ↦ part.info.offset) dev.parts
  names : ∀ dev ∈ s.devices, ∀ part ∈ dev.parts, NulFree part.info.name
  total : (s.devices.flatMap MtdDevice.parts).length < 65536
  current : (s.devices = [] ∧ s.currentDev = none) ∨ s.current.isSome
  env : WellFormed s.globals.env.data

/-- The same list and the same current partition. -/
structure SameList (s s' : State) : Prop where
  devices : s'.devices = s.devices
  currentDev : s'.currentDev = s.currentDev
  currentPartnum : s'.currentPartnum = s.currentPartnum

section

variable (ca : ℕ → CStr → Bool) {s s' s'' : State}

theorem SameList.trans (h : SameList s s') (h' : SameList s' s'') : SameList s s'' :=
  ⟨h'.devices.trans h.devices, h'.currentDev.trans h.currentDev,
    h'.currentPartnum.trans h.currentPartnum⟩

theorem SameList.device (h : SameList s s') (a : ℕ) : s'.device a = s.device a := by
  rw [State.device, State.device, h.devices]

theorem SameList.current (h : SameList s s') : s'.current = s.current := by
  simp only [State.current, h.currentDev, h.currentPartnum, h.device]

theorem SameList.partition (h : SameList s s') : s'.partition = s.partition := by
  simp only [State.partition, h.currentDev, h.currentPartnum, h.device]

theorem SameList.devnum (h : SameList s s') : s'.devnum = s.devnum := by
  simp only [State.devnum, h.currentDev, h.currentPartnum, h.device, h.devices]

theorem SameList.devname (h : SameList s s') : s'.devname = s.devname := by
  rw [State.devname, State.devname, h.current]

theorem numberDec_nulFree (n : ℕ) : NulFree (numberDec n) := by
  unfold numberDec
  split
  · decide
  · intro c hc
    obtain ⟨d, hd, rfl⟩ := List.mem_map.mp hc
    have hlt := Nat.digits_lt_base (by decide) (List.mem_reverse.mp hd)
    intro hzero
    have hnat := congrArg UInt8.toNat hzero
    rw [UInt8.toNat_ofNat_of_lt' (by change 48 + d < 256; omega)] at hnat
    change 48 + d = 0 at hnat
    omega

theorem partitionText_nulFree (dev : MtdDevice) (partnum : UInt8) :
    NulFree (partitionText dev partnum) := by
  intro c hc
  simp only [partitionText, List.mem_append, List.mem_cons] at hc
  have htype : NulFree (mtdDevType dev.id.type) := by
    cases dev.id.type <;> decide
  rcases hc with (hc | hc) | rfl | hc
  · exact htype c hc
  · exact numberDec_nulFree _ c hc
  · decide
  · exact numberDec_nulFree _ c hc

/-- The variables that `current_save` sets. -/
def names : List CStr := [ascii "partition", ascii "mtddevnum", ascii "mtddevname"]

theorem doSetenv_null {g : Globals} {name : CStr} (hname : name ∉ Env.Store.reserved) :
    doSetenv ca g name [none] = doSetenv ca g name [] := by
  unfold doSetenv
  congr 1
  funext found
  cases found.oldval with
  | none => rfl
  | some val => rw [Env.Store.permit_free hname, Env.Store.permit_free hname]; rfl

theorem setenv_spec (hw : WellFormed s.globals.env.data) {name : CStr} (hname : name ∈ names)
    (value : Option CStr) (hvalue : ∀ v ∈ value, NulFree v) :
    ∃ s', setenv ca s name value = some s' ∧ SameList s s' ∧ s'.lastPartition = s.lastPartition ∧
      WellFormed s'.globals.env.data ∧ (s'.refused = false → s.refused = false ∧
        getenv s'.globals name = some value ∧
        ∀ k ∈ names, k ≠ name → getenv s'.globals k = getenv s.globals k) := by
  have hplain : ∀ name ∈ names, name ≠ [] ∧ NulFree name ∧ eqSign ∉ name ∧
      name ∉ Env.Store.reserved := by decide
  obtain ⟨hne, hnul, heq, hfree⟩ := hplain name hname
  have hc : (⟨name, value.toList⟩ : Call).Plain := by
    refine ⟨hne, hnul, heq, hfree, ?_⟩
    intro v hv
    exact hvalue v (Option.mem_toList.mp hv)
  obtain ⟨r, g, hrun, hw', -, heffect⟩ := plain_step hc ca hw
  have hset : doSetenv ca s.globals name [value] = some (r, g) := by
    cases value with
    | none => exact (doSetenv_null ca hfree).trans hrun
    | some v => exact hrun
  refine ⟨{ s with globals := g, refused := s.refused || r ≠ 0 }, ?_, ⟨rfl, rfl, rfl⟩, rfl, hw', ?_⟩
  · rw [setenv, hset, Option.map_some]
  · intro hrefused
    rw [Bool.or_eq_false_iff, decide_eq_false_iff_not, not_not] at hrefused
    obtain ⟨hrefused, hr⟩ := hrefused
    refine ⟨hrefused, ?_, ?_⟩
    · cases value with
      | none => exact heffect.deleted rfl
      | some v =>
        have hjoined : Env.SetenvSpec.joined [v] = v := by simp [Env.SetenvSpec.joined]
        exact (heffect.set (List.cons_ne_nil _ _) hr).trans (congrArg (fun v ↦ some (some v)) hjoined)
    · intro k hk hkne
      obtain ⟨-, hknul, hkeq, -⟩ := hplain k hk
      exact heffect.others (.inr hr) k hknul hkeq hkne

theorem find_of_current {part : Part} (h : s.current = some part) :
    ∃ a dev, s.currentDev = some a ∧ s.device a = some dev ∧
      jffs2PartInfo dev s.currentPartnum = some part := by
  obtain ⟨a, ha, h⟩ := Option.bind_eq_some_iff.mp h
  obtain ⟨dev, hdev, h⟩ := Option.bind_eq_some_iff.mp h
  exact ⟨a, dev, ha, hdev, h⟩

theorem mtddevnum_toNat (devices : List MtdDevice) (a : ℕ) (partnum : UInt8)
    (h : ((devices.takeWhile fun dev ↦ dev.addr ≠ a).flatMap MtdDevice.parts).length +
      partnum.toNat < 65536) :
    (mtddevnum devices a partnum).toNat =
      ((devices.takeWhile fun dev ↦ dev.addr ≠ a).flatMap MtdDevice.parts).length +
        partnum.toNat := by
  have hfold : ∀ (l : List MtdDevice) (n : UInt16), (l.flatMap MtdDevice.parts).length + n.toNat < 65536 →
      (l.foldl (fun n dev ↦ n + dev.numParts) n).toNat =
        (l.flatMap MtdDevice.parts).length + n.toNat := by
    intro l
    induction l with
    | nil => intro n _; exact (Nat.zero_add _).symm
    | cons dev l ih =>
      intro n hlt
      rw [List.flatMap_cons, List.length_append] at hlt ⊢
      have hdev : (n + dev.numParts).toNat = n.toNat + dev.parts.length := by
        rw [MtdDevice.numParts, UInt16.toNat_add, UInt16.toNat_ofNat_of_lt' (by change _ < 65536; omega),
          Nat.mod_eq_of_lt (by omega)]
      rw [List.foldl_cons, ih _ (by omega), hdev]
      omega
  have hzero : (0 : UInt16).toNat = 0 := rfl
  rw [mtddevnum, UInt16.toNat_add, hfold _ _ (by omega), UInt8.toNat_toUInt16,
    Nat.mod_eq_of_lt (by omega), hzero, Nat.add_zero]

/-- What the two functions that write the environment need. -/
structure Ready (s : State) : Prop where
  env : WellFormed s.globals.env.data
  current : s.currentDev = none ∨ ∃ part, s.current = some part ∧ NulFree part.info.name
  total : ∀ a ∈ s.currentDev, ((s.devices.takeWhile fun dev ↦ dev.addr ≠ a).flatMap
    MtdDevice.parts).length + s.currentPartnum.toNat < 65536

theorem Ready.congr (h : Ready s) (hs : SameList s s') (hw : WellFormed s'.globals.env.data) :
    Ready s' := by
  refine ⟨hw, ?_, ?_⟩
  · rw [hs.currentDev, hs.current]
    exact h.current
  · rw [hs.currentDev, hs.devices, hs.currentPartnum]
    exact h.total

theorem indexPartitions_spec (h : Ready s) :
    ∃ s', indexPartitions ca s = some s' ∧ SameList s s' ∧ WellFormed s'.globals.env.data ∧
      s'.lastPartition = s.lastPartition ∧
      (s'.refused = false → s.refused = false ∧ Indexed s' ∧
        getenv s'.globals (ascii "partition") = getenv s.globals (ascii "partition")) := by
  rcases h.current with hnone | ⟨part, hpart, hname⟩
  · obtain ⟨s₁, hset₁, hsame₁, hlast₁, hw₁, h₁⟩ := setenv_spec ca h.env
      (show ascii "mtddevnum" ∈ names by decide) none nofun
    obtain ⟨s₂, hset₂, hsame₂, hlast₂, hw₂, h₂⟩ := setenv_spec ca hw₁
      (show ascii "mtddevname" ∈ names by decide) none nofun
    have hsame := hsame₁.trans hsame₂
    refine ⟨s₂, ?_, hsame, hw₂, hlast₂.trans hlast₁, ?_⟩
    · rw [indexPartitions, hnone]
      change (setenv ca s (ascii "mtddevnum") none).bind _ = _
      rw [hset₁]
      exact hset₂
    · intro hrefused
      obtain ⟨hrefused₁, hname₂, hothers₂⟩ := h₂ hrefused
      obtain ⟨hrefused₀, hname₁, hothers₁⟩ := h₁ hrefused₁
      refine ⟨hrefused₀, ⟨?_, ?_⟩, ?_⟩
      · rw [hothers₂ _ (by decide) (by decide), hname₁, hsame.devnum, State.devnum, hnone]
        rfl
      · rw [hname₂, hsame.devname, State.devname, State.current, hnone]
        rfl
      · rw [hothers₂ _ (by decide) (by decide), hothers₁ _ (by decide) (by decide)]
  · obtain ⟨a, dev, ha, hdev, -⟩ := find_of_current hpart
    have hnum := mtddevnum_toNat s.devices a s.currentPartnum (h.total a ha)
    obtain ⟨s₁, hset₁, hsame₁, hlast₁, hw₁, h₁⟩ := setenv_spec ca h.env
      (show ascii "mtddevnum" ∈ names by decide)
      (some (numberDec (mtddevnum s.devices a s.currentPartnum).toNat))
      (fun v hv ↦ Option.some.inj hv ▸ numberDec_nulFree _)
    obtain ⟨s₂, hset₂, hsame₂, hlast₂, hw₂, h₂⟩ := setenv_spec ca hw₁
      (show ascii "mtddevname" ∈ names by decide) (some part.info.name)
      (fun v hv ↦ Option.some.inj hv ▸ hname)
    have hsame := hsame₁.trans hsame₂
    refine ⟨s₂, ?_, hsame, hw₂, hlast₂.trans hlast₁, ?_⟩
    · rw [indexPartitions, ha]
      simp only [hdev, Option.isSome_some, if_true]
      rw [hset₁]
      change (s₁.current.bind _) = _
      rw [hsame₁.current, hpart]
      exact hset₂
    · intro hrefused
      obtain ⟨hrefused₁, hname₂, hothers₂⟩ := h₂ hrefused
      obtain ⟨hrefused₀, hname₁, hothers₁⟩ := h₁ hrefused₁
      refine ⟨hrefused₀, ⟨?_, ?_⟩, ?_⟩
      · rw [hothers₂ _ (by decide) (by decide), hname₁, hsame.devnum, State.devnum, ha]
        simp only [Option.bind_some, hdev, Option.map_some, hnum]
      · rw [hname₂, hsame.devname, State.devname, hpart]
        rfl
      · rw [hothers₂ _ (by decide) (by decide), hothers₁ _ (by decide) (by decide)]

theorem currentSave_spec (h : Ready s) :
    ∃ s', currentSave ca s = some s' ∧ SameList s s' ∧ WellFormed s'.globals.env.data ∧
      (s'.refused = false → s.refused = false ∧ Agrees s') := by
  -- the variable `partition`, then the other two
  have hsave : ∀ (value : Option CStr) (last : CStr), (∀ v ∈ value, NulFree v) →
      s.partition = value → ∃ s₁ s', setenv ca s (ascii "partition") value = some s₁ ∧
        indexPartitions ca { s₁ with lastPartition := last } = some s' ∧ SameList s s' ∧
        WellFormed s'.globals.env.data ∧ (s'.refused = false → s.refused = false ∧ Agrees s') := by
    intro value last hvalue hpartition
    obtain ⟨s₁, hset₁, hsame₁, -, hw₁, h₁⟩ := setenv_spec ca h.env
      (show ascii "partition" ∈ names by decide) value hvalue
    have hsame₁' : SameList s { s₁ with lastPartition := last } :=
      ⟨hsame₁.devices, hsame₁.currentDev, hsame₁.currentPartnum⟩
    obtain ⟨s', hindex, hsame', hw', -, h'⟩ := indexPartitions_spec ca
      (h.congr hsame₁' hw₁)
    have hsame := hsame₁'.trans hsame'
    refine ⟨s₁, s', hset₁, hindex, hsame, hw', ?_⟩
    intro hrefused
    obtain ⟨hrefused₁, hindexed, hpart⟩ := h' hrefused
    obtain ⟨hrefused₀, hname, -⟩ := h₁ hrefused₁
    refine ⟨hrefused₀, ⟨hindexed, ?_⟩⟩
    rw [hpart, hsame.partition, hpartition]
    exact hname
  rcases h.current with hnone | ⟨part, hpart, -⟩
  · obtain ⟨s₁, s', hset, hindex, hrest⟩ := hsave none [] nofun (by
      rw [State.partition, hnone]
      rfl)
    refine ⟨s', ?_, hrest⟩
    rw [currentSave, hnone]
    change (setenv ca s (ascii "partition") none).bind _ = _
    rw [hset]
    exact hindex
  · obtain ⟨a, dev, ha, hdev, -⟩ := find_of_current hpart
    obtain ⟨s₁, s', hset, hindex, hrest⟩ := hsave (some (partitionText dev s.currentPartnum))
      ((partitionText dev s.currentPartnum).take 16)
      (fun v hv ↦ Option.some.inj hv ▸ partitionText_nulFree _ _) (by
        rw [State.partition, ha, Option.bind_some, hdev]
        rfl)
    refine ⟨s', ?_, hrest⟩
    rw [currentSave, ha]
    change ((s.device a).bind _) = _
    rw [hdev]
    change (setenv ca s (ascii "partition") (some (partitionText dev s.currentPartnum))).bind _ = _
    rw [hset]
    exact hindex

theorem sortAdd_spec {part : Part} {l r : List Part} {pi : Option Part}
    (h : sortAdd part l = some (r, pi)) :
    ∃ pre post, l = pre ++ post ∧ r = pre ++ part :: post ∧ pi = post.head? ∧
      (∀ x ∈ pre, x.info.offset < part.info.offset) ∧
      ∀ x ∈ post.head?, part.info.offset ≤ x.info.offset := by
  induction l generalizing r pi with
  | nil =>
    obtain ⟨rfl, rfl⟩ := Prod.mk.inj (Option.some.inj h)
    exact ⟨[], [], rfl, rfl, rfl, nofun, nofun⟩
  | cons x l ih =>
    unfold sortAdd at h
    split_ifs at h with hzero hle
    · obtain ⟨rfl, rfl⟩ := Prod.mk.inj (Option.some.inj h)
      exact ⟨[], x :: l, rfl, rfl, rfl, nofun, fun y hy ↦ Option.some.inj hy ▸ hle⟩
    · obtain ⟨⟨r', pi'⟩, hr', heq⟩ := Option.map_eq_some_iff.mp h
      obtain ⟨rfl, rfl⟩ := Prod.mk.inj heq
      obtain ⟨pre, post, rfl, rfl, rfl, hpre, hpost⟩ := ih hr'
      refine ⟨x :: pre, post, rfl, rfl, rfl, ?_, hpost⟩
      intro y hy
      rcases List.mem_cons.mp hy with rfl | hy
      · omega
      · exact hpre y hy

theorem sortAdd_infos (part : Part) (l : List Part) :
    (sortAdd part l).map (fun r ↦ r.1.map Part.info) = CmdJffs2.partSortAdd part.info (l.map Part.info) := by
  induction l with
  | nil => rfl
  | cons x l ih =>
    rw [sortAdd, List.map_cons, CmdJffs2.partSortAdd]
    split_ifs
    · rfl
    · rfl
    · rw [← ih, Option.map_map, Option.map_map]
      rfl

theorem sortAdd_ascending {part : Part} {pre post : List Part}
    (h : Ascending (fun part : Part ↦ part.info.offset) (pre ++ post))
    (hpre : ∀ x ∈ pre, x.info.offset < part.info.offset)
    (hpost : ∀ x ∈ post.head?, part.info.offset ≤ x.info.offset) :
    Ascending (fun part : Part ↦ part.info.offset) (pre ++ part :: post) := by
  obtain ⟨hpre', hpost', hcross⟩ := List.pairwise_append.mp h
  refine List.pairwise_append.mpr ⟨hpre', List.pairwise_cons.mpr ⟨?_, hpost'⟩, ?_⟩
  · intro y hy
    cases post with
    | nil => cases hy
    | cons z post =>
      have hz := hpost z rfl
      rcases List.mem_cons.mp hy with rfl | hy
      · exact hz
      · exact Nat.le_trans hz ((List.pairwise_cons.mp hpost').1 y hy)
  · intro x hx y hy
    rcases List.mem_cons.mp hy with rfl | hy
    · exact Nat.le_of_lt (hpre x hx)
    · exact hcross x hx y hy

/-- An insertion is in front of the current partition just when the comparison of the offsets says
so. -/
theorem sortAdd_tracks {part cur : Part} {pre post : List Part} {c : ℕ}
    (h : Ascending (fun part : Part ↦ part.info.offset) (pre ++ post))
    (hpre : ∀ x ∈ pre, x.info.offset < part.info.offset)
    (hpost : ∀ x ∈ post.head?, part.info.offset ≤ x.info.offset)
    (hcur : (pre ++ post)[c]? = some cur) :
    if ∃ pi ∈ post.head?, pi.info.offset ≤ cur.info.offset then
      (pre ++ part :: post)[c + 1]? = some cur
    else (pre ++ part :: post)[c]? = some cur := by
  obtain ⟨-, hpost', hcross⟩ := List.pairwise_append.mp h
  split
  next hle =>
    obtain ⟨pi, hpi, hle⟩ := hle
    have hc : pre.length ≤ c := by
      by_contra hc
      rw [List.getElem?_append_left (by omega)] at hcur
      have hlt := hpre cur (List.mem_of_getElem? hcur)
      have := hpost pi hpi
      omega
    rw [List.getElem?_append_right hc] at hcur
    rw [List.getElem?_append_right (by omega), Nat.succ_sub hc, List.getElem?_cons_succ]
    exact hcur
  next hlt =>
    have hc : c < pre.length := by
      by_contra hc
      rw [List.getElem?_append_right (by omega)] at hcur
      cases post with
      | nil => cases hcur
      | cons pi post =>
        apply hlt
        refine ⟨pi, rfl, ?_⟩
        rcases List.mem_cons.mp (List.mem_of_getElem? hcur) with rfl | hmem
        · exact Nat.le_refl _
        · exact (List.pairwise_cons.mp hpost').1 cur hmem
    rw [List.getElem?_append_left hc] at hcur ⊢
    exact hcur

/-- A deletion moves the current partition as the comparison of the offsets says, unless it is behind
it at the same offset. -/
theorem erase_tracks {part cur : Part} {pre post : List Part} {c : ℕ}
    (h : Ascending (fun part : Part ↦ part.info.offset) (pre ++ part :: post))
    (hcur : (pre ++ part :: post)[c]? = some cur) (hne : c ≠ pre.length)
    (hout : pre.length < c ∨ part.info.offset ≠ cur.info.offset) :
    if part.info.offset ≤ cur.info.offset then 0 < c ∧ (pre ++ post)[c - 1]? = some cur
    else (pre ++ post)[c]? = some cur := by
  obtain ⟨-, hpost', hcross⟩ := List.pairwise_append.mp h
  rcases Nat.lt_or_gt_of_ne hne with hc | hc
  · have hcur' := hcur
    rw [List.getElem?_append_left hc] at hcur
    have hle : cur.info.offset ≤ part.info.offset :=
      hcross cur (List.mem_of_getElem? hcur) part List.mem_cons_self
    have hne' : part.info.offset ≠ cur.info.offset := hout.resolve_left (by omega)
    rw [if_neg (by omega), List.getElem?_append_left hc]
    exact hcur
  · rw [List.getElem?_append_right (by omega)] at hcur
    obtain ⟨k, hk⟩ := Nat.exists_eq_add_of_lt hc
    have hsub : c - pre.length = k + 1 := by omega
    rw [hsub, List.getElem?_cons_succ] at hcur
    have hle : part.info.offset ≤ cur.info.offset :=
      (List.pairwise_cons.mp hpost').1 cur (List.mem_of_getElem? hcur)
    rw [if_pos hle]
    refine ⟨by omega, ?_⟩
    rw [List.getElem?_append_right (by omega), show c - 1 - pre.length = k by omega]
    exact hcur

theorem split_of_device {a : ℕ} {dev : MtdDevice} (hv : Valid s) (h : s.device a = some dev) :
    ∃ front back, s.devices = front ++ dev :: back ∧ dev.addr = a ∧
      (∀ d ∈ front, d.addr ≠ a) ∧ ∀ d ∈ back, d.addr ≠ a := by
  obtain ⟨ha, front, back, heq, hfront⟩ := List.find?_eq_some_iff_append.mp h
  have haddr : dev.addr = a := of_decide_eq_true ha
  refine ⟨front, back, heq, haddr, ?_, ?_⟩
  · intro d hd hda
    have hnot := hfront d hd
    rw [decide_eq_true hda] at hnot
    cases hnot
  · intro d hd hda
    have hnodup := hv.devAddrs
    rw [heq, List.map_append, List.map_cons] at hnodup
    have hback := (List.nodup_cons.mp (List.nodup_append.mp hnodup).2.1).1
    exact hback (List.mem_map.mpr ⟨d, hd, hda.trans haddr.symm⟩)

theorem device_append {front back : List MtdDevice} {dev : MtdDevice}
    (h : s.devices = front ++ dev :: back) (hfront : ∀ d ∈ front, d.addr ≠ dev.addr) :
    s.device dev.addr = some dev := by
  refine List.find?_eq_some_iff_append.mpr ⟨decide_eq_true rfl, front, back, h, ?_⟩
  intro d hd
  rw [decide_eq_false (hfront d hd)]
  rfl

theorem setParts_device {a b : ℕ} {parts : List Part} :
    (s.setParts a parts).device b =
      (s.device b).map fun dev ↦ if dev.addr = a then { dev with parts := parts } else dev := by
  rw [State.device, State.device, State.setParts, List.find?_map]
  congr 2
  funext dev
  simp only [Function.comp_apply]
  split_ifs <;> rfl

theorem setParts_devices (parts : List Part) {a : ℕ} {front back : List MtdDevice} {dev : MtdDevice}
    (h : s.devices = front ++ dev :: back) (ha : dev.addr = a) (hfront : ∀ d ∈ front, d.addr ≠ a)
    (hback : ∀ d ∈ back, d.addr ≠ a) :
    (s.setParts a parts).devices = front ++ { dev with parts := parts } :: back := by
  have hsame : ∀ l : List MtdDevice, (∀ d ∈ l, d.addr ≠ a) →
      l.map (fun dev ↦ if dev.addr = a then { dev with parts := parts } else dev) = l := by
    intro l hl
    rw [List.map_congr_left fun d hd ↦ if_neg (hl d hd), List.map_id']
  rw [State.setParts, h, List.map_append, List.map_cons, hsame front hfront, hsame back hback,
    if_pos ha]

theorem Valid.of_sameList (hv : Valid s) (h : SameList s s') (hw : WellFormed s'.globals.env.data) :
    Valid s' := by
  obtain ⟨h₁, h₂, h₃, h₄, h₅, h₆, h₇, -⟩ := hv
  have hcurrent := h.current
  obtain ⟨hdevices, hdev, -⟩ := h
  rw [← hdevices] at h₁ h₂ h₃ h₄ h₅ h₆ h₇
  rw [← hcurrent, ← hdev] at h₇
  exact ⟨h₁, h₂, h₃, h₄, h₅, h₆, h₇, hw⟩

theorem Valid.ready (hv : Valid s) : Ready s := by
  rcases hv.current with ⟨-, hnone⟩ | hsome
  · refine ⟨hv.env, .inl hnone, ?_⟩
    rw [hnone]
    exact nofun
  · obtain ⟨part, hpart⟩ := Option.isSome_iff_exists.mp hsome
    obtain ⟨a, dev, ha, hdev, hcur⟩ := find_of_current hpart
    obtain ⟨front, back, heq, haddr, hfront, hback⟩ := split_of_device hv hdev
    have hmem : dev ∈ s.devices := by
      rw [heq]
      exact List.mem_append_right _ List.mem_cons_self
    refine ⟨hv.env, .inr ⟨part, hpart, hv.names dev hmem part (List.mem_of_getElem? hcur)⟩, ?_⟩
    intro a' ha'
    obtain rfl := Option.some.inj (ha.symm.trans ha')
    have htotal := hv.total
    have hlt := (List.getElem?_eq_some_iff.mp hcur).1
    have htake : s.devices.takeWhile (fun dev ↦ dev.addr ≠ a) = front := by
      rw [heq, List.takeWhile_append_of_pos fun d hd ↦ decide_eq_true (hfront d hd),
        List.takeWhile_cons_of_neg (by simp [haddr]), List.append_nil]
    rw [htake]
    rw [heq, List.flatMap_append, List.flatMap_cons, List.length_append, List.length_append] at htotal
    omega

theorem Valid.setParts {a : ℕ} {dev : MtdDevice} {parts : List Part} {partnum : UInt8}
    (hv : Valid s) (hdev : s.device a = some dev) (hne : parts ≠ [])
    (hasc : Ascending (fun part : Part ↦ part.info.offset) parts)
    (hnames : ∀ part ∈ parts, NulFree part.info.name)
    (haddrs : (((s.setParts a parts).devices.flatMap MtdDevice.parts).map Part.addr).Nodup)
    (htotal : ((s.setParts a parts).devices.flatMap MtdDevice.parts).length < 65536)
    (hcur : { s.setParts a parts with currentPartnum := partnum : State }.current.isSome) :
    Valid { s.setParts a parts with currentPartnum := partnum } := by
  obtain ⟨front, back, heq, haddr, hfront, hback⟩ := split_of_device hv hdev
  have hnew := setParts_devices parts heq haddr hfront hback
  have hmem : ∀ d ∈ (s.setParts a parts).devices, d = { dev with parts := parts } ∨ d ∈ s.devices := by
    intro d hd
    rw [hnew] at hd
    rw [heq]
    rcases List.mem_append.mp hd with hd | hd
    · exact .inr (List.mem_append_left _ hd)
    · rcases List.mem_cons.mp hd with hd | hd
      · exact .inl hd
      · exact .inr (List.mem_append_right _ (List.mem_cons_of_mem _ hd))
  refine ⟨?_, haddrs, ?_, ?_, ?_, htotal, .inr hcur, hv.env⟩
  · change ((s.setParts a parts).devices.map MtdDevice.addr).Nodup
    have hnodup := hv.devAddrs
    rw [heq, List.map_append, List.map_cons] at hnodup
    rw [hnew, List.map_append, List.map_cons]
    exact hnodup
  · intro d hd
    rcases hmem d hd with rfl | hd
    · exact hne
    · exact hv.nonempty d hd
  · intro d hd
    rcases hmem d hd with rfl | hd
    · exact hasc
    · exact hv.sorted d hd
  · intro d hd
    rcases hmem d hd with rfl | hd
    · exact hnames
    · exact hv.names d hd

/-- What an operation keeps. -/
structure Kept (s s' : State) : Prop where
  valid : Valid s'
  refused : s'.refused = false → s.refused = false
  agrees : s'.refused = false → Agrees s → Agrees s'

theorem Kept.of_save (hv : Valid s') (hr : s'.refused = s.refused) :
    ∃ s'', currentSave ca s' = some s'' ∧ SameList s' s'' ∧ Kept s s'' := by
  obtain ⟨s'', hsave, hsame, hw, h⟩ := currentSave_spec ca hv.ready
  refine ⟨s'', hsave, hsame, hv.of_sameList hsame hw, ?_, fun hrefused _ ↦ (h hrefused).2⟩
  intro hrefused
  rw [← hr]
  exact (h hrefused).1

theorem Kept.of_index (hv : Valid s') (hr : s'.refused = s.refused) (hg : s'.globals = s.globals)
    (hp : s'.partition = s.partition) :
    ∃ s'', indexPartitions ca s' = some s'' ∧ SameList s' s'' ∧ Kept s s'' := by
  obtain ⟨s'', hindex, hsame, hw, -, h⟩ := indexPartitions_spec ca hv.ready
  refine ⟨s'', hindex, hsame, hv.of_sameList hsame hw, ?_, ?_⟩
  · intro hrefused
    rw [← hr]
    exact (h hrefused).1
  · intro hrefused hagrees
    obtain ⟨-, hindexed, hpart⟩ := h hrefused
    refine ⟨hindexed, ?_⟩
    rw [hpart, hg, hsame.partition, hp]
    exact hagrees.partition

/-- The arguments that the callers pass. -/
def Op.Ok (s : State) : Op → Prop
  | .partSortAdd a part => (s.device a).isSome ∧
      part.addr ∉ (s.devices.flatMap MtdDevice.parts).map Part.addr ∧ NulFree part.info.name ∧
      (s.devices.flatMap MtdDevice.parts).length + 1 < 65536
  | .partDel a p => ∃ dev, s.device a = some dev ∧ ∃ part ∈ dev.parts, part.addr = p

/-- The adjustment goes wrong: the index is at its end, or the deleted partition is behind the current
one at the same offset. -/
def Op.Missed (s : State) : Op → Prop
  | .partSortAdd a part => s.currentDev = some a ∧ s.currentPartnum = 255 ∧
      ∃ cur ∈ s.current, part.info.offset ≤ cur.info.offset
  | .partDel a p => s.currentDev = some a ∧ ∃ dev cur, s.device a = some dev ∧ cur ∈ s.current ∧
      ∃ i part, s.currentPartnum.toNat < i ∧ dev.parts[i]? = some part ∧ part.addr = p ∧
        part.info.offset = cur.info.offset

/-- The operation deletes the partition at the address. -/
def Op.Deletes : Op → ℕ → Prop
  | .partSortAdd _ _, _ => False
  | .partDel _ p, q => p = q

theorem setParts_current {a : ℕ} {dev : MtdDevice} {parts : List Part} {partnum : UInt8} {q : Part}
    (hdev : s.device a = some dev) (ha : dev.addr = a) (hcur : s.currentDev = some a)
    (h : parts[partnum.toNat]? = some q) :
    { s.setParts a parts with currentPartnum := partnum : State }.current = some q := by
  change (s.currentDev.bind fun b ↦ ((s.setParts a parts).device b).bind fun dev ↦
    jffs2PartInfo dev partnum) = some q
  rw [hcur, Option.bind_some, setParts_device, hdev, Option.map_some, if_pos ha]
  exact h

theorem setParts_current_other {a : ℕ} (parts : List Part) (hcur : s.currentDev ≠ some a) :
    (s.setParts a parts).current = s.current := by
  change (s.currentDev.bind fun b ↦ ((s.setParts a parts).device b).bind fun dev ↦
    jffs2PartInfo dev s.currentPartnum) = _
  unfold State.current
  cases hb : s.currentDev with
  | none => rfl
  | some b =>
    rw [Option.bind_some, Option.bind_some, setParts_device]
    cases hdev : s.device b with
    | none => rfl
    | some dev =>
      have haddr : dev.addr = b := of_decide_eq_true (List.find?_eq_some_iff_append.mp hdev).1
      have hne : dev.addr ≠ a := fun h ↦ hcur (hb.trans (congrArg some (haddr.symm.trans h)))
      rw [Option.map_some, if_neg hne]

theorem setParts_partition {a : ℕ} {parts : List Part} :
    (s.setParts a parts).partition = s.partition := by
  change (s.currentDev.bind fun b ↦ ((s.setParts a parts).device b).map fun dev ↦
    partitionText dev s.currentPartnum) = _
  unfold State.partition
  congr 1
  funext b
  rw [setParts_device, Option.map_map]
  congr 1
  funext dev
  rw [Function.comp_apply]
  split_ifs <;> rfl

theorem isSome_current (hv : Valid s) {a : ℕ} {dev : MtdDevice} (h : s.device a = some dev) :
    s.current.isSome := by
  rcases hv.current with ⟨hnil, -⟩ | hsome
  · rw [State.device, hnil] at h
    cases h
  · exact hsome

theorem partSortAdd_save {a : ℕ} {dev : MtdDevice} {part pi cur : Part} {parts : List Part}
    (hdev : s.device a = some dev) (hsort : sortAdd part dev.parts = some (parts, some pi))
    (hcur : s.currentDev = some a) (hinfo : jffs2PartInfo dev s.currentPartnum = some cur)
    (hle : pi.info.offset ≤ cur.info.offset) :
    partSortAdd ca s a part =
      (currentSave ca { s.setParts a parts with currentPartnum := s.currentPartnum + 1 }).map
        (Prod.mk 0) := by
  rw [partSortAdd, hdev]
  simp only [Option.bind_eq_bind, Option.bind_some, hsort, if_pos hcur, hinfo, Option.map_some,
    decide_eq_true hle, if_true]

theorem partSortAdd_index {a : ℕ} {dev : MtdDevice} {part : Part} {parts : List Part}
    {pi : Option Part} (hdev : s.device a = some dev)
    (hsort : sortAdd part dev.parts = some (parts, pi))
    (hout : s.currentDev = some a → ∀ cur ∈ jffs2PartInfo dev s.currentPartnum, ∀ next ∈ pi,
      ¬next.info.offset ≤ cur.info.offset) :
    partSortAdd ca s a part = (indexPartitions ca (s.setParts a parts)).map (Prod.mk 0) := by
  rw [partSortAdd, hdev]
  simp only [Option.bind_eq_bind, Option.bind_some, hsort]
  rw [if_neg]
  intro h
  obtain ⟨pi, hpi, h⟩ := Option.bind_eq_some_iff.mp h
  obtain ⟨cur, hcur, h⟩ := Option.map_eq_some_iff.mp h
  split_ifs at hcur with ha
  exact hout ha cur hcur pi hpi (of_decide_eq_true h)

theorem partSortAdd_kept (hv : Valid s) {a : ℕ} {part : Part}
    (hok : Op.Ok s (.partSortAdd a part)) (hmissed : ¬Op.Missed s (.partSortAdd a part)) :
    ∃ r s', partSortAdd ca s a part = some (r, s') ∧ (r ≠ 0 → s' = s) ∧
      (r = 0 → Kept s s' ∧ s'.current = s.current) := by
  obtain ⟨hdev, hfresh, hname, hroom⟩ := hok
  obtain ⟨dev, hdev⟩ := Option.isSome_iff_exists.mp hdev
  obtain ⟨front, back, heq, haddr, hfront, hback⟩ := split_of_device hv hdev
  have hmem : dev ∈ s.devices := List.mem_of_find?_eq_some hdev
  have hcurrent := isSome_current hv hdev
  cases hsort : sortAdd part dev.parts with
  | none =>
    refine ⟨1, s, ?_, fun _ ↦ rfl, nofun⟩
    rw [partSortAdd, hdev]
    simp only [Option.bind_eq_bind, Option.bind_some, hsort]
  | some r =>
    obtain ⟨parts, pi⟩ := r
    obtain ⟨pre, post, hsplit, hparts, hpi, hpre, hpost⟩ := sortAdd_spec hsort
    have hasc : Ascending (fun part : Part ↦ part.info.offset) (pre ++ post) :=
      hsplit ▸ hv.sorted dev hmem
    have hnew := setParts_devices parts heq haddr hfront hback
    -- the new partition and the old ones, in another order
    have hperm : ((s.setParts a parts).devices.flatMap MtdDevice.parts).Perm
        (part :: s.devices.flatMap MtdDevice.parts) := by
      rw [hnew, heq, List.flatMap_append, List.flatMap_append, List.flatMap_cons, List.flatMap_cons,
        hsplit, hparts]
      exact ((List.perm_middle.append_right _).append_left _).trans List.perm_middle
    have hvalid : ∀ partnum : UInt8,
        { s.setParts a parts with currentPartnum := partnum : State }.current.isSome →
          Valid { s.setParts a parts with currentPartnum := partnum } := by
      intro partnum hcur
      refine hv.setParts hdev ?_ ?_ ?_ ?_ ?_ hcur
      · rw [hparts]
        exact List.append_ne_nil_of_right_ne_nil _ (List.cons_ne_nil _ _)
      · rw [hparts]
        exact sortAdd_ascending hasc hpre hpost
      · intro q hq
        rw [hparts] at hq
        rcases List.mem_cons.mp (List.perm_middle.mem_iff.mp hq) with rfl | hq
        · exact hname
        · exact hv.names dev hmem q (hsplit ▸ hq)
      · rw [(hperm.map Part.addr).nodup_iff]
        exact List.nodup_cons.mpr ⟨hfresh, hv.partAddrs⟩
      · rw [hperm.length_eq]
        exact hroom
    by_cases hcur : s.currentDev = some a
    · obtain ⟨cur, hcurEq⟩ := Option.isSome_iff_exists.mp hcurrent
      obtain ⟨a', dev', ha', hdev', hinfo⟩ := find_of_current hcurEq
      obtain rfl : a = a' := Option.some.inj (hcur.symm.trans ha')
      obtain rfl : dev = dev' := Option.some.inj (hdev.symm.trans hdev')
      have hinfo' : (pre ++ post)[s.currentPartnum.toNat]? = some cur := hsplit ▸ hinfo
      have htrack := sortAdd_tracks hasc hpre hpost hinfo'
      rw [← hparts] at htrack
      by_cases hle : ∃ pi ∈ post.head?, pi.info.offset ≤ cur.info.offset
      · rw [if_pos hle] at htrack
        obtain ⟨pi', hpi', hle⟩ := hle
        have hne : s.currentPartnum ≠ 255 := fun h ↦ hmissed
          ⟨hcur, h, cur, hcurEq, Nat.le_trans (hpost pi' hpi') hle⟩
        have hsucc : (s.currentPartnum + 1).toNat = s.currentPartnum.toNat + 1 := by
          have hlt : s.currentPartnum.toNat ≠ 255 := fun h ↦ hne (UInt8.toNat_inj.mp h)
          have hlt' := s.currentPartnum.toNat_lt
          rw [UInt8.toNat_add]
          exact Nat.mod_eq_of_lt (by change _ + 1 < 256; omega)
        rw [← hsucc] at htrack
        have hnow := setParts_current hdev haddr hcur htrack
        obtain ⟨s', hsave, hsame, hkept⟩ := Kept.of_save ca (s := s)
          (hvalid (s.currentPartnum + 1) (hnow ▸ rfl)) rfl
        refine ⟨0, s', ?_, fun h ↦ absurd rfl h, fun _ ↦ ⟨hkept, ?_⟩⟩
        · rw [partSortAdd_save ca hdev (hsort.trans (congrArg some (Prod.ext rfl (hpi.trans hpi')))) hcur
            hinfo hle, hsave]
          rfl
        · rw [hsame.current, hnow, hcurEq]
      · rw [if_neg hle] at htrack
        have hnow := setParts_current hdev haddr hcur htrack
        obtain ⟨s', hindex, hsame, hkept⟩ := Kept.of_index ca (s := s)
          (hvalid s.currentPartnum (hnow ▸ rfl)) rfl rfl setParts_partition
        refine ⟨0, s', ?_, fun h ↦ absurd rfl h, fun _ ↦ ⟨hkept, ?_⟩⟩
        · rw [partSortAdd_index ca hdev hsort]
          · exact congrArg (Option.map (Prod.mk 0)) hindex
          · intro _ cur' hcur' pi' hpi' hle'
            obtain rfl := Option.some.inj (hinfo.symm.trans hcur')
            exact hle ⟨pi', hpi ▸ hpi', hle'⟩
        · rw [hsame.current, hnow, hcurEq]
    · have hnow := setParts_current_other parts hcur
      obtain ⟨s', hindex, hsame, hkept⟩ := Kept.of_index ca (s := s)
        (hvalid s.currentPartnum (hnow ▸ hcurrent)) rfl rfl setParts_partition
      refine ⟨0, s', ?_, fun h ↦ absurd rfl h, fun _ ↦ ⟨hkept, hsame.current.trans hnow⟩⟩
      rw [partSortAdd_index ca hdev hsort fun h ↦ absurd h hcur]
      exact congrArg (Option.map (Prod.mk 0)) hindex

theorem numParts_eq_one (hv : Valid s) {dev : MtdDevice} (hmem : dev ∈ s.devices) :
    dev.numParts = 1 ↔ dev.parts.length = 1 := by
  have htotal := hv.total
  obtain ⟨front, back, heq⟩ := List.append_of_mem hmem
  rw [heq, List.flatMap_append, List.flatMap_cons, List.length_append, List.length_append] at htotal
  have hnat : dev.numParts.toNat = dev.parts.length := by
    rw [MtdDevice.numParts, UInt16.toNat_ofNat_of_lt' (by change _ < 65536; omega)]
  rw [← UInt16.toNat_inj, hnat]
  rfl

/-- The device leaves the list, and the first one takes its place as the current one. -/
theorem deviceDel_kept (hv : Valid s) {a : ℕ} {dev : MtdDevice} (hdev : s.device a = some dev) :
    ∃ s', deviceDel ca s a = some s' ∧ Kept s s' ∧
      (s.currentDev ≠ some a → s'.current = s.current) := by
  obtain ⟨front, back, heq, haddr, hfront, hback⟩ := split_of_device hv hdev
  have herase : s.devices.eraseP (fun dev ↦ dev.addr = a) = front ++ back := by
    rw [heq, List.eraseP_append_right _ fun d hd ↦ by simp [hfront d hd],
      List.eraseP_cons_of_pos (by simp [haddr])]
  have hsub : (front ++ back).Sublist s.devices := by
    rw [heq]
    exact List.Sublist.append_left (List.sublist_cons_self _ _) _
  -- any choice of a current partition in the rest of the list
  have hvalid : ∀ t : State, t.devices = front ++ back → t.globals = s.globals →
      ((t.devices = [] ∧ t.currentDev = none) ∨ t.current.isSome) → Valid t := by
    intro t hdevices hglobals hcur
    have hparts : (t.devices.flatMap MtdDevice.parts).Sublist (s.devices.flatMap MtdDevice.parts) := by
      rw [hdevices]
      exact hsub.flatMap _
    refine ⟨?_, (hparts.map _).nodup hv.partAddrs, ?_, ?_, ?_, ?_, hcur, hglobals ▸ hv.env⟩
    · rw [hdevices]
      exact (hsub.map _).nodup hv.devAddrs
    · exact fun d hd ↦ hv.nonempty d (hsub.subset (hdevices ▸ hd))
    · exact fun d hd ↦ hv.sorted d (hsub.subset (hdevices ▸ hd))
    · exact fun d hd ↦ hv.names d (hsub.subset (hdevices ▸ hd))
    · exact Nat.lt_of_le_of_lt hparts.length_le hv.total
  unfold deviceDel
  simp only [herase]
  by_cases hcur : s.currentDev = some a
  · rw [if_pos hcur]
    cases hrest : front ++ back with
    | nil =>
      obtain ⟨s', hsave, -, hkept⟩ := Kept.of_save ca (s := s)
        (hvalid { s with devices := [], currentDev := none } hrest.symm rfl (.inl ⟨rfl, rfl⟩)) rfl
      exact ⟨s', hsave, hkept, fun h ↦ absurd hcur h⟩
    | cons first rest =>
      have hmem : first ∈ s.devices := hsub.subset (hrest ▸ List.mem_cons_self)
      have hnow : { s with
          devices := first :: rest, currentDev := some first.addr,
          currentPartnum := 0 : State }.current.isSome := by
        have hfirst : State.device { s with
            devices := first :: rest, currentDev := some first.addr,
            currentPartnum := 0 } first.addr = some first :=
          device_append (List.nil_append _).symm nofun
        rw [State.current, Option.bind_some, hfirst, Option.bind_some]
        have hpos := List.length_pos_of_ne_nil (hv.nonempty first hmem)
        exact Option.isSome_iff_exists.mpr ⟨first.parts[0], List.getElem?_eq_getElem hpos⟩
      obtain ⟨s', hsave, -, hkept⟩ := Kept.of_save ca (s := s)
        (hvalid { s with devices := first :: rest, currentDev := some first.addr, currentPartnum := 0 }
          hrest.symm rfl (.inr hnow)) rfl
      exact ⟨s', hsave, hkept, fun h ↦ absurd hcur h⟩
  · rw [if_neg hcur]
    have hother : ∀ b, b ≠ a →
        State.device { s with devices := front ++ back } b = s.device b := by
      intro b hb
      have hskip : dev.addr ≠ b := fun h ↦ hb (h.symm.trans haddr)
      simp only [State.device, heq, List.find?_append, List.find?_cons, decide_eq_false hskip]
    have hdevice : ∀ b ∈ s.currentDev,
        State.device { s with devices := front ++ back } b = s.device b :=
      fun b hb ↦ hother b fun h ↦ hcur (h ▸ hb)
    have hnow : { s with devices := front ++ back : State }.current = s.current := by
      unfold State.current
      exact Option.bind_congr fun b hb ↦ by rw [hdevice b hb]
    have hpartition : { s with devices := front ++ back : State }.partition = s.partition := by
      unfold State.partition
      exact Option.bind_congr fun b hb ↦ by rw [hdevice b hb]
    obtain ⟨s', hindex, hsame, hkept⟩ := Kept.of_index ca (s := s)
      (hvalid { s with devices := front ++ back } rfl rfl
        (.inr (hnow ▸ isSome_current hv hdev))) rfl rfl hpartition
    exact ⟨s', hindex, hkept, fun _ ↦ hsame.current.trans hnow⟩

theorem partDel_kept (hv : Valid s) {a p : ℕ} (hok : Op.Ok s (.partDel a p))
    (hmissed : ¬Op.Missed s (.partDel a p)) :
    ∃ s', partDel ca s a p = some s' ∧ Kept s s' ∧
      ((∀ cur ∈ s.current, cur.addr ≠ p) → s'.current = s.current) := by
  obtain ⟨dev, hdev, part, hpart, hp⟩ := hok
  obtain ⟨front, back, heq, haddr, hfront, hback⟩ := split_of_device hv hdev
  have hmem : dev ∈ s.devices := List.mem_of_find?_eq_some hdev
  have hsome : (dev.parts.find? fun part ↦ part.addr = p).isSome :=
    List.find?_isSome.mpr ⟨part, hpart, decide_eq_true hp⟩
  obtain ⟨part, hfind⟩ := Option.isSome_iff_exists.mp hsome
  obtain ⟨hp, pre, post, hsplit, hpre⟩ := List.find?_eq_some_iff_append.mp hfind
  have hp : part.addr = p := of_decide_eq_true hp
  unfold partDel
  simp only [hdev, hfind, Option.bind_eq_bind, Option.bind_some, numParts_eq_one hv hmem]
  by_cases hone : dev.parts.length = 1
  · rw [if_pos hone]
    obtain ⟨s', hdel, hkept, hother⟩ := deviceDel_kept ca hv hdev
    refine ⟨s', hdel, hkept, ?_⟩
    intro hnot
    apply hother
    intro hcur
    -- the only partition of the current device is the current one
    obtain ⟨cur, hcurEq⟩ := Option.isSome_iff_exists.mp (isSome_current hv hdev)
    obtain ⟨a', dev', ha', hdev', hinfo⟩ := find_of_current hcurEq
    obtain rfl : a = a' := Option.some.inj (hcur.symm.trans ha')
    obtain rfl : dev = dev' := Option.some.inj (hdev.symm.trans hdev')
    obtain ⟨q, hq⟩ := List.length_eq_one_iff.mp hone
    have hpartq : part ∈ dev.parts := List.mem_of_find?_eq_some hfind
    have hcurq := List.mem_of_getElem? hinfo
    rw [hq, List.mem_singleton] at hpartq hcurq
    exact hnot cur hcurEq (by rw [hcurq, ← hpartq, hp])
  · have herase : dev.parts.eraseP (fun part ↦ part.addr = p) = pre ++ post := by
      rw [hsplit, List.eraseP_append_right _ fun q hq ↦ by simpa using hpre q hq,
        List.eraseP_cons_of_pos (by simp [hp])]
    have hsub : (pre ++ post).Sublist dev.parts := by
      rw [hsplit]
      exact List.Sublist.append_left (List.sublist_cons_self _ _) _
    have hrest : pre ++ post ≠ [] := by
      intro hnil
      apply hone
      have hlen := congrArg List.length hnil
      rw [List.length_append] at hlen
      rw [hsplit, List.length_append, List.length_cons]
      change _ + _ = 0 at hlen
      omega
    have hasc := hv.sorted dev hmem
    have hnew := setParts_devices (pre ++ post) heq haddr hfront hback
    have hall : ((s.setParts a (pre ++ post)).devices.flatMap MtdDevice.parts).Sublist
        (s.devices.flatMap MtdDevice.parts) := by
      rw [hnew, heq, List.flatMap_append, List.flatMap_append, List.flatMap_cons, List.flatMap_cons]
      exact (hsub.append_right _).append_left _
    have hvalid : ∀ partnum : UInt8,
        { s.setParts a (pre ++ post) with currentPartnum := partnum : State }.current.isSome →
          Valid { s.setParts a (pre ++ post) with currentPartnum := partnum } := by
      intro partnum hcur
      exact hv.setParts hdev hrest (hasc.sublist hsub) (fun q hq ↦ hv.names dev hmem q (hsub.subset hq))
        ((hall.map _).nodup hv.partAddrs) (Nat.lt_of_le_of_lt hall.length_le hv.total) hcur
    rw [if_neg hone, herase]
    obtain ⟨cur, hcurEq⟩ := Option.isSome_iff_exists.mp (isSome_current hv hdev)
    by_cases hcur : s.currentDev = some a
    · obtain ⟨a', dev', ha', hdev', hinfo⟩ := find_of_current hcurEq
      obtain rfl : a = a' := Option.some.inj (hcur.symm.trans ha')
      obtain rfl : dev = dev' := Option.some.inj (hdev.symm.trans hdev')
      simp only [if_pos hcur, hinfo]
      -- a new index, and what it gives
      have hsave : ∀ (partnum : UInt8) (q : Part), (pre ++ post)[partnum.toNat]? = some q →
          ∃ s', currentSave ca { s.setParts a (pre ++ post) with currentPartnum := partnum } = some s' ∧
            Kept s s' ∧ s'.current = some q := by
        intro partnum q hq
        have hnow := setParts_current hdev haddr hcur hq
        obtain ⟨s', hsave, hsame, hkept⟩ := Kept.of_save ca (s := s)
          (hvalid partnum (hnow ▸ rfl)) rfl
        exact ⟨s', hsave, hkept, hsame.current.trans hnow⟩
      by_cases hdeleted : cur.addr = p
      · rw [if_pos hdeleted]
        have hpos := List.length_pos_of_ne_nil hrest
        obtain ⟨s', hrun, hkept, -⟩ := hsave 0 _ (List.getElem?_eq_getElem hpos)
        exact ⟨s', hrun, hkept, fun h ↦ absurd hdeleted (h cur hcurEq)⟩
      · rw [if_neg hdeleted]
        have hinfo' : (pre ++ part :: post)[s.currentPartnum.toNat]? = some cur := hsplit ▸ hinfo
        have hne : s.currentPartnum.toNat ≠ pre.length := by
          intro h
          rw [h, List.getElem?_append_right (Nat.le_refl _), Nat.sub_self] at hinfo'
          exact hdeleted (Option.some.inj hinfo' ▸ hp)
        have hat : dev.parts[pre.length]? = some part := by
          rw [hsplit, List.getElem?_append_right (Nat.le_refl _), Nat.sub_self]
          rfl
        have hout : pre.length < s.currentPartnum.toNat ∨ part.info.offset ≠ cur.info.offset := by
          by_contra hout
          rw [not_or, not_not] at hout
          exact hmissed ⟨hcur, dev, cur, hdev, hcurEq, pre.length, part, by omega, hat, hp, hout.2⟩
        have htrack := erase_tracks (hsplit ▸ hasc) hinfo' hne hout
        by_cases hle : part.info.offset ≤ cur.info.offset
        · rw [if_pos hle] at htrack ⊢
          obtain ⟨hpos, htrack⟩ := htrack
          have hpred : (s.currentPartnum - 1).toNat = s.currentPartnum.toNat - 1 :=
            UInt8.toNat_sub_of_le _ _ (UInt8.le_iff_toNat_le.mpr hpos)
          rw [← hpred] at htrack
          obtain ⟨s', hrun, hkept, hnow⟩ := hsave _ cur htrack
          exact ⟨s', hrun, hkept, fun _ ↦ hnow.trans hcurEq.symm⟩
        · rw [if_neg hle] at htrack ⊢
          obtain ⟨s', hrun, hkept, hnow⟩ := hsave _ cur htrack
          exact ⟨s', hrun, hkept, fun _ ↦ hnow.trans hcurEq.symm⟩
    · have hnow := setParts_current_other (pre ++ post) hcur
      obtain ⟨s', hindex, hsame, hkept⟩ := Kept.of_index ca (s := s)
        (hvalid s.currentPartnum (hnow ▸ hcurEq ▸ rfl)) rfl rfl setParts_partition
      simp only [if_neg hcur]
      exact ⟨s', hindex, hkept, fun _ ↦ hsame.current.trans hnow⟩

theorem step_kept (hv : Valid s) {op : Op} (hok : op.Ok s) (hmissed : ¬op.Missed s) :
    ∃ r s', step ca s op = some (r, s') ∧ (r ≠ 0 → s' = s) ∧
      (r = 0 → Kept s s' ∧ ((∀ cur ∈ s.current, ¬op.Deletes cur.addr) → s'.current = s.current)) := by
  cases op with
  | partSortAdd a part =>
    obtain ⟨r, s', hrun, hfail, hsuccess⟩ := partSortAdd_kept ca hv hok hmissed
    exact ⟨r, s', hrun, hfail, fun hr ↦ ⟨(hsuccess hr).1, fun _ ↦ (hsuccess hr).2⟩⟩
  | partDel a p =>
    obtain ⟨s', hrun, hkept, hcur⟩ := partDel_kept ca hv hok hmissed
    refine ⟨0, s', ?_, fun h ↦ absurd rfl h, fun _ ↦ ⟨hkept, ?_⟩⟩
    · rw [step, hrun]
      rfl
    · exact fun h ↦ hcur fun cur hmem hp ↦ h cur hmem hp.symm

/-- Any number of operations; one that fails leaves the state as it is. -/
inductive Run (ca : ℕ → CStr → Bool) : State → State → Prop
  | refl (s : State) : Run ca s s
  | step {s s₁ s₂ : State} {op : Op} {r : ℕ} : Run ca s s₁ → op.Ok s₁ → ¬op.Missed s₁ →
      step ca s₁ op = some (r, s₂) → Run ca s s₂

theorem Run.kept (h : Run ca s s') (hv : Valid s) : Kept s s' := by
  induction h with
  | refl => exact ⟨hv, id, fun _ ↦ id⟩
  | @step s₁ s₂ op r _ hok hmissed hstep hkept =>
    obtain ⟨r', s', hrun, hfail, hsuccess⟩ := step_kept ca hkept.valid hok hmissed
    obtain ⟨rfl, rfl⟩ := Prod.mk.inj (Option.some.inj (hstep.symm.trans hrun))
    by_cases hr : r = 0
    · have hlast := (hsuccess hr).1
      exact ⟨hlast.valid, fun h ↦ hkept.refused (hlast.refused h),
        fun h hagrees ↦ hlast.agrees h (hkept.agrees (hlast.refused h) hagrees)⟩
    · rw [hfail hr]
      exact hkept

end

def named (name : CStr) (offset : ℕ) : PartInfo := ⟨name, false, 0x10000, offset, 0⟩

end UBoot.Common.CurrentPartition
