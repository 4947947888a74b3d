import UBoot.Common.IdParse
import UBoot.Common.MtdpartsRoundTrip

namespace UBoot.Common.MtdpartsAdd

open Lib Lib.CString CmdJffs2 IdParse MtdpartsRoundTrip

/-- The addresses that a call of `device_parse` stores to through `ret` and `retdev`, and what it
leaves there when it succeeds. -/
structure Call where
  stored : List ℕ
  result : Option (Device × CStr)

def deviceParse (hw : Hardware) (ids : List MtdId) (devices : List Device) (mtdDev : CStr)
    (ret retdev : ℕ) : Call :=
  -- the two stores at the start
  let stored := [retdev, ret]
  let p := mtdDev.dropWhile (· ≠ 0x3a)
  if p = [] then ⟨stored, none⟩
  else
    match idFindByMtdId ids (mtdDev.takeWhile (· ≠ 0x3a)) with
    | none => ⟨stored, none⟩
    | some id =>
      match partsParse hw id (p.length + 1) (startOffset devices id) (p.drop 1) with
      | none => ⟨stored, none⟩
      | some (parts, p) =>
        if parts = [] then ⟨stored, none⟩
        else
          match sortParts parts with
          | none => ⟨stored ++ [ret], none⟩
          | some sorted =>
            ⟨stored ++ [ret, retdev], some (⟨id, sorted⟩, if first p = 0x3b then p.drop 1 else p)⟩

/-- The arguments behind `add`; the last one may be missing. -/
structure Args where
  mtdDev : CStr
  sizeOffset : CStr
  name : CStr
  ro : Option CStr

/-- The `u8` that the length of the description is added up in. -/
def descLen (id : MtdId) (args : Args) : UInt8 :=
  let len := UInt8.ofNat (id.mtdId.length + 1)
  let len := len + UInt8.ofNat args.sizeOffset.length
  let len := len + UInt8.ofNat (args.name.length + 2)
  if (args.ro.map List.length) = some 2 then len + 2 else len

/-- The text for `tmpbuf` and the call of `device_parse`, when the command comes to them. -/
def add (hw : Hardware) (ids : List MtdId) (devices : List Device) (args : Args) (dev : ℕ) :
    Option (CStr × Call) := do
  let (_, type, num) ← idParse args.mtdDev
  let id ← idFind ids type num.toNat
  if partAddDescMaxlen ≤ (descLen id args).toNat then none
  else
    let tmpbuf := addDesc id args.sizeOffset args.name args.ro
    return (tmpbuf, deviceParse hw ids devices tmpbuf 0 dev)

/-- The text fits with its terminator, and no store goes through the null pointer. -/
structure Safe (hw : Hardware) (ids : List MtdId) (devices : List Device) (args : Args) (dev : ℕ) :
    Prop where
  fits : ∀ r ∈ add hw ids devices args dev, r.1.length + 1 ≤ partAddDescMaxlen
  notNull : ∀ r ∈ add hw ids devices args dev, 0 ∉ r.2.stored

section Length

variable (id : MtdId) (args : Args)

/-- The sum without the wrap. -/
def counted : ℕ :=
  id.mtdId.length + 1 + args.sizeOffset.length + (args.name.length + 2) +
    if (args.ro.map List.length) = some 2 then 2 else 0

theorem descLen_toNat : (descLen id args).toNat = counted id args % 256 := by
  rw [descLen, counted]
  split_ifs
  · simp only [UInt8.toNat_add, UInt8.toNat_ofNat', show (2 : UInt8).toNat = 2 from rfl]
    omega
  · simp only [UInt8.toNat_add, UInt8.toNat_ofNat']
    omega

theorem addDesc_length : (addDesc id args.sizeOffset args.name args.ro).length =
    id.mtdId.length + 1 + args.sizeOffset.length + (args.name.length + 2) +
      (args.ro.getD []).length := by
  simp only [addDesc, List.length_append, List.length_cons]
  omega

/-- Where the check passes, the text fits when the sum has not wrapped and an option string of
another length than two, which is not counted, still has room. -/
theorem fits_iff (h : (descLen id args).toNat < partAddDescMaxlen) :
    (addDesc id args.sizeOffset args.name args.ro).length + 1 ≤ partAddDescMaxlen ↔
      counted id args < 256 ∧ ((args.ro.getD []).length = 2 ∨
        counted id args + (args.ro.getD []).length < partAddDescMaxlen) := by
  rw [descLen_toNat, partAddDescMaxlen] at h
  rw [addDesc_length, partAddDescMaxlen, counted]
  rw [counted] at h
  cases hro : args.ro with
  | none =>
    simp only [hro, Option.map_none, Option.getD_none, List.length_nil, reduceCtorEq, if_false]
      at h ⊢
    omega
  | some ro =>
    simp only [hro, Option.map_some, Option.getD_some, Option.some.injEq] at h ⊢
    split_ifs at h ⊢ <;> omega

end Length

section Stores

variable {hw : Hardware} {ids : List MtdId} {devices : List Device}

/-- Apart from the stores, it is the function of the other commands. -/
theorem deviceParse_result (mtdDev : CStr) (ret retdev : ℕ) :
    (deviceParse hw ids devices mtdDev ret retdev).result =
      CmdJffs2.deviceParse hw ids devices mtdDev := by
  rw [deviceParse, CmdJffs2.deviceParse]
  simp only
  split_ifs with hcolon
  · rfl
  · cases hid : idFindByMtdId ids (mtdDev.takeWhile (· ≠ 0x3a)) with
    | none => rfl
    | some id =>
      simp only [Option.bind_eq_bind, Option.bind_some]
      cases hparts : partsParse hw id ((mtdDev.dropWhile (· ≠ 0x3a)).length + 1)
          (startOffset devices id) ((mtdDev.dropWhile (· ≠ 0x3a)).drop 1) with
      | none => rfl
      | some r =>
        obtain ⟨parts, p⟩ := r
        simp only [Option.bind_some]
        by_cases hnil : parts = []
        · rw [if_pos hnil, if_pos hnil]
        · rw [if_neg hnil, if_neg hnil]
          cases sortParts parts <;> rfl

/-- `ret` is stored to before anything is looked at. -/
theorem ret_mem_stored (mtdDev : CStr) (ret retdev : ℕ) :
    ret ∈ (deviceParse hw ids devices mtdDev ret retdev).stored := by
  have hstart : ret ∈ [retdev, ret] := List.mem_cons_of_mem _ List.mem_cons_self
  rw [deviceParse]
  split
  · exact hstart
  split
  · exact hstart
  split
  · exact hstart
  split
  · exact hstart
  split
  · exact List.mem_append_left _ hstart
  · exact List.mem_append_left _ hstart

end Stores

/-- The entry of `mtdids` that the first argument names. -/
def Names (ids : List MtdId) (args : Args) (id : MtdId) : Prop :=
  ∃ p type num, idParse args.mtdDev = some (p, type, num) ∧ idFind ids type num.toNat = some id

section Add

variable {hw : Hardware} {ids : List MtdId} {devices : List Device} {args : Args} {dev : ℕ}

theorem add_eq_some {r : CStr × Call} : add hw ids devices args dev = some r ↔
    ∃ id, Names ids args id ∧ (descLen id args).toNat < partAddDescMaxlen ∧
      r = (addDesc id args.sizeOffset args.name args.ro,
        deviceParse hw ids devices (addDesc id args.sizeOffset args.name args.ro) 0 dev) := by
  rw [add]
  simp only [Option.bind_eq_bind, Option.bind_eq_some_iff]
  constructor
  · rintro ⟨⟨p, type, num⟩, hparse, id, hfind, hr⟩
    split_ifs at hr with hle
    cases hr
    exact ⟨id, ⟨p, type, num, hparse, hfind⟩, Nat.lt_of_not_le hle, rfl⟩
  · rintro ⟨id, ⟨p, type, num, hparse, hfind⟩, hlt, rfl⟩
    refine ⟨(p, type, num), hparse, id, hfind, ?_⟩
    rw [if_neg (Nat.not_le.mpr hlt)]
    rfl

theorem notNull_iff : (∀ r ∈ add hw ids devices args dev, 0 ∉ r.2.stored) ↔
    ∀ id, Names ids args id → partAddDescMaxlen ≤ (descLen id args).toNat := by
  constructor
  · intro h id hnames
    by_contra hle
    exact h _ (add_eq_some.mpr ⟨id, hnames, Nat.lt_of_not_le hle, rfl⟩) (ret_mem_stored _ 0 dev)
  · intro h r hr
    obtain ⟨id, hnames, hlt, -⟩ := add_eq_some.mp hr
    exact absurd hlt (Nat.not_lt.mpr (h id hnames))

theorem allFit_iff : (∀ r ∈ add hw ids devices args dev, r.1.length + 1 ≤ partAddDescMaxlen) ↔
    ∀ id, Names ids args id → (descLen id args).toNat < partAddDescMaxlen →
      counted id args < 256 ∧ ((args.ro.getD []).length = 2 ∨
        counted id args + (args.ro.getD []).length < partAddDescMaxlen) := by
  constructor
  · intro h id hnames hlt
    exact (fits_iff id args hlt).mp (h _ (add_eq_some.mpr ⟨id, hnames, hlt, rfl⟩))
  · intro h r hr
    obtain ⟨id, hnames, hlt, rfl⟩ := add_eq_some.mp hr
    exact (fits_iff id args hlt).mpr (h id hnames hlt)

end Add

theorem add_safe_iff (hw : Hardware) (ids : List MtdId) (devices : List Device) (args : Args)
    (dev : ℕ) :
    (Safe hw ids devices args dev ↔
      ∀ id, Names ids args id → partAddDescMaxlen ≤ (descLen id args).toNat) ∧
    ((∀ r ∈ add hw ids devices args dev, r.1.length + 1 ≤ partAddDescMaxlen) ↔
      ∀ id, Names ids args id → (descLen id args).toNat < partAddDescMaxlen →
        counted id args < 256 ∧ ((args.ro.getD []).length = 2 ∨
          counted id args + (args.ro.getD []).length < partAddDescMaxlen)) := by
  refine ⟨⟨fun hsafe ↦ notNull_iff.mp hsafe.notNull, fun h ↦ ⟨?_, notNull_iff.mpr h⟩⟩, allFit_iff⟩
  -- where the check rejects the description there is no text
  rw [allFit_iff]
  exact fun id hnames hlt ↦ absurd hlt (Nat.not_lt.mpr (h id hnames))

section Sample

/-- `mtdparts add nor0 64k root` -/
def sampleArgs : Args := ⟨ascii "nor0", ascii "64k", ascii "root", none⟩

/-- A name of 248 bytes, with which the sum wraps to 1. -/
def longArgs : Args := ⟨ascii "nor0", ascii "64k", List.replicate 248 0x61, none⟩

/-- The store at 0 of a usual command, and a description of 258 bytes that passes the check. -/
theorem add_not_safe : ¬ Safe sampleHw sampleIds [] sampleArgs 0x1000 ∧
    ∃ r, add sampleHw sampleIds [] longArgs 0x1000 = some r ∧ r.1.length = 257 := by
  refine ⟨fun h ↦ ?_, ?_⟩
  · have hadd : (add sampleHw sampleIds [] sampleArgs 0x1000).isSome := by decide +kernel
    obtain ⟨r, hr⟩ := Option.isSome_iff_exists.mp hadd
    have hstored : ∀ r ∈ add sampleHw sampleIds [] sampleArgs 0x1000, 0 ∈ r.2.stored := by
      decide +kernel
    exact h.notNull r hr (hstored r hr)
  · have hadd : (add sampleHw sampleIds [] longArgs 0x1000).map (fun r ↦ r.1.length) = some 257 := by
      decide +kernel
    exact Option.map_eq_some_iff.mp hadd

end Sample

end UBoot.Common.MtdpartsAdd
