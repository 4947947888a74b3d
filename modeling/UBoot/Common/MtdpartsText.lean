import Mathlib.Algebra.Order.Group.Nat
import UBoot.Common.CmdJffs2
import UBoot.Lib.KeyOrder

namespace UBoot.Common.MtdpartsText

open Lib Lib.CString LibGeneric.Vsprintf CmdJffs2

section Memsize

theorem memsizeParse_suffix {q : ℕ} {c : UInt8} {rest : CStr} (hdigit : isdigit c = false)
    (hx : c ≠ 0x78) (hshifts : suffixShifts c ≠ 0) :
    memsizeParse (numberDec q ++ c :: rest) =
      (q % 4294967296 * 1024 ^ suffixShifts c % 4294967296, rest) := by
  have hread : simpleStrtoul (numberDec q ++ c :: rest) 0 = (UInt32.ofNat q, c :: rest) := by
    rw [numberDec]
    split_ifs with hq
    · subst hq
      have hzero : first ([0x30] ++ c :: rest) = 0x30 := rfl
      rw [simpleStrtoul, if_pos hzero, if_neg (fun h ↦ hx h.1), if_pos rfl]
      exact strtoulDigits_stop (by decide) 0 hdigit
    · exact simpleStrtoul_decimal (Nat.pos_of_ne_zero hq) hdigit
  rw [memsizeParse, hread]
  simp only [first, List.headD_cons, List.drop_one, List.tail_cons, UInt32.toNat_ofNat', hshifts,
    if_false]

theorem memsizeParse_plain {n : ℕ} {rest : CStr} (hn : 0 < n) (hlt : n < 4294967296)
    (hdigit : isdigit (first rest) = false) (hshifts : suffixShifts (first rest) = 0) :
    memsizeParse (numberDec n ++ rest) = (n, rest) := by
  rw [numberDec, if_neg (by omega), memsizeParse, simpleStrtoul_decimal hn hdigit]
  simp only [hshifts, if_true, UInt32.toNat_ofNat', Nat.pow_zero, Nat.mul_one]
  rw [Nat.mod_eq_of_lt (by omega : n % 2 ^ 32 < 4294967296), Nat.mod_eq_of_lt (by omega)]

theorem memsizeParse_format {n : ℕ} {rest : CStr} (hn : n < 4294967296)
    (hdigit : isdigit (first rest) = false) (hshifts : suffixShifts (first rest) = 0) :
    memsizeParse (memsizeFormat n ++ rest) = (n, rest) := by
  rw [memsizeFormat]
  split_ifs with hg hm hk
  · rw [List.append_assoc, List.singleton_append,
      memsizeParse_suffix (by decide) (by decide) (by decide)]
    have hshift : suffixShifts 0x67 = 3 := rfl
    rw [hshift]
    exact Prod.ext (by omega) rfl
  · rw [List.append_assoc, List.singleton_append,
      memsizeParse_suffix (by decide) (by decide) (by decide)]
    have hshift : suffixShifts 0x6d = 2 := rfl
    rw [hshift]
    exact Prod.ext (by omega) rfl
  · rw [List.append_assoc, List.singleton_append,
      memsizeParse_suffix (by decide) (by decide) (by decide)]
    have hshift : suffixShifts 0x6b = 1 := rfl
    rw [hshift]
    exact Prod.ext (by omega) rfl
  · exact memsizeParse_plain (by omega) hn hdigit hshifts

def isalnum (c : UInt8) : Bool :=
  isdigit c || (0x41 ≤ c && c ≤ 0x5a) || (0x61 ≤ c && c ≤ 0x7a)

theorem stops_of_not_alnum {c : UInt8} (h : isalnum c = false) :
    isdigit c = false ∧ suffixShifts c = 0 := by
  constructor
  · rw [isalnum, Bool.or_eq_false_iff, Bool.or_eq_false_iff] at h
    exact h.1.1
  · rw [suffixShifts]
    split_ifs with hg hm hk
    · rcases hg with rfl | rfl <;> cases h
    · rcases hm with rfl | rfl <;> cases h
    · rcases hk with rfl | rfl <;> cases h
    · rfl

/-- What is written is read again, up to the character behind it. -/
theorem memsize_round_trip (n : UInt32) {rest : CStr} (h : isalnum (first rest) = false) :
    memsizeParse (memsizeFormat n.toNat ++ rest) = (n.toNat, rest) := by
  obtain ⟨hdigit, hshifts⟩ := stops_of_not_alnum h
  exact memsizeParse_format n.toNat_lt hdigit hshifts

theorem memsize_round_trip_comma : isalnum 0x2c = false ∧ memsizeFormat 4096 = ascii "4k" ∧
    memsizeParse (ascii "4k,") = (4096, ascii ",") := by
  have hcomma : isalnum (first (ascii ",")) = false := by decide
  have hformat : memsizeFormat (4096 : UInt32).toNat = ascii "4k" := by decide +kernel
  have hread := memsize_round_trip 4096 hcomma
  rw [hformat] at hread
  exact ⟨hcomma, hformat, hread⟩

theorem first_numberDec (n : ℕ) (rest : CStr) : isdigit (first (numberDec n ++ rest)) = true := by
  rw [numberDec]
  split_ifs with hn
  · rfl
  · exact (first_decimal_append (Nat.pos_of_ne_zero hn) rest).1

theorem first_memsizeFormat (n : ℕ) (rest : CStr) :
    isdigit (first (memsizeFormat n ++ rest)) = true := by
  rw [memsizeFormat]
  split_ifs
  all_goals
    try rw [List.append_assoc]
    exact first_numberDec _ _

end Memsize

/-- What `part_validate` checks. -/
structure Valid (hw : Hardware) (id : MtdId) (part : PartInfo) : Prop where
  offset_le : part.offset ≤ id.size
  lt_end : part.offset < (part.offset + part.size) % 4294967296
  end_le : (part.offset + part.size) % 4294967296 ≤ id.size
  aligned : partAligned hw id part = true

/-- A partition as the parser leaves it. -/
structure GoodPart (hw : Hardware) (id : MtdId) (part : PartInfo) : Prop extends Valid hw id part where
  size_lt : part.size < 4294967296
  maskFlags : part.maskFlags = 0 ∨ part.maskFlags = mtdWriteableCmd
  name : part.autoName = false → part.name ≠ [] ∧ 0x29 ∉ part.name

/-- A partition without a generated name. -/
def keyOf (part : PartInfo) : PartInfo := { part with name := if part.autoName then [] else part.name }

/-- The end of the partition in front. -/
def endOf : Option PartInfo → ℕ
  | none => 0
  | some prev => (prev.offset + prev.size) % 4294967296

def partText (prev : Option PartInfo) (part : PartInfo) : CStr :=
  memsizeFormat part.size ++ (offsetText prev part ++ (nameText part ++ maskFlagsText part))

section Part

variable {hw : Hardware} {id : MtdId} {part part' : PartInfo} {prev : Option PartInfo} {rest : CStr}

theorem partValidate_eq_some : partValidate hw id part = some part' ↔
    part' = resolveSize id part ∧ Valid hw id part' := by
  rw [partValidate]
  constructor
  · intro h
    split_ifs at h with h₁ h₂ h₃ h₄
    cases h
    exact ⟨rfl, Nat.le_of_not_lt h₁, Nat.lt_of_not_le h₂, Nat.le_of_not_lt h₃, h₄⟩
  · rintro ⟨rfl, hoffset, hend, hle, haligned⟩
    rw [if_neg (by omega), if_neg (by omega), if_neg (by omega), if_pos haligned]

theorem Valid.congr (h : Valid hw id part) (hoffset : part'.offset = part.offset)
    (hsize : part'.size = part.size) : Valid hw id part' := by
  obtain ⟨h₁, h₂, h₃, h₄⟩ := h
  rw [← hoffset, ← hsize] at h₂ h₃
  refine ⟨by omega, h₂, h₃, ?_⟩
  rw [← h₄, partAligned, partAligned, partValidateNor, partValidateNor, partValidateNand,
    partValidateNand, hoffset, hsize]

theorem Valid.end_lt (h : Valid hw id part) (hsize : part.size < 4294967296) :
    part.offset + part.size < 4294967296 := by
  have hend := h.lt_end
  have hle := h.offset_le
  have hid := id.size_lt
  omega

theorem Valid.resolveSize_eq (h : Valid hw id part) (hsize : part.size < 4294967296) :
    resolveSize id part = part := by
  rw [resolveSize]
  split_ifs with hremaining
  · have hlt := h.end_lt hsize
    have hle := h.end_le
    have hid := id.size_lt
    rw [sizeRemaining] at hremaining
    have hsame : (id.size + 4294967296 - part.offset) % 4294967296 = part.size := by omega
    rw [hsame]
  · rfl

theorem partValidate_of_valid (h : Valid hw id part) (hsize : part.size < 4294967296) :
    partValidate hw id part = some part :=
  partValidate_eq_some.mpr ⟨(h.resolveSize_eq hsize).symm, h⟩

theorem keyOf_eq (h : keyOf part' = keyOf part) : part'.offset = part.offset ∧
    part'.size = part.size ∧ part'.autoName = part.autoName ∧ part'.maskFlags = part.maskFlags := by
  rw [keyOf, keyOf, PartInfo.mk.injEq] at h
  exact ⟨h.2.2.2.1, h.2.2.1, h.2.1, h.2.2.2.2⟩

theorem offsetText_eq : offsetText prev part =
    if part.offset = endOf prev then [] else 0x40 :: memsizeFormat part.offset := by
  cases prev <;> rfl

/-- A definition ends here. -/
def Ends (rest : CStr) : Prop := first rest ∈ [0x2c, 0x3b, 0]

theorem first_maskFlagsText (h : Ends rest) :
    first (maskFlagsText part ++ rest) ∈ [0x72, 0x2c, 0x3b, 0] := by
  rw [maskFlagsText]
  split_ifs
  · exact List.mem_cons_of_mem _ h
  · exact List.mem_cons_self

theorem first_nameText (h : Ends rest) : first (nameText part ++ (maskFlagsText part ++ rest)) ∈
    [0x28, 0x72, 0x2c, 0x3b, 0] := by
  rw [nameText]
  split_ifs
  · exact List.mem_cons_of_mem _ (first_maskFlagsText h)
  · exact List.mem_cons_self

theorem first_offsetText (h : Ends rest) :
    first (offsetText prev part ++ (nameText part ++ (maskFlagsText part ++ rest))) ∈
      [0x40, 0x28, 0x72, 0x2c, 0x3b, 0] := by
  rw [offsetText_eq]
  split_ifs
  · exact List.mem_cons_of_mem _ (first_nameText h)
  · exact List.mem_cons_self

theorem stops : ∀ c ∈ [0x40, 0x28, 0x72, 0x2c, 0x3b, 0],
    isdigit c = false ∧ suffixShifts c = 0 := by
  decide +kernel

theorem sizeParse_text (hsize : part.size < 4294967296) (hmin : minPartSize ≤ part.size)
    {tail : CStr} (htail : first tail ∈ [0x40, 0x28, 0x72, 0x2c, 0x3b, 0]) :
    sizeParse (memsizeFormat part.size ++ tail) = some (part.size, tail) := by
  obtain ⟨hdigit, hshifts⟩ := stops _ htail
  have hminus : first (memsizeFormat part.size ++ tail) ≠ 0x2d := by
    intro heq
    have hfirst := first_memsizeFormat part.size tail
    rw [heq] at hfirst
    exact absurd hfirst (by decide)
  rw [sizeParse, if_neg hminus, memsizeParse_format hsize hdigit hshifts]
  simp only
  rw [if_neg (by omega)]

theorem offsetParse_text (hoffset : part.offset < 4294967296) {tail : CStr}
    (htail : first tail ∈ [0x28, 0x72, 0x2c, 0x3b, 0]) :
    offsetParse (offsetText prev part ++ tail) =
      (if part.offset = endOf prev then offsetNotSpecified else part.offset, tail) := by
  obtain ⟨hdigit, hshifts⟩ := stops _ (List.mem_cons_of_mem _ htail)
  rw [offsetText_eq]
  split_ifs
  · have hat : ∀ c ∈ [0x28, 0x72, 0x2c, 0x3b, 0], c ≠ (0x40 : UInt8) := by decide +kernel
    rw [List.nil_append, offsetParse, if_neg (hat _ htail)]
  · rw [List.cons_append, offsetParse, if_pos (first_cons _ _)]
    exact memsizeParse_format hoffset hdigit hshifts

theorem takeWhile_append_of_notMem {c : UInt8} {l : CStr} (h : c ∉ l) (rest : CStr) :
    (l ++ c :: rest).takeWhile (· ≠ c) = l ∧ (l ++ c :: rest).dropWhile (· ≠ c) = c :: rest := by
  have hall : ∀ d ∈ l, decide (d ≠ c) = true := by
    intro d hd
    simp only [ne_eq, decide_eq_true_eq]
    rintro rfl
    exact h hd
  rw [List.takeWhile_append_of_pos hall, List.dropWhile_append_of_pos hall]
  simp

theorem nameParse_text (hname : part.autoName = false → part.name ≠ [] ∧ 0x29 ∉ part.name)
    {tail : CStr} (htail : first tail ∈ [0x72, 0x2c, 0x3b, 0]) :
    nameParse (nameText part ++ tail) =
      some (if part.autoName then none else some part.name, tail) := by
  rw [nameText]
  split_ifs with hauto
  · have hopen : ∀ c ∈ [0x72, 0x2c, 0x3b, 0], c ≠ (0x28 : UInt8) := by decide +kernel
    rw [List.nil_append, nameParse, if_neg (hopen _ htail)]
  · obtain ⟨hne, hclose⟩ := hname (by simpa using hauto)
    obtain ⟨htake, hdrop⟩ := takeWhile_append_of_notMem hclose tail
    rw [List.cons_append, List.append_assoc, List.singleton_append, nameParse,
      if_pos (first_cons _ _)]
    simp only [List.drop_one, List.tail_cons, htake, hdrop]
    rw [if_neg (List.cons_ne_nil _ _), if_neg hne]

theorem maskFlagsParse_text (hflags : part.maskFlags = 0 ∨ part.maskFlags = mtdWriteableCmd)
    (h : Ends rest) : maskFlagsParse (maskFlagsText part ++ rest) = (part.maskFlags, rest) := by
  rw [maskFlagsText]
  rcases hflags with hzero | hone
  · have hro : hasPrefix rest (ascii "ro") = false := by
      cases rest with
      | nil => rfl
      | cons c rest =>
        have hr : ∀ c ∈ [0x2c, 0x3b, 0], ((0x72 : UInt8) == c) = false := by decide +kernel
        have hc : ((0x72 : UInt8) == c) = false := hr c h
        exact Bool.and_eq_false_iff.mpr (Or.inl hc)
    rw [if_pos hzero, List.nil_append, maskFlagsParse, hro, hzero]
    rfl
  · rw [hone, if_neg (by decide)]
    have hprefix : hasPrefix (ascii "ro" ++ rest) (ascii "ro") = true := by
      simp [hasPrefix]
    rw [maskFlagsParse, if_pos hprefix]
    rfl

/-- What is behind a definition. -/
def behind (rest : CStr) : CStr := if first rest = 0x2c then rest.drop 1 else rest

theorem partEnd_of_ends {size : ℕ} (h : Ends rest)
    (hlast : first rest = 0x2c → size ≠ sizeRemaining) : partEnd size rest = some (behind rest) := by
  rw [partEnd, behind]
  split_ifs with hcomma hsize hstop
  · exact absurd hsize (hlast hcomma)
  · rfl
  · rfl
  · exfalso
    rw [Ends, List.mem_cons, List.mem_cons, List.mem_singleton] at h
    obtain h | h := h
    · exact hcomma h
    · exact hstop h

/-- The partition as it is read from its definition. -/
def reread (prev : Option PartInfo) (part : PartInfo) : PartInfo :=
  let offset := if part.offset = endOf prev then offsetNotSpecified else part.offset
  { part with
    name := if part.autoName then autoNameOf part.size offset else part.name
    offset := offset }

theorem partParse_text (h : GoodPart hw id part) (hmin : minPartSize ≤ part.size) (hends : Ends rest)
    (hlast : first rest = 0x2c → part.size ≠ sizeRemaining) :
    partParse (partText prev part ++ rest) = some (reread prev part, behind rest) := by
  have hlt := h.end_lt h.size_lt
  rw [partText, List.append_assoc, List.append_assoc, List.append_assoc, partParse,
    sizeParse_text h.size_lt hmin (first_offsetText hends)]
  simp only [Option.bind_eq_bind, Option.bind_some]
  rw [offsetParse_text (by omega) (first_nameText hends)]
  simp only
  rw [nameParse_text h.name (first_maskFlagsText hends)]
  simp only [Option.bind_some]
  rw [maskFlagsParse_text h.maskFlags hends]
  simp only
  rw [partEnd_of_ends hends hlast]
  simp only [Option.bind_some, reread]
  cases part.autoName <;> rfl

theorem keyOf_reread (prev : Option PartInfo) (h : GoodPart hw id part) :
    keyOf (resolveOffset (endOf prev) (reread prev part)) = keyOf part := by
  have hoffset : part.offset ≠ offsetNotSpecified := by
    have hlt := h.end_lt h.size_lt
    have hpos := h.lt_end
    rw [Nat.mod_eq_of_lt hlt] at hpos
    rw [offsetNotSpecified]
    omega
  rw [resolveOffset, reread]
  simp only
  split_ifs with hgap <;> cases hauto : part.autoName <;> simp_all [keyOf]

end Part

def partsText (prev : Option PartInfo) : List PartInfo → CStr
  | [] => []
  | part :: parts =>
    partText prev part ++ ((if parts = [] then [] else [0x2c]) ++ partsText (some part) parts)

def deviceText (dev : Device) : CStr := dev.id.mtdId ++ 0x3a :: partsText none dev.parts

def devicesText : List Device → CStr
  | [] => []
  | dev :: devices => deviceText dev ++ ((if devices = [] then [] else [0x3b]) ++ devicesText devices)

section Generate

variable {out : CStr} {room : ℕ}

theorem emit_eq {chunk : CStr} (h : chunk.length ≤ room) :
    emit chunk (out, room) = some (out ++ chunk, room - chunk.length) := by
  rw [emit, if_neg (Nat.not_lt.mpr h)]

theorem generateParts_eq {parts : List PartInfo} {prev : Option PartInfo}
    (h : (partsText prev parts).length ≤ room) : generateParts prev parts (out, room) =
      some (out ++ partsText prev parts, room - (partsText prev parts).length) := by
  induction parts generalizing prev out room with
  | nil => simp [generateParts, partsText]
  | cons part parts ih =>
    simp only [partsText, partText, List.length_append] at h
    rw [generateParts]
    simp only [Option.bind_eq_bind]
    rw [emit_eq (by omega), Option.bind_some, emit_eq (by omega), Option.bind_some,
      emit_eq (by omega), Option.bind_some, emit_eq (by omega), Option.bind_some,
      emit_eq (by omega), Option.bind_some, ih (by omega)]
    simp only [partsText, partText, List.append_assoc, List.length_append, Nat.sub_sub,
      Nat.add_assoc]

theorem deviceText_eq (dev : Device) :
    deviceText dev = (dev.id.mtdId ++ [0x3a]) ++ partsText none dev.parts := by
  simp [deviceText]

theorem generateDevices_eq {devices : List Device} (h : (devicesText devices).length ≤ room) :
    generateDevices devices (out, room) =
      some (out ++ devicesText devices, room - (devicesText devices).length) := by
  induction devices generalizing out room with
  | nil => simp [generateDevices, devicesText]
  | cons dev devices ih =>
    have hlength : (devicesText (dev :: devices)).length = (dev.id.mtdId ++ [0x3a]).length +
        (partsText none dev.parts).length + ((if devices = [] then [] else [0x3b] : CStr).length +
          (devicesText devices).length) := by
      rw [devicesText, deviceText_eq]
      simp only [List.length_append]
    rw [hlength] at h
    rw [generateDevices]
    simp only [Option.bind_eq_bind]
    rw [emit_eq (by omega), Option.bind_some, generateParts_eq (by omega), Option.bind_some,
      emit_eq (by omega), Option.bind_some, ih (by omega), devicesText, deviceText_eq]
    simp only [List.append_assoc, List.length_append, Nat.sub_sub, Nat.add_assoc]

theorem generateMtdparts_eq {devices : List Device} (hne : devices ≠ []) {buflen : ℕ}
    (h : (devicesText devices).length < buflen) :
    generateMtdparts devices buflen = some (ascii "mtdparts=" ++ devicesText devices) := by
  rw [generateMtdparts, if_neg hne, generateDevices_eq (by omega), Option.map_some]

end Generate

section Parse

variable {hw : Hardware} {id : MtdId} {rest : CStr}

/-- The partitions that the parser takes back. -/
structure Readable (parts : List PartInfo) : Prop where
  min : ∀ part ∈ parts, minPartSize ≤ part.size
  remaining : ∀ part ∈ parts.dropLast, part.size ≠ sizeRemaining

theorem Readable.tail {part : PartInfo} {parts : List PartInfo} (h : Readable (part :: parts)) :
    Readable parts := by
  refine ⟨fun p hp ↦ h.min p (List.mem_cons_of_mem part hp), fun p hp ↦ h.remaining p ?_⟩
  cases parts with
  | nil => cases hp
  | cons q parts => exact List.mem_cons_of_mem part hp

theorem first_partsText (prev : Option PartInfo) (part : PartInfo) (parts : List PartInfo) (tail : CStr) :
    isdigit (first (partsText prev (part :: parts) ++ tail)) = true := by
  rw [partsText, partText, List.append_assoc, List.append_assoc]
  exact first_memsizeFormat _ _

/-- The definitions of a device end here. -/
def Closes (rest : CStr) : Prop := first rest ∈ [0x3b, 0]

theorem closes_iff : Closes rest ↔ first rest = 0 ∨ first rest = 0x3b := by
  rw [Closes, List.mem_cons, List.mem_singleton, or_comm]

theorem Closes.ne_comma (h : Closes rest) : first rest ≠ 0x2c := by
  have hne : ∀ c ∈ [0x3b, 0], c ≠ (0x2c : UInt8) := by decide +kernel
  exact hne _ h

theorem partsText_cons {part : PartInfo} {parts : List PartInfo} (prev : Option PartInfo)
    (h : Readable (part :: parts)) (hrest : Closes rest) :
    ∃ tail, partsText prev (part :: parts) ++ rest = partText prev part ++ tail ∧ Ends tail ∧
      (first tail = 0x2c → part.size ≠ sizeRemaining) ∧
      behind tail = partsText (some part) parts ++ rest := by
  cases parts with
  | nil =>
    refine ⟨rest, by simp [partsText], List.mem_cons_of_mem _ hrest,
      fun hcomma ↦ absurd hcomma hrest.ne_comma, ?_⟩
    rw [behind, if_neg hrest.ne_comma]
    rfl
  | cons q parts =>
    refine ⟨0x2c :: (partsText (some part) (q :: parts) ++ rest), ?_, List.mem_cons_self,
      fun _ ↦ h.remaining part List.mem_cons_self, rfl⟩
    simp [partsText]

theorem partsParse_text {parts : List PartInfo} (prev : Option PartInfo) (fuel : ℕ)
    (hgood : ∀ part ∈ parts, GoodPart hw id part) (h : Readable parts) (hrest : Closes rest) :
    ∃ parts', partsParse hw id (parts.length + fuel + 1) (endOf prev) (partsText prev parts ++ rest) =
      some (parts', rest) ∧ parts'.map keyOf = parts.map keyOf := by
  induction parts generalizing prev fuel with
  | nil => exact ⟨[], by rw [partsText, List.nil_append, partsParse, if_pos (closes_iff.mp hrest)], rfl⟩
  | cons part parts ih =>
    have hpart := hgood part List.mem_cons_self
    obtain ⟨tail, htext, hends, hlast, hbehind⟩ := partsText_cons prev h hrest
    have hkey := keyOf_reread prev hpart
    obtain ⟨hoffset, hsize, -, -⟩ := keyOf_eq hkey
    obtain ⟨parts', hparse, hkeys⟩ := ih (some part) fuel
      (fun p hp ↦ hgood p (List.mem_cons_of_mem part hp)) h.tail
    have hstart : ¬ Closes (partsText prev (part :: parts) ++ rest) := by
      intro hcloses
      have hdigit : ∀ c ∈ [0x3b, 0], isdigit c = false := by decide +kernel
      have hfirst := first_partsText prev part parts rest
      rw [hdigit _ hcloses] at hfirst
      cases hfirst
    refine ⟨resolveOffset (endOf prev) (reread prev part) :: parts', ?_, ?_⟩
    · rw [partsParse, if_neg (by rwa [← closes_iff]), htext,
        partParse_text hpart (h.min part List.mem_cons_self) hends hlast, hbehind]
      simp only [Option.bind_eq_bind, Option.bind_some]
      rw [partValidate_of_valid (hpart.toValid.congr hoffset hsize)
        (by rw [hsize]; exact hpart.size_lt)]
      simp only [Option.bind_some, hoffset, hsize]
      rw [show (part.offset + part.size) % 4294967296 = endOf (some part) from rfl,
        show (part :: parts).length + fuel = parts.length + fuel + 1 by
          rw [List.length_cons]; omega, hparse]
      rfl
    · rw [List.map_cons, List.map_cons, hkeys, hkey]

end Parse

end UBoot.Common.MtdpartsText
