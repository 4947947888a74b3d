import UBoot.LibGeneric.Vsprintf

namespace UBoot.Common.SRecord

open Lib.CString

/-- The types of records, and `SREC_EMPTY`. -/
inductive SrecType
  | start | data2 | data3 | data4 | count | end4 | end3 | end2 | empty
deriving DecidableEq

inductive SrecError
  | badtype | nosrec | badchks
deriving DecidableEq

/-- What `srec_decode` returns; `count` can be negative. -/
structure Srec where
  type : SrecType
  count : ℤ
  addr : ℕ
  data : List UInt8
deriving DecidableEq

def hex1Bin (c : UInt8) : Option ℕ :=
  if 0x30 ≤ c ∧ c ≤ 0x39 then some (c.toNat - 0x30)
  else if 0x61 ≤ c ∧ c ≤ 0x66 then some (c.toNat + 10 - 0x61)
  else if 0x41 ≤ c ∧ c ≤ 0x46 then some (c.toNat + 10 - 0x41)
  else none

/-- The end of the text is a NUL, which is no digit. -/
def hex2Bin : CStr → Option ℕ
  | a :: b :: _ => do
    let i ← hex1Bin a
    let j ← hex1Bin b
    return i * 16 + j
  | _ => none

/-- `n` calls of `hex2_bin`, each two characters further on. -/
def hexBytes : ℕ → CStr → Option (List ℕ × CStr)
  | 0, input => some ([], input)
  | n + 1, input => do
    let v ← hex2Bin input
    let (vs, rest) ← hexBytes n (input.drop 2)
    return (v :: vs, rest)

/-- The type of a record, and the bytes of its address. -/
def recordType (v : UInt8) : Option (SrecType × ℕ) :=
  match v.toNat with
  | 0x30 => some (.start, 2)
  | 0x31 => some (.data2, 2)
  | 0x32 => some (.data3, 3)
  | 0x33 => some (.data4, 4)
  | 0x35 => some (.count, 2)
  | 0x37 => some (.end4, 4)
  | 0x38 => some (.end3, 3)
  | 0x39 => some (.end2, 2)
  | _ => none

def orError {α : Type} (e : SrecError) : Option α → Except SrecError α
  | some a => .ok a
  | none => .error e

def srecDecode (input : CStr) : Except SrecError Srec :=
  match (input.dropWhile (· != 0x53)).drop 1 with
  | [] => return ⟨.empty, 0, 0, []⟩
  | v :: input => do
    let length ← orError .nosrec (hex2Bin input)
    let (type, addrLen) ← orError .badtype (recordType v)
    let count : ℤ := if type = .count then 0 else length - (addrLen + 1)
    let (address, input) ← orError .nosrec (hexBytes addrLen (input.drop 2))
    let (data, input) ← orError .nosrec (hexBytes count.toNat input)
    let v ← orError .nosrec (hex2Bin input)
    let chksum := length + address.sum + data.sum
    if v ≠ 255 - chksum % 256 then throw .badchks
    return ⟨type, count, address.foldl (fun a v ↦ a * 256 + v) 0, data.map UInt8.ofNat⟩

end UBoot.Common.SRecord
