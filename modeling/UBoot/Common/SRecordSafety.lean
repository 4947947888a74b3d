import UBoot.Common.CmdLoad
import UBoot.Lib.ReadLog

namespace UBoot.Common.SRecordSafety

open Lib.CString Lib.Memory Lib.ReadLog SRecord CmdLoad

def srecMaxbinlen : ℕ := 255

/-- What a call of `srec_decode` leaves behind; `data` is what it has written, also when it gives the
record up. -/
structure Decoded where
  ret : Except SrecError SrecType
  count : ℤ
  addr : ℕ
  data : List ℕ

/-- The loop that skips everything up to an `S`. -/
def skipToS : ℕ → ℕ → Reader ℕ
  | 0, input => return input
  | fuel + 1, input => do
    let c ← Reader.read input
    if c = 0 then return input
    else if c = 0x53 then return input + 1
    else skipToS fuel (input + 1)

/-- `hex2_bin`, which looks at the second digit behind a first one only. -/
def hex2BinAt (s : ℕ) : Reader (Option ℕ) := do
  let c ← Reader.read s
  match hex1Bin c with
  | none => return none
  | some i => do
    let d ← Reader.read (s + 1)
    return (hex1Bin d).map (i * 16 + ·)

/-- `n` bytes of the address or the data: those in front of a bad digit, and whether there is none. -/
def fieldAt : ℕ → ℕ → Reader (List ℕ × Bool)
  | 0, _ => return ([], true)
  | n + 1, input => do
    let v ← hex2BinAt input
    match v with
    | none => return ([], false)
    | some v => do
      let r ← fieldAt n (input + 2)
      return (v :: r.1, r.2)

/-- `srec_decode` behind the address; `sum` is the checksum so far. -/
def decodeData (sum : ℕ) (type : SrecType) (count : ℤ) (addr input : ℕ) : Reader Decoded := do
  let data ← fieldAt count.toNat input
  if data.2 = false then return ⟨.error .nosrec, count, addr, data.1⟩
  else
    let v ← hex2BinAt (input + 2 * count.toNat)
    let chksum := sum + data.1.sum
    match v with
    | none => return ⟨.error .nosrec, count, addr, data.1⟩
    | some v =>
      if v ≠ 255 - chksum % 256 then return ⟨.error .badchks, count, addr, data.1⟩
      else return ⟨.ok type, count, addr, data.1⟩

/-- `srec_decode` behind the type and the count byte. -/
def decodeFields (length : ℕ) (type : SrecType) (addrLen input : ℕ) : Reader Decoded := do
  let count : ℤ := if type = .count then 0 else length - (addrLen + 1)
  let address ← fieldAt addrLen input
  let addr := address.1.foldl (fun a v ↦ a * 256 + v) 0
  if address.2 = false then return ⟨.error .nosrec, count, addr, []⟩
  else decodeData (length + address.1.sum) type count addr (input + 2 * addrLen)

/-- `srec_decode` with the addresses that it reads; `fuel` bounds the search for the `S`. -/
def srecDecodeAt (fuel input : ℕ) : Reader Decoded := do
  let input ← skipToS fuel input
  let v ← Reader.read input
  if v = 0 then return ⟨.ok .empty, 0, 0, []⟩
  else
    let length ← hex2BinAt (input + 1)
    match length, recordType v with
    | none, _ => return ⟨.error .nosrec, -1, 0, []⟩
    | some length, none => return ⟨.error .badtype, length, 0, []⟩
    | some length, some (type, addrLen) => decodeFields length type addrLen (input + 3)

/-- The record in the form in which `load_serial` takes it. -/
def Decoded.srec (d : Decoded) : Except SrecError Srec :=
  d.ret.map fun type ↦ ⟨type, d.count, d.addr, d.data.map UInt8.ofNat⟩

def IsData (type : SrecType) : Prop := type = .data2 ∨ type = .data3 ∨ type = .data4

instance : DecidablePred IsData := fun _ ↦ inferInstanceAs (Decidable (_ ∨ _ ∨ _))

/-- The line is NUL-terminated and stands at `p`. -/
def StringAt (m : Mem) (p : ℕ) (s : CStr) : Prop :=
  NulFree s ∧ bytes m p (s.length + 1) = s ++ [0]

/-- What the decoder should do with the line at `p`. -/
structure Safe (m : Mem) (p : ℕ) (s : CStr) : Prop where
  reads : (srecDecodeAt (s.length + 1) p).Below m (p + s.length + 1)
  writes : ((srecDecodeAt (s.length + 1) p).value m).data.length ≤ srecMaxbinlen
  count : ∀ r, ((srecDecodeAt (s.length + 1) p).value m).srec = .ok r → IsData r.type →
    0 ≤ r.count ∧ r.count ≤ 252 ∧ r.count = r.data.length
  copy : ∀ r, ((srecDecodeAt (s.length + 1) p).value m).srec = .ok r → IsData r.type →
    ∀ offset st, (storeRecord offset r st).isSome

/-- A data record whose count byte is smaller than the number of bytes of its address and its
checksum, and which is all right otherwise. -/
def ShortData (s : CStr) : Prop :=
  ∃ v input length type addrLen address rest,
    (s.dropWhile (· != 0x53)).drop 1 = v :: input ∧ hex2Bin input = some length ∧
      recordType v = some (type, addrLen) ∧ IsData type ∧ length < addrLen + 1 ∧
      hexBytes addrLen (input.drop 2) = some (address, rest) ∧
      hex2Bin rest = some (255 - (length + address.sum) % 256)

section Reads

variable {m : Mem} {p : ℕ} {s : CStr} {c : UInt8}

theorem StringAt.first (h : StringAt m p s) : m p = first s := by
  cases s with
  | nil => exact apply_of_bytes h.2 (i := 0) (by simp)
  | cons c s => exact apply_of_bytes h.2 (i := 0) (by simp)

theorem StringAt.tail (h : StringAt m p (c :: s)) : StringAt m (p + 1) s := by
  refine ⟨fun x hx ↦ h.1 x (List.mem_cons_of_mem c hx), ?_⟩
  have hrest := (bytes_eq_append (a := [c]) (b := s ++ [0]) h.2).2
  rwa [List.length_append] at hrest

theorem StringAt.drop {n : ℕ} (h : StringAt m p s) (hn : n ≤ s.length) :
    StringAt m (p + n) (s.drop n) := by
  induction n generalizing p s with
  | zero => exact h
  | succ n ih =>
    obtain _ | ⟨c, s⟩ := s
    · simp at hn
    · rw [Nat.add_comm n, ← Nat.add_assoc, Nat.add_comm 1, List.drop_succ_cons]
      exact ih h.tail (by simpa using hn)

/-- The search stops behind the first `S`, or at the end of the string. -/
theorem skipToS_spec {fuel : ℕ} (h : StringAt m p s) (hfuel : s.length < fuel) :
    (∃ n ≤ s.length, (skipToS fuel p).value m = p + n ∧
      s.drop n = (s.dropWhile (· != 0x53)).drop 1) ∧
      (skipToS fuel p).Below m (p + s.length + 1) := by
  induction fuel generalizing p s with
  | zero => omega
  | succ fuel ih =>
    rw [skipToS, Reader.value_bind, Reader.below_bind, Reader.below_read, Reader.value_read,
      h.first]
    cases s with
    | nil => exact ⟨⟨0, Nat.le_refl 0, rfl, rfl⟩, Nat.lt_succ_self p, Reader.below_pure p⟩
    | cons c s =>
      have hc : c ≠ 0 := h.1 c List.mem_cons_self
      have hp : p < p + (c :: s).length + 1 := by omega
      rw [first_cons, if_neg hc]
      split_ifs with hS
      · refine ⟨⟨1, by simp, rfl, ?_⟩, hp, Reader.below_pure _⟩
        rw [List.dropWhile_cons_of_neg (by simpa using hS)]
      · obtain ⟨⟨n, hn, hvalue, hrest⟩, hbelow⟩ := ih h.tail (by simpa using hfuel)
        refine ⟨⟨n + 1, by simpa using hn, ?_, ?_⟩, hp, ?_⟩
        · rw [hvalue, Nat.add_assoc, Nat.add_comm 1]
        · rw [List.dropWhile_cons_of_pos (by simpa using hS), List.drop_succ_cons, hrest]
        · rw [Nat.add_assoc, Nat.add_assoc, Nat.add_comm 1] at hbelow
          exact hbelow

theorem hex2BinAt_value (h : StringAt m p s) : (hex2BinAt p).value m = hex2Bin s := by
  rw [hex2BinAt, Reader.value_bind, Reader.value_read, h.first]
  cases s with
  | nil => rfl
  | cons a s =>
    have hb := h.tail.first
    rw [first_cons]
    cases ha : hex1Bin a with
    | none => cases s <;> simp [hex2Bin, ha]
    | some i =>
      rw [Reader.value_bind, Reader.value_read, Reader.value_pure, hb]
      cases s with
      | nil => rfl
      | cons b s => simp [hex2Bin, ha, first_cons]; cases hex1Bin b <;> rfl

theorem hex2BinAt_below (h : StringAt m p s) : (hex2BinAt p).Below m (p + s.length + 1) := by
  rw [hex2BinAt, Reader.below_bind, Reader.below_read, Reader.value_read, h.first]
  refine ⟨by omega, ?_⟩
  cases s with
  | nil => exact Reader.below_pure none
  | cons a s =>
    rw [first_cons]
    cases hex1Bin a with
    | none => exact Reader.below_pure none
    | some i =>
      rw [Reader.below_bind, Reader.below_read, List.length_cons]
      exact ⟨by omega, Reader.below_pure _⟩

theorem length_of_hex2Bin {v : ℕ} (h : hex2Bin s = some v) : 2 ≤ s.length := by
  obtain _ | ⟨a, _ | ⟨b, s⟩⟩ := s
  · cases h
  · cases h
  · simp

theorem fieldAt_below (n : ℕ) (h : StringAt m p s) :
    (fieldAt n p).Below m (p + s.length + 1) := by
  induction n generalizing p s with
  | zero => exact Reader.below_pure _
  | succ n ih =>
    rw [fieldAt, Reader.below_bind, hex2BinAt_value h]
    refine ⟨hex2BinAt_below h, ?_⟩
    cases hv : hex2Bin s with
    | none => exact Reader.below_pure _
    | some v =>
      have hlen := length_of_hex2Bin hv
      have hrest := ih (h.drop hlen)
      rw [List.length_drop] at hrest
      rw [Reader.below_bind]
      refine ⟨?_, Reader.below_pure _⟩
      have heq : p + 2 + (s.length - 2) + 1 = p + s.length + 1 := by omega
      rwa [heq] at hrest

theorem hexBytes_succ (n : ℕ) (s : CStr) :
    hexBytes (n + 1) s = (hex2Bin s).bind fun v ↦ (hexBytes n (s.drop 2)).map fun r ↦
      (v :: r.1, r.2) := by
  rw [hexBytes]
  cases hex2Bin s with
  | none => rfl
  | some v => cases hexBytes n (s.drop 2) <;> rfl

/-- A good field is read up to its end. -/
theorem fieldAt_some {n : ℕ} {r : List ℕ × CStr} (h : StringAt m p s)
    (hr : hexBytes n s = some r) :
    (fieldAt n p).value m = (r.1, true) ∧ r.1.length = n ∧ 2 * n ≤ s.length ∧
      r.2 = s.drop (2 * n) := by
  induction n generalizing p s r with
  | zero =>
    cases hr
    simp [fieldAt]
  | succ n ih =>
    rw [hexBytes_succ] at hr
    obtain ⟨v, hv, hr⟩ := Option.bind_eq_some_iff.mp hr
    obtain ⟨r', hr', rfl⟩ := Option.map_eq_some_iff.mp hr
    have hlen := length_of_hex2Bin hv
    obtain ⟨hvalue, hn, hle, hdrop⟩ := ih (h.drop hlen) hr'
    rw [List.length_drop] at hle
    rw [List.drop_drop] at hdrop
    rw [fieldAt, Reader.value_bind, hex2BinAt_value h, hv]
    refine ⟨?_, by rw [List.length_cons, hn], by omega, ?_⟩
    · rw [Reader.value_bind, hvalue]
      rfl
    · rw [hdrop, Nat.mul_succ, Nat.add_comm]

/-- Of a bad field not more is written than it should have. -/
theorem fieldAt_none {n : ℕ} (h : StringAt m p s) (hr : hexBytes n s = none) :
    ((fieldAt n p).value m).2 = false ∧ ((fieldAt n p).value m).1.length ≤ n := by
  induction n generalizing p s with
  | zero => cases hr
  | succ n ih =>
    rw [hexBytes_succ] at hr
    rw [fieldAt, Reader.value_bind, hex2BinAt_value h]
    cases hv : hex2Bin s with
    | none => exact ⟨rfl, Nat.zero_le _⟩
    | some v =>
      rw [hv, Option.bind_some, Option.map_eq_none_iff] at hr
      obtain ⟨hbad, hle⟩ := ih (h.drop (length_of_hex2Bin hv)) hr
      exact ⟨hbad, Nat.succ_le_succ hle⟩

theorem fieldAt_length_le (n : ℕ) (h : StringAt m p s) :
    ((fieldAt n p).value m).1.length ≤ n := by
  cases hr : hexBytes n s with
  | none => exact (fieldAt_none h hr).2
  | some r =>
    obtain ⟨hvalue, hn, -⟩ := fieldAt_some h hr
    rw [hvalue, hn]

end Reads

section Decode

variable {m : Mem} {p length addrLen sum addr : ℕ} {s : CStr} {type : SrecType} {count : ℤ}

/-- The checksum behind the data, as a function of the string. -/
def finish (sum : ℕ) (type : SrecType) (count : ℤ) (addr : ℕ) (r : List ℕ × CStr) :
    Except SrecError Srec :=
  (orError .nosrec (hex2Bin r.2)).bind fun v ↦
    if v ≠ 255 - (sum + r.1.sum) % 256 then .error .badchks
    else .ok ⟨type, count, addr, r.1.map UInt8.ofNat⟩

theorem below_rest {n : ℕ} {α : Type} {x : Reader α} (hn : n ≤ s.length)
    (h : x.Below m (p + n + (s.drop n).length + 1)) : x.Below m (p + s.length + 1) := by
  have hend : p + n + (s.drop n).length + 1 = p + s.length + 1 := by
    rw [List.length_drop]
    omega
  rwa [hend] at h

theorem decodeData_below (h : StringAt m p s) :
    (decodeData sum type count addr p).Below m (p + s.length + 1) := by
  rw [decodeData, Reader.below_bind]
  refine ⟨fieldAt_below _ h, ?_⟩
  cases hdata : hexBytes count.toNat s with
  | none =>
    rw [if_pos (fieldAt_none h hdata).1]
    exact Reader.below_pure _
  | some r =>
    obtain ⟨hvalue, -, hle, -⟩ := fieldAt_some h hdata
    rw [hvalue, if_neg Bool.true_eq_false.mp, Reader.below_bind]
    refine ⟨below_rest hle (hex2BinAt_below (h.drop hle)), ?_⟩
    cases (hex2BinAt (p + 2 * count.toNat)).value m with
    | none => exact Reader.below_pure _
    | some v =>
      dsimp only
      split_ifs <;> exact Reader.below_pure _

theorem decodeData_data (h : StringAt m p s) :
    ((decodeData sum type count addr p).value m).data.length ≤ count.toNat := by
  have hle := fieldAt_length_le count.toNat h
  rw [decodeData, Reader.value_bind]
  split_ifs
  · exact hle
  rw [Reader.value_bind]
  cases (hex2BinAt (p + 2 * count.toNat)).value m with
  | none => exact hle
  | some v =>
    dsimp only
    split_ifs <;> exact hle

theorem decodeData_srec (h : StringAt m p s) :
    ((decodeData sum type count addr p).value m).srec =
      (orError .nosrec (hexBytes count.toNat s)).bind (finish sum type count addr) := by
  rw [decodeData, Reader.value_bind]
  cases hdata : hexBytes count.toNat s with
  | none =>
    rw [if_pos (fieldAt_none h hdata).1]
    rfl
  | some r =>
    obtain ⟨hvalue, -, hle, hrest⟩ := fieldAt_some h hdata
    rw [hvalue, if_neg Bool.true_eq_false.mp, Reader.value_bind, hex2BinAt_value (h.drop hle), ← hrest]
    change _ = finish sum type count addr r
    rw [finish]
    cases hex2Bin r.2 with
    | none => rfl
    | some v =>
      dsimp only [orError, Except.bind]
      split_ifs <;> rfl

/-- `*count` behind the `switch` over the type. -/
def countOf (length : ℕ) (type : SrecType) (addrLen : ℕ) : ℤ :=
  if type = .count then 0 else length - (addrLen + 1)

/-- Address, data and checksum, as a function of the string. -/
def fields (length : ℕ) (type : SrecType) (addrLen : ℕ) (s : CStr) : Except SrecError Srec :=
  (orError .nosrec (hexBytes addrLen s)).bind fun a ↦
    (orError .nosrec (hexBytes (countOf length type addrLen).toNat a.2)).bind
      (finish (length + a.1.sum) type (countOf length type addrLen)
        (a.1.foldl (fun a v ↦ a * 256 + v) 0))

theorem decodeFields_below (h : StringAt m p s) :
    (decodeFields length type addrLen p).Below m (p + s.length + 1) := by
  rw [decodeFields]
  dsimp only
  rw [Reader.below_bind]
  refine ⟨fieldAt_below _ h, ?_⟩
  cases haddr : hexBytes addrLen s with
  | none =>
    rw [if_pos (fieldAt_none h haddr).1]
    exact Reader.below_pure _
  | some a =>
    obtain ⟨hvalue, -, hle, -⟩ := fieldAt_some h haddr
    rw [hvalue, if_neg Bool.true_eq_false.mp]
    exact below_rest hle (decodeData_below (h.drop hle))

theorem decodeFields_data (h : StringAt m p s) :
    ((decodeFields length type addrLen p).value m).data.length ≤
      (countOf length type addrLen).toNat := by
  rw [decodeFields]
  dsimp only
  rw [Reader.value_bind]
  cases haddr : hexBytes addrLen s with
  | none =>
    rw [if_pos (fieldAt_none h haddr).1]
    exact Nat.zero_le _
  | some a =>
    obtain ⟨hvalue, -, hle, -⟩ := fieldAt_some h haddr
    rw [hvalue, if_neg Bool.true_eq_false.mp]
    exact decodeData_data (h.drop hle)

theorem decodeFields_srec (h : StringAt m p s) :
    ((decodeFields length type addrLen p).value m).srec = fields length type addrLen s := by
  rw [decodeFields, fields]
  dsimp only
  rw [Reader.value_bind]
  cases haddr : hexBytes addrLen s with
  | none =>
    rw [if_pos (fieldAt_none h haddr).1]
    rfl
  | some a =>
    obtain ⟨hvalue, -, hle, hrest⟩ := fieldAt_some h haddr
    rw [hvalue, if_neg Bool.true_eq_false.mp]
    exact (decodeData_srec (h.drop hle)).trans (by rw [← hrest]; rfl)

/-- What `srec_decode` makes of the text behind the `S`. -/
def decodeText : CStr → Except SrecError Srec
  | [] => .ok ⟨.empty, 0, 0, []⟩
  | v :: input =>
    (orError .nosrec (hex2Bin input)).bind fun length ↦
      (orError .badtype (recordType v)).bind fun t ↦ fields length t.1 t.2 (input.drop 2)

theorem srecDecode_eq (s : CStr) :
    srecDecode s = decodeText ((s.dropWhile (· != 0x53)).drop 1) := by
  rw [srecDecode]
  cases (s.dropWhile (· != 0x53)).drop 1 with
  | nil => rfl
  | cons v input =>
    rw [decodeText]
    dsimp only
    cases hex2Bin input with
    | none => rfl
    | some length =>
      cases recordType v with
      | none => rfl
      | some t =>
        have hcount : (if t.1 = .count then 0 else (length : ℤ) - (t.2 + 1)) =
            countOf length t.1 t.2 := rfl
        simp only [orError, pure, Except.pure, bind, Except.bind, fields, hcount]
        cases hexBytes t.2 (input.drop 2) with
        | none => rfl
        | some a =>
          dsimp only
          cases hexBytes (countOf length t.1 t.2).toNat a.2 with
          | none => rfl
          | some d =>
            simp only [finish, orError]
            cases hex2Bin d.2 with
            | none => rfl
            | some v =>
              dsimp only [Except.bind]
              split_ifs <;> rfl

theorem recordType_le {v : UInt8} {t : SrecType × ℕ} (h : recordType v = some t) :
    2 ≤ t.2 := by
  rw [recordType] at h
  split at h
  all_goals cases h
  all_goals decide

theorem hex1Bin_lt {c : UInt8} {n : ℕ} (h : hex1Bin c = some n) : n < 16 := by
  simp only [hex1Bin, UInt8.le_iff_toNat_le] at h
  split_ifs at h with hdigit hlower hupper
  all_goals
    cases h
    simp only [UInt8.reduceToNat] at *
    omega

theorem hex2Bin_lt {v : ℕ} (h : hex2Bin s = some v) : v < 256 := by
  obtain _ | ⟨a, _ | ⟨b, s⟩⟩ := s
  · cases h
  · cases h
  · obtain ⟨i, hi, h⟩ := Option.bind_eq_some_iff.mp h
    obtain ⟨j, hj, h⟩ := Option.bind_eq_some_iff.mp h
    have := hex1Bin_lt hi
    have := hex1Bin_lt hj
    cases h
    omega

theorem srecDecodeAt_below (h : StringAt m p s) :
    (srecDecodeAt (s.length + 1) p).Below m (p + s.length + 1) := by
  obtain ⟨⟨n, hn, hvalue, -⟩, hbelow⟩ := skipToS_spec h (Nat.lt_succ_self _)
  rw [srecDecodeAt, Reader.below_bind, hvalue, Reader.below_bind, Reader.below_read,
    Reader.value_read]
  have hs := h.drop hn
  refine ⟨hbelow, by omega, ?_⟩
  rw [hs.first]
  cases hrest : s.drop n with
  | nil => exact Reader.below_pure _
  | cons v input =>
    rw [hrest] at hs
    have hlen : n + input.length + 1 = s.length := by
      have := congrArg List.length hrest
      rw [List.length_drop, List.length_cons] at this
      omega
    have hend : p + n + 1 + input.length + 1 = p + s.length + 1 := by omega
    rw [first_cons, if_neg (hs.1 v List.mem_cons_self), Reader.below_bind, ← hend]
    refine ⟨hex2BinAt_below hs.tail, ?_⟩
    rw [hex2BinAt_value hs.tail]
    cases hex : hex2Bin input with
    | none => exact Reader.below_pure _
    | some length =>
      cases recordType v with
      | none => exact Reader.below_pure _
      | some t =>
        have hle := length_of_hex2Bin hex
        exact below_rest hle (decodeFields_below (hs.tail.drop hle))

/-- The decoder with its addresses decodes the string, and writes no more than the count. -/
theorem srecDecodeAt_value (h : StringAt m p s) :
    ((srecDecodeAt (s.length + 1) p).value m).srec = srecDecode s ∧
      ((srecDecodeAt (s.length + 1) p).value m).data.length ≤ srecMaxbinlen := by
  obtain ⟨⟨n, hn, hvalue, hrest⟩, -⟩ := skipToS_spec h (Nat.lt_succ_self _)
  have hs := h.drop hn
  rw [srecDecode_eq, srecDecodeAt, Reader.value_bind, hvalue, Reader.value_bind,
    Reader.value_read, hs.first, ← hrest]
  cases hdrop : s.drop n with
  | nil => exact ⟨rfl, Nat.zero_le _⟩
  | cons v input =>
    rw [hdrop] at hs
    rw [first_cons, if_neg (hs.1 v List.mem_cons_self), decodeText, Reader.value_bind,
      hex2BinAt_value hs.tail]
    cases hex : hex2Bin input with
    | none => exact ⟨rfl, Nat.zero_le _⟩
    | some length =>
      cases recordType v with
      | none => exact ⟨rfl, Nat.zero_le _⟩
      | some t =>
        have hs' := hs.tail.drop (length_of_hex2Bin hex)
        refine ⟨decodeFields_srec hs', (decodeFields_data hs').trans ?_⟩
        have hlt := hex2Bin_lt hex
        rw [countOf, srecMaxbinlen]
        split_ifs <;> omega

theorem orError_bind_eq_ok {α β : Type} {e : SrecError} {o : Option α} {f : α → Except SrecError β}
    {b : β} : (orError e o).bind f = .ok b ↔ ∃ a, o = some a ∧ f a = .ok b := by
  cases o with
  | none => simp [orError, Except.bind]
  | some a => simp [orError, Except.bind]

theorem finish_eq_ok {d : List ℕ × CStr} {r : Srec} :
    finish sum type count addr d = .ok r ↔
      hex2Bin d.2 = some (255 - (sum + d.1.sum) % 256) ∧
        r = ⟨type, count, addr, d.1.map UInt8.ofNat⟩ := by
  rw [finish, orError_bind_eq_ok]
  constructor
  · rintro ⟨v, hv, h⟩
    split_ifs at h with hsum
    cases h
    rw [hv, not_not.mp hsum]
    exact ⟨rfl, rfl⟩
  · rintro ⟨hv, rfl⟩
    exact ⟨_, hv, if_neg (not_not_intro rfl)⟩

/-- The parts of the text of a record. -/
structure Parts (s : CStr) (r : Srec) (v : UInt8) (input : CStr) (len addrLen : ℕ)
    (a d : List ℕ × CStr) : Prop where
  text : (s.dropWhile (· != 0x53)).drop 1 = v :: input
  length : hex2Bin input = some len
  type : recordType v = some (r.type, addrLen)
  address : hexBytes addrLen (input.drop 2) = some a
  data : hexBytes r.count.toNat a.2 = some d
  chksum : hex2Bin d.2 = some (255 - (len + a.1.sum + d.1.sum) % 256)
  count : r.count = countOf len r.type addrLen
  value : r.addr = a.1.foldl (fun a v ↦ a * 256 + v) 0
  bytes : r.data = d.1.map UInt8.ofNat

theorem srecDecode_eq_ok {r : Srec} (hr : r.type ≠ .empty) :
    srecDecode s = .ok r ↔ ∃ v input length addrLen a d, Parts s r v input length addrLen a d := by
  rw [srecDecode_eq]
  constructor
  · intro h
    cases htext : (s.dropWhile (· != 0x53)).drop 1 with
    | nil =>
      rw [htext] at h
      cases h
      exact absurd rfl hr
    | cons v input =>
      rw [htext, decodeText, orError_bind_eq_ok] at h
      obtain ⟨length, hlength, h⟩ := h
      obtain ⟨t, ht, h⟩ := orError_bind_eq_ok.mp h
      obtain ⟨a, ha, h⟩ := orError_bind_eq_ok.mp h
      obtain ⟨d, hd, h⟩ := orError_bind_eq_ok.mp h
      obtain ⟨hchksum, rfl⟩ := finish_eq_ok.mp h
      exact ⟨v, input, length, t.2, a, d, htext, hlength, ht, ha, hd, hchksum, rfl, rfl, rfl⟩
  · rintro ⟨v, input, length, addrLen, a, d, h⟩
    rw [h.text, decodeText, orError_bind_eq_ok]
    refine ⟨length, h.length, orError_bind_eq_ok.mpr ⟨_, h.type, ?_⟩⟩
    refine orError_bind_eq_ok.mpr ⟨a, h.address, orError_bind_eq_ok.mpr ⟨d, ?_, ?_⟩⟩
    · rw [← h.count]
      exact h.data
    · refine finish_eq_ok.mpr ⟨h.chksum, ?_⟩
      rw [← h.count, ← h.value, ← h.bytes]

theorem length_of_hexBytes {n : ℕ} {r : List ℕ × CStr} (h : hexBytes n s = some r) :
    r.1.length = n := by
  induction n generalizing s r with
  | zero =>
    cases h
    rfl
  | succ n ih =>
    rw [hexBytes_succ] at h
    obtain ⟨v, -, h⟩ := Option.bind_eq_some_iff.mp h
    obtain ⟨r', hr', rfl⟩ := Option.map_eq_some_iff.mp h
    rw [List.length_cons, ih hr']

theorem IsData.ne_empty (h : IsData type) : type ≠ .empty := by
  rintro rfl
  exact absurd h (by decide)

theorem IsData.countOf (h : IsData type) (length addrLen : ℕ) :
    countOf length type addrLen = (length : ℤ) - (addrLen + 1) := by
  rcases h with rfl | rfl | rfl <;> rfl

theorem shortData_iff :
    ShortData s ↔ ∃ r, srecDecode s = .ok r ∧ IsData r.type ∧ r.count < 0 := by
  constructor
  · rintro ⟨v, input, length, type, addrLen, address, rest, htext, hlength, htype, hdata, hshort,
      haddr, hchksum⟩
    have hcount := hdata.countOf length addrLen
    refine ⟨⟨type, countOf length type addrLen, _, []⟩, (srecDecode_eq_ok hdata.ne_empty).mpr ⟨v, input, length, addrLen,
      (address, rest), ([], rest), htext, hlength, htype, haddr, ?_, hchksum, rfl, rfl, rfl⟩, hdata,
      ?_⟩
    · have hzero : (countOf length type addrLen).toNat = 0 := by omega
      rw [hzero]
      rfl
    · change countOf length type addrLen < 0
      omega
  · rintro ⟨r, hr, hdata, hneg⟩
    obtain ⟨v, input, length, addrLen, a, d, h⟩ := (srecDecode_eq_ok hdata.ne_empty).mp hr
    have hcount := h.count.symm.trans_lt hneg
    rw [hdata.countOf] at hcount
    have hd := h.data
    rw [Int.toNat_of_nonpos hneg.le] at hd
    cases hd
    exact ⟨v, input, length, r.type, addrLen, a.1, a.2, h.text, h.length, h.type, hdata, by omega,
      h.address, h.chksum⟩

end Decode

section Safety

variable {m : Mem} {p : ℕ} {s : CStr}

theorem count_of_nonneg {r : Srec} (h : srecDecode s = .ok r) (hdata : IsData r.type)
    (hcount : 0 ≤ r.count) : r.count ≤ 252 ∧ r.count = r.data.length := by
  obtain ⟨v, input, length, addrLen, a, d, hparts⟩ := (srecDecode_eq_ok hdata.ne_empty).mp h
  have hlt := hex2Bin_lt hparts.length
  have hle := recordType_le hparts.type
  have hval := hparts.count.trans (hdata.countOf length addrLen)
  have hlen := length_of_hexBytes hparts.data
  dsimp only at hle
  rw [hparts.bytes, List.length_map, hlen]
  omega

theorem storeRecord_isSome (offset : ℕ) (r : Srec) (st : LoadState) :
    (storeRecord offset r st).isSome = true ↔ 0 ≤ r.count := by
  rw [storeRecord]
  by_cases h : r.count < 0
  · rw [if_pos h]
    exact iff_of_false Bool.false_ne_true (by omega)
  · rw [if_neg h]
    exact iff_of_true rfl (by omega)

/-- Decoding and storing a line is safe unless it is a short data record. -/
theorem srec_decode_safe_iff (h : StringAt m p s) : Safe m p s ↔ ¬ ShortData s := by
  obtain ⟨hsrec, hwrites⟩ := srecDecodeAt_value h
  rw [shortData_iff]
  constructor
  · rintro hsafe ⟨r, hr, hdata, hneg⟩
    have := (hsafe.count r (hsrec.trans hr) hdata).1
    omega
  · intro hshort
    have hpos (r : Srec) (hr : srecDecode s = .ok r) (hdata : IsData r.type) : 0 ≤ r.count :=
      not_lt.mp fun hneg ↦ hshort ⟨r, hr, hdata, hneg⟩
    refine ⟨srecDecodeAt_below h, hwrites, fun r hr hdata ↦ ?_, fun r hr hdata offset st ↦ ?_⟩
    · have hr' := hsrec.symm.trans hr
      exact ⟨hpos r hr' hdata, count_of_nonneg hr' hdata (hpos r hr' hdata)⟩
    · exact (storeRecord_isSome offset r st).mpr (hpos r (hsrec.symm.trans hr) hdata)

/-- A memory with nothing but this line. -/
def lineMem (s : CStr) : Mem := fun k ↦ (s ++ [0]).getD k 0xff

theorem lineMem_stringAt (hs : NulFree s) : StringAt (lineMem s) 0 s := by
  refine ⟨hs, ?_⟩
  have hall := bytes_getD (s ++ [0]) 0xff
  rwa [List.length_append] at hall

theorem srec_decode_safe_iff_data : Safe (lineMem (ascii "S1050000AB4F00")) 0
    (ascii "S1050000AB4F00") ↔ ¬ ShortData (ascii "S1050000AB4F00") :=
  srec_decode_safe_iff (lineMem_stringAt (by decide))

/-- A count byte of 0 gives the length -3. -/
theorem srec_decode_negative :
    StringAt (lineMem (ascii "S1000000FF")) 0 (ascii "S1000000FF") ∧
      ¬ Safe (lineMem (ascii "S1000000FF")) 0 (ascii "S1000000FF") := by
  refine ⟨lineMem_stringAt (by decide), fun h ↦ ?_⟩
  have hcount := h.count ⟨.data2, -3, 0, []⟩ (by decide +kernel) (by decide)
  exact absurd hcount.1 (by decide)

end Safety

end UBoot.Common.SRecordSafety
