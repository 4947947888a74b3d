import UBoot.Lib.Memory
import UBoot.Common.SRecord

namespace UBoot.Common.CmdLoad

open Lib.CString Lib.Memory LibGeneric.Vsprintf SRecord

/-- The characters that come in over the console. The flag of a character says that it is there
already when the receiver looks for a Ctrl-C behind the character in front of it. -/
abbrev Input := List (UInt8 × Bool)

/-- `ctrlc` takes a character that is there from the input, whatever it is. -/
def ctrlc : Input → Bool × Input
  | (c, true) :: input => (c = 0x03, input)
  | input => (false, input)

def srecMaxreclen : ℕ := 512 + 4

/-- `read_record` with room for so many characters: `none` while `getc` waits, and no text for a NUL
or a Ctrl-C. `gd->jt[XF_getc]` is the function of the device (`console_setfile`) and never `getc`
itself, so that `ctrlc` is called behind every character that is stored. -/
def readRecord : ℕ → Input → Option (Option CStr × Input)
  | 0, input => some (some [], input)
  | _ + 1, [] => none
  | room + 1, (c, _) :: input =>
    if c = 0x0d ∨ c = 0x0a then some (some [], input)
    else if c = 0 ∨ c = 0x03 then some (none, input)
    else if (ctrlc input).1 then some (none, (ctrlc input).2)
    else (readRecord room (ctrlc input).2).map fun r ↦ (r.1.map (c :: ·), r.2)

structure LoadState where
  mem : Mem
  startAddr : ℕ
  endAddr : ℕ

/-- How `load_serial` ends: with an error or a Ctrl-C, or with the address of the end record, the
size it prints, and the text it sets `filesize` to. -/
inductive Load
  | aborted (mem : Mem)
  | done (addr size : ℕ) (filesize : CStr) (mem : Mem) (rest : Input)

/-- A data record, for a target that is no flash. A negative length makes `memcpy` run away. -/
def storeRecord (offset : ℕ) (r : Srec) (s : LoadState) : Option LoadState :=
  let storeAddr := (r.addr + offset) % 4294967296
  let last := ((storeAddr + r.count - 1) % 4294967296).toNat
  if r.count < 0 then none
  else some {
    mem := store s.mem storeAddr r.data
    startAddr := if storeAddr < s.startAddr then storeAddr else s.startAddr
    endAddr := if s.endAddr < last then last else s.endAddr }

/-- The loop of `load_serial`. Each record takes a character at least, so that `fuel` is not used
up by an input of that length. -/
def loadLoop (offset : ℕ) : ℕ → Input → LoadState → Option Load
  | 0, _, _ => none
  | fuel + 1, input, s => do
    let (line, input) ← readRecord srecMaxreclen input
    match line with
    | none => return .aborted s.mem
    | some line =>
      match srecDecode line with
      | .error _ => return .aborted s.mem
      | .ok r =>
        match r.type with
        | .data2 | .data3 | .data4 => loadLoop offset fuel input (← storeRecord offset r s)
        | .end2 | .end3 | .end4 =>
          let size := ((s.endAddr : ℤ) - s.startAddr + 1) % 4294967296
          return .done r.addr size.toNat (numberHex 0 size.toNat) s.mem input
        | .start | .count | .empty => loadLoop offset fuel input s

def loadSerial (offset : ℕ) (input : Input) (m : Mem) : Option Load :=
  loadLoop offset (input.length + 1) input ⟨m, 4294967295, 0⟩

/-- `serial_putc` sends a carriage return in front of a newline. -/
def serialPutc (c : UInt8) : CStr := if c = 0x0a then [0x0d, 0x0a] else [c]

/-- `write_record`, when no Ctrl-C comes. -/
def writeRecord (buf : CStr) : CStr := buf.flatMap serialPutc

def srec3Start : CStr := ascii "S0030000FC\n"

def srec3End : CStr := ascii "S70500000000FA\n"

def srecBytesPerRecord : ℕ := 16

/-- The variables of `save_serial` but for `count`; `data` is the text in the buffer. -/
structure SaveState where
  address : ℕ
  reclen : ℕ
  checksum : ℕ
  data : CStr

/-- Get one byte; `none` when its digits and the NUL behind them do not fit into `data`. -/
def collect (m : Mem) (s : SaveState) : Option SaveState :=
  let c := (m ((s.address + s.reclen) % 4294967296)).toNat
  if 2 * s.reclen + 2 < 2 * srecBytesPerRecord + 1 then
    some { s with
      reclen := s.reclen + 1
      checksum := s.checksum + c
      data := s.data.take (2 * s.reclen) ++ [hexDigit (c / 16 % 16), hexDigit (c % 16)] }
  else none

/-- The text of a data record; `none` when it does not fit into `record` with its NUL. -/
def dataRecord (s : SaveState) : Option CStr :=
  let length := 4 + s.reclen + 1
  let checksum := s.checksum + ((List.range 2).map fun i ↦ length / 256 ^ i % 256).sum +
    ((List.range 4).map fun i ↦ s.address / 256 ^ i % 256).sum
  let record := ascii "S3" ++ numberHex 2 length ++ numberHex 8 s.address ++ s.data ++
    numberHex 2 (255 - checksum % 256) ++ ascii "\n"
  if record.length + 1 ≤ 2 * srecBytesPerRecord + 16 then some record else none

/-- The second half of the loop: what is written, and the state behind it. -/
def dump (count : ℕ) (s : SaveState) : Option (CStr × SaveState) :=
  if s.reclen = srecBytesPerRecord ∨ count = 0 then do
    let record ← if s.reclen = 0 then some [] else dataRecord s
    return (writeRecord record,
      { s with address := (s.address + s.reclen) % 4294967296, checksum := 0, reclen := 0 })
  else some ([], s)

/-- The loop of `save_serial`, with `count` bytes left. -/
def saveLoop (m : Mem) : ℕ → SaveState → Option CStr
  | 0, s => (dump 0 s).map (·.1)
  | count + 1, s => do
    let s ← collect m s
    let (out, s) ← dump count s
    if count = 0 then return out
    else return out ++ (← saveLoop m count s)

/-- The characters that `save_serial` sends. -/
def saveSerial (m : Mem) (address count : ℕ) : Option CStr := do
  let records ← saveLoop m count ⟨address, 0, 0, []⟩
  return writeRecord srec3Start ++ records ++ writeRecord srec3End

end UBoot.Common.CmdLoad
