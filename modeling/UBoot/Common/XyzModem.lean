import Mathlib.Data.Int.ModEq
import Mathlib.Data.Prod.Lex
import UBoot.Common.Crc16
import UBoot.Lib.Memory

namespace UBoot.Common.XyzModem

open Lib.Memory Crc16

def soh : UInt8 := 0x01

def stx : UInt8 := 0x02

def eot : UInt8 := 0x04

def ack : UInt8 := 0x06

def nak : UInt8 := 0x15

def can : UInt8 := 0x18

/-- `EOF`, with which the last block is padded. -/
def ctrlZ : UInt8 := 0x1A

def maxRetries : ℕ := 20

def maxRetriesWithCrc : ℤ := 10

def canCount : ℕ := 3

/-- What comes in: a character, or two seconds without one. Behind its end the line is silent. -/
abbrev Line := List (Option UInt8)

inductive Mode
  | xmodem
  | ymodem
deriving DecidableEq

/-- What `xyzModem_get_hdr` returns; all but `ok` are negative. -/
inductive Stat
  | ok
  | timeout
  | eof
  | cancel
  | frame
  | cksum
  | sequence
deriving DecidableEq

/-- The line with what has been sent over it, and the variables in `xyz`. `bufp` counts from `pkt`. -/
structure Xyz where
  line : Line
  sent : List UInt8
  pkt : Mem
  bufp : ℕ
  blk : UInt8
  cblk : UInt8
  crc1 : UInt8
  crc2 : UInt8
  nextBlk : UInt8
  len : ℤ
  mode : Mode
  crcMode : Bool
  atEof : Bool
  txAck : Bool
  fileLength : UInt32
  readLength : UInt32

def Xyz.putc (c : UInt8) (s : Xyz) : Xyz := { s with sent := s.sent ++ [c] }

/-- `(xyz.crc_mode ? 'C' : NAK)` -/
def Xyz.putNak (s : Xyz) : Xyz := s.putc (if s.crcMode then 0x43 else nak)

def getcTimeout : Line → Option UInt8 × Line
  | [] => (none, [])
  | e :: line => (e, line)

/-- `xyzModem_flush`: wait for the line to go idle. -/
def flush : Line → Line
  | [] => []
  | none :: line => line
  | some _ :: line => flush line

inductive Start
  | header (c : UInt8)
  | timeout
  | eof
  | cancel

/-- Find the start of a header. -/
def findHeader : Line → ℕ → ℕ → Start × Line
  | [], _, _ => (.timeout, [])
  | none :: line, _, _ => (.timeout, flush line)
  | some c :: line, hdrChars, canTotal =>
    if c = soh ∨ c = stx then (.header c, line)
    else if c = can then
      if canTotal + 1 = canCount then (.cancel, line) else findHeader line (hdrChars + 1) (canTotal + 1)
    -- EOT is only taken if no noise is in front of it
    else if c = eot ∧ hdrChars + 1 = 1 then (.eof, line)
    else findHeader line (hdrChars + 1) canTotal

/-- The data of a block, from `pkt[i]` on; whether all of them came in time. -/
def readData (pkt : Mem) (i : ℕ) : ℕ → Line → Bool × Mem × Line
  | 0, line => (true, pkt, line)
  | _ + 1, [] => (false, pkt, [])
  | _ + 1, none :: line => (false, pkt, line)
  | n + 1, some c :: line => readData (store pkt i [c]) (i + 1) n line

/-- The sum without a CRC, `unsigned short`. -/
def byteSum (data : List UInt8) : UInt16 := data.foldl (fun cksum b ↦ cksum + b.toUInt16) 0

/-- Validate the message. -/
def validate (s : Xyz) : Stat × Xyz :=
  let data := bytes s.pkt 0 s.len.toNat
  if s.blk ^^^ s.cblk ≠ 0xFF then (.frame, { s with line := flush s.line })
  else if s.crcMode then
    if cygCrc16 data ≠ s.crc1.toUInt16 <<< 8 ||| s.crc2.toUInt16 then (.cksum, s) else (.ok, s)
  else if s.crc1.toUInt16 ≠ byteSum data &&& 0xFF then (.cksum, s) else (.ok, s)

/-- The checksum behind the data. -/
def readCheck (s : Xyz) : Stat × Xyz :=
  match getcTimeout s.line with
  | (none, line) => (.timeout, { s with line := line })
  | (some crc1, line) =>
    let s := { s with crc1 := crc1, line := line }
    if s.crcMode then
      match getcTimeout s.line with
      | (none, line) => (.timeout, { s with line := line })
      | (some crc2, line) => validate { s with crc2 := crc2, line := line }
    else validate s

/-- Header found, now read the data. -/
def readBlock (c : UInt8) (s : Xyz) : Stat × Xyz :=
  match getcTimeout s.line with
  | (none, line) => (.timeout, { s with line := line })
  | (some blk, line) =>
    let s := { s with blk := blk, line := line }
    match getcTimeout s.line with
    | (none, line) => (.timeout, { s with line := line })
    | (some cblk, line) =>
      let n := if c = soh then 128 else 1024
      let s := { s with cblk := cblk, line := line, len := n, bufp := 0 }
      match readData s.pkt 0 n s.line with
      | (false, pkt, line) => (.timeout, { s with pkt := pkt, line := line })
      | (true, pkt, line) => readCheck { s with pkt := pkt, line := line }

/-- `xyzModem_get_hdr` -/
def getHdr (s : Xyz) : Stat × Xyz :=
  let s := if s.txAck then { s.putc ack with txAck := false } else s
  match findHeader s.line 0 0 with
  | (.header c, line) => readBlock c { s with line := line }
  | (.timeout, line) => (.timeout, { s with line := line })
  | (.eof, line) => (.eof, { s with line := line }.putc ack)
  | (.cancel, line) => (.cancel, { s with line := line })


/-- What `xyzModem_get_hdr` does not touch, and that it only takes from the line. -/
structure Later (s s' : Xyz) : Prop where
  line : s'.line <:+ s.line
  nextBlk : s'.nextBlk = s.nextBlk
  mode : s'.mode = s.mode
  crcMode : s'.crcMode = s.crcMode
  atEof : s'.atEof = s.atEof
  fileLength : s'.fileLength = s.fileLength
  readLength : s'.readLength = s.readLength

theorem Later.refl (s : Xyz) : Later s s := ⟨List.suffix_refl _, rfl, rfl, rfl, rfl, rfl, rfl⟩

theorem Later.trans {s s' s'' : Xyz} (h : Later s s') (h' : Later s' s'') : Later s s'' :=
  ⟨h'.line.trans h.line, h'.nextBlk.trans h.nextBlk, h'.mode.trans h.mode, h'.crcMode.trans h.crcMode,
    h'.atEof.trans h.atEof, h'.fileLength.trans h.fileLength, h'.readLength.trans h.readLength⟩

theorem Later.of_line {s : Xyz} {line : Line} (h : line <:+ s.line) : Later s { s with line := line } :=
  ⟨h, rfl, rfl, rfl, rfl, rfl, rfl⟩

theorem Later.putc (c : UInt8) (s : Xyz) : Later s (s.putc c) :=
  ⟨List.suffix_refl _, rfl, rfl, rfl, rfl, rfl, rfl⟩

theorem Later.putNak (s : Xyz) : Later s s.putNak := Later.putc _ s

theorem getcTimeout_suffix (line : Line) : (getcTimeout line).2 <:+ line := by
  cases line with
  | nil => exact List.suffix_refl _
  | cons e line => exact List.suffix_cons e line

theorem flush_suffix (line : Line) : flush line <:+ line := by
  induction line with
  | nil => exact List.suffix_refl _
  | cons e line ih =>
    cases e with
    | none => exact List.suffix_cons _ line
    | some c => exact ih.trans (List.suffix_cons _ line)

theorem findHeader_suffix (line : Line) (h n : ℕ) : (findHeader line h n).2 <:+ line := by
  induction line generalizing h n with
  | nil => exact List.suffix_refl _
  | cons e line ih =>
    have hline : line <:+ e :: line := List.suffix_cons e line
    cases e with
    | none => exact (flush_suffix line).trans hline
    | some c =>
      rw [findHeader]
      split_ifs
      · exact hline
      · exact hline
      · exact (ih _ _).trans hline
      · exact hline
      · exact (ih _ _).trans hline

theorem readData_suffix (pkt : Mem) (i n : ℕ) (line : Line) : (readData pkt i n line).2.2 <:+ line := by
  induction n generalizing pkt i line with
  | zero => exact List.suffix_refl _
  | succ n ih =>
    cases line with
    | nil => exact List.suffix_refl _
    | cons e line =>
      have hline : line <:+ e :: line := List.suffix_cons e line
      cases e with
      | none => exact hline
      | some c => exact (ih _ _ line).trans hline

theorem validate_later (s : Xyz) : Later s (validate s).2 := by
  rw [validate]
  split_ifs
  · exact Later.of_line (flush_suffix s.line)
  · exact Later.refl s
  · exact Later.refl s
  · exact Later.refl s
  · exact Later.refl s

theorem readCheck_later (s : Xyz) : Later s (readCheck s).2 := by
  have hline := getcTimeout_suffix s.line
  rw [readCheck]
  generalize getcTimeout s.line = r at hline ⊢
  rcases r with ⟨_ | crc1, line⟩
  · exact Later.of_line hline
  have hfirst : Later s { s with crc1 := crc1, line := line } := ⟨hline, rfl, rfl, rfl, rfl, rfl, rfl⟩
  have hline' := getcTimeout_suffix line
  dsimp only
  generalize getcTimeout line = r at hline' ⊢
  split_ifs
  · rcases r with ⟨_ | crc2, line'⟩
    · exact hfirst.trans (Later.of_line hline')
    · refine hfirst.trans (Later.trans ?_ (validate_later _))
      exact ⟨hline', rfl, rfl, rfl, rfl, rfl, rfl⟩
  · exact hfirst.trans (validate_later _)

theorem readBlock_later (c : UInt8) (s : Xyz) : Later s (readBlock c s).2 := by
  have hline := getcTimeout_suffix s.line
  rw [readBlock]
  generalize getcTimeout s.line = r at hline ⊢
  rcases r with ⟨_ | blk, line⟩
  · exact Later.of_line hline
  have hline' := getcTimeout_suffix line
  dsimp only at hline ⊢
  generalize getcTimeout line = r at hline' ⊢
  rcases r with ⟨_ | cblk, line'⟩
  · exact ⟨hline'.trans hline, rfl, rfl, rfl, rfl, rfl, rfl⟩
  have hdata := readData_suffix s.pkt 0 (if c = soh then 128 else 1024) line'
  dsimp only at hline' ⊢
  generalize readData s.pkt 0 (if c = soh then 128 else 1024) line' = r at hdata ⊢
  rcases r with ⟨_ | _, pkt, line''⟩
  · exact ⟨hdata.trans (hline'.trans hline), rfl, rfl, rfl, rfl, rfl, rfl⟩
  · refine Later.trans ?_ (readCheck_later _)
    exact ⟨hdata.trans (hline'.trans hline), rfl, rfl, rfl, rfl, rfl, rfl⟩

/-- The acknowledgement that is still to be sent. -/
def sendAck (s : Xyz) : Xyz := if s.txAck then { s.putc ack with txAck := false } else s

theorem sendAck_later (s : Xyz) : Later s (sendAck s) := by
  rw [sendAck]
  split_ifs
  · exact ⟨List.suffix_refl _, rfl, rfl, rfl, rfl, rfl, rfl⟩
  · exact Later.refl s

theorem getHdr_later (s : Xyz) : Later s (getHdr s).2 := by
  have hstart := findHeader_suffix (sendAck s).line 0 0
  refine (sendAck_later s).trans ?_
  rw [getHdr, ← sendAck]
  generalize findHeader (sendAck s).line 0 0 = r at hstart ⊢
  rcases r with ⟨c | _ | _ | _, line⟩
  · exact (Later.of_line hstart).trans (readBlock_later c _)
  · exact Later.of_line hstart
  · exact (Later.of_line hstart).trans (Later.putc _ _)
  · exact Later.of_line hstart

theorem findHeader_header {line rest : Line} {h n : ℕ} {c : UInt8}
    (hline : findHeader line h n = (.header c, rest)) :
    ∃ pre, line = pre ++ some c :: rest ∧ (c = soh ∨ c = stx) := by
  induction line generalizing h n with
  | nil => simp [findHeader] at hline
  | cons e line ih =>
    cases e with
    | none => simp [findHeader] at hline
    | some d =>
      rw [findHeader] at hline
      split_ifs at hline with hstart hcan hlast heot
      · obtain ⟨hd, rfl⟩ := Prod.mk.inj hline
        obtain rfl := Start.header.inj hd
        exact ⟨[], rfl, hstart⟩
      · simp at hline
      · obtain ⟨pre, rfl, hc⟩ := ih hline
        exact ⟨some d :: pre, rfl, hc⟩
      · simp at hline
      · obtain ⟨pre, rfl, hc⟩ := ih hline
        exact ⟨some d :: pre, rfl, hc⟩

/-- The status `ok` comes with a block, which is taken from the line. -/
theorem getHdr_shorter {s s' : Xyz} (h : getHdr s = (.ok, s')) : s'.line.length < s.line.length := by
  have hack := (sendAck_later s).line.length_le
  rw [getHdr, ← sendAck] at h
  generalize hfind : findHeader (sendAck s).line 0 0 = r at h
  rcases r with ⟨c | _ | _ | _, line⟩
  · obtain ⟨pre, hline, -⟩ := findHeader_header hfind
    have hblock := (readBlock_later c { sendAck s with line := line }).line.length_le
    have hlength := congrArg List.length hline
    dsimp only at h
    rw [h] at hblock
    simp only [List.length_append, List.length_cons] at hblock hlength
    omega
  · cases h
  · cases h
  · cases h

def isHex (c : UInt8) : Bool :=
  (0x30 ≤ c && c ≤ 0x39) || (0x41 ≤ c && c ≤ 0x46) || (0x61 ≤ c && c ≤ 0x66)

def fromHex (c : UInt8) : UInt32 :=
  if 0x30 ≤ c ∧ c ≤ 0x39 then c.toUInt32 - 0x30
  else if 0x61 ≤ c ∧ c ≤ 0x66 then c.toUInt32 - 0x61 + 0x0a
  else if 0x41 ≤ c ∧ c ≤ 0x46 then c.toUInt32 - 0x41 + 0x0A
  else 0

inductive Parsed
  /-- the text does not end in `pkt` -/
  | outside
  | malformed
  | value (n : UInt32)
deriving DecidableEq

/-- The loop of `parse_num` behind the prefix of the radix, with a blank as the only delimiter. -/
def parseDigits (radix : UInt32) : List UInt8 → UInt32 → Parsed
  | [], _ => .outside
  | c :: s, result =>
    if c = 0 then .value result
    else if isHex c ∧ fromHex c < radix then parseDigits radix s (result * radix + fromHex c)
    else if c = 0x20 then .value result
    else .malformed

/-- `parse_num` behind the blanks. Behind `0x` a digit is read even if there is none. -/
def parseNumber : List UInt8 → Parsed
  | [] => .outside
  | [0x30] => .outside
  | 0x30 :: x :: s =>
    if x = 0x78 ∨ x = 0x58 then
      match s with
      | [] => .outside
      | c :: s =>
        if isHex c then parseDigits 16 s (fromHex c) else if c = 0x20 then .value 0 else .malformed
    else parseDigits 10 (0x30 :: x :: s) 0
  | s => parseDigits 10 s 0

/-- `parse_num`, with a blank as the only delimiter. -/
def parseNum (s : List UInt8) : Parsed := parseNumber (s.dropWhile (· = 0x20))

/-- What `xyzModem_stream_open` ends with. -/
inductive Opened
  | opened (s : Xyz)
  | failed (err : Stat) (s : Xyz)
  /-- the header of the file has no end in `pkt` -/
  | outside

/-- The bytes in `pkt`, with what earlier blocks have left behind the last one. -/
def wholePkt (s : Xyz) : List UInt8 := bytes s.pkt 0 1024

/-- The Y-modem file information header: the name is skipped, and the length is read. -/
def fileHeader (s : Xyz) : Opened :=
  let bufp := ((wholePkt s).takeWhile (· ≠ 0)).length + 1
  match (wholePkt s).dropWhile (· ≠ 0) with
  | [] => .outside
  | _ :: text =>
    match parseNum text with
    | .outside => .outside
    | .malformed => .opened { s with bufp := bufp, txAck := true, nextBlk := 1, len := 0 }
    | .value n =>
      .opened { s with bufp := bufp, fileLength := n, txAck := true, nextBlk := 1, len := 0 }

/-- The loop of `xyzModem_stream_open`, with the retries that are left. -/
def openLoop : ℕ → ℤ → Stat → Xyz → Opened
  | 0, _, stat, s => .failed stat s
  | retries + 1, crcRetries, _, s =>
    match getHdr s with
    | (.ok, s) => if s.blk = 0 then fileHeader s else .opened { s with nextBlk := 1, len := 0 }
    | (.timeout, s) =>
      let s := if crcRetries - 1 ≤ 0 then { s with crcMode := false } else s
      openLoop retries (crcRetries - 1) .timeout s.putNak
    | (.cancel, s) => .failed .cancel s
    | (stat, s) => openLoop retries crcRetries stat s

/-- `xyzModem_stream_open`, with `s` for what is left from earlier transfers. -/
def streamOpen (mode : Mode) (s : Xyz) : Opened :=
  let s := { s with
    len := 0, crcMode := true, atEof := false, txAck := false, mode := mode, readLength := 0
    fileLength := 0 }
  let s := s.putNak
  match mode with
  | .xmodem => .opened { s with nextBlk := 1 }
  | .ymodem => openLoop maxRetries maxRetriesWithCrc .ok s

/-- `while (xyz.len && (xyz.bufp[xyz.len-1] == EOF)) xyz.len--`, with so many bytes in front. -/
def stripLoop (pkt : Mem) (bufp : ℕ) : ℕ → ℕ
  | 0 => 0
  | len + 1 => if pkt (bufp + len) = ctrlZ then stripLoop pkt bufp len else len + 1

/-- Detect and remove the padding of a data block. -/
def stripPadding (s : Xyz) : Xyz :=
  let n := s.len.toNat
  if s.pkt (s.bufp + (n - 1)) = ctrlZ ∧ s.pkt (s.bufp + (n - 2)) = ctrlZ ∧
      s.pkt (s.bufp + (n - 3)) = ctrlZ then { s with len := stripLoop s.pkt s.bufp n }
  else s

/-- See if the accumulated length exceeds that of the file. The difference is an `unsigned long`, and
`len` an `int`. -/
def cutLength (s : Xyz) : Xyz :=
  let readLength := s.readLength + UInt32.ofInt s.len
  if s.fileLength < readLength then
    { s with readLength := readLength, len := (s.len - (readLength - s.fileLength).toNat).bmod (2 ^ 32) }
  else { s with readLength := readLength }

/-- The block that is expected has come. -/
def takeBlock (s : Xyz) : Xyz :=
  let s := { s with txAck := true, nextBlk := s.nextBlk + 1 }
  let s := if s.mode = .xmodem ∨ s.fileLength = 0 then stripPadding s else s
  if s.mode ≠ .xmodem ∧ s.fileLength ≠ 0 then cutLength s else s

/-- The end of the transmission; in Y-modem another header is read. -/
def endOfFile (s : Xyz) : Stat × Xyz :=
  let s := s.putc ack
  match s.mode with
  | .xmodem => (.eof, { s with atEof := true })
  | .ymodem =>
    let (stat, s) := getHdr s.putNak
    (stat, { s.putc ack with atEof := true })

/-- The inner loop of `xyzModem_stream_read`, with the retries that are left. -/
def blockLoop : ℕ → Stat → Xyz → Stat × Xyz
  | 0, stat, s => (stat, s)
  | retries + 1, _, s =>
    match getHdr s with
    | (.ok, s) =>
      if s.blk = s.nextBlk then (.ok, takeBlock s)
      -- just re-ACK this so that the sender will get on with it
      else if s.blk = s.nextBlk - 1 then blockLoop retries .ok (s.putc ack)
      else blockLoop retries .sequence s.putNak
    | (.cancel, s) => (.cancel, s)
    | (.eof, s) => endOfFile s
    | (stat, s) => blockLoop retries stat s.putNak

@[simp] theorem takeBlock_line (s : Xyz) : (takeBlock s).line = s.line := by
  simp only [takeBlock, stripPadding, cutLength]
  split_ifs <;> rfl

theorem endOfFile_later (s : Xyz) : (endOfFile s).2.line <:+ s.line := by
  rw [endOfFile]
  split
  · exact List.suffix_refl _
  · exact (getHdr_later _).line

theorem blockLoop_suffix (n : ℕ) (stat : Stat) (s : Xyz) : (blockLoop n stat s).2.line <:+ s.line := by
  induction n generalizing stat s with
  | zero => exact List.suffix_refl _
  | succ n ih =>
    have hline := (getHdr_later s).line
    rw [blockLoop]
    generalize getHdr s = r at hline ⊢
    obtain ⟨stat', s₁⟩ := r
    cases stat' with
    | ok =>
      dsimp only
      split_ifs
      · rwa [takeBlock_line]
      · exact (ih _ _).trans hline
      · exact (ih _ _).trans hline
    | cancel => exact hline
    | eof => exact (endOfFile_later s₁).trans hline
    | _ => exact (ih _ _).trans hline

theorem blockLoop_shorter {n : ℕ} {stat : Stat} {s s' : Xyz} (h : blockLoop n stat s = (.ok, s'))
    (heof : s'.atEof = false) :
    s'.line.length < s.line.length ∨ stat = .ok ∧ s'.line.length ≤ s.line.length := by
  induction n generalizing stat s with
  | zero =>
    obtain ⟨rfl, rfl⟩ := Prod.mk.inj h
    exact Or.inr ⟨rfl, Nat.le_refl _⟩
  | succ n ih =>
    have hle := (getHdr_later s).line.length_le
    rw [blockLoop] at h
    generalize hget : getHdr s = r at h hle
    obtain ⟨stat', s₁⟩ := r
    left
    cases stat' with
    | ok =>
      have hlt := getHdr_shorter hget
      dsimp only at h
      split_ifs at h with hnext hprev
      · obtain ⟨-, rfl⟩ := Prod.mk.inj h
        rwa [takeBlock_line]
      · rcases ih h with hs | ⟨-, hs⟩
        · exact Nat.lt_trans hs hlt
        · exact Nat.lt_of_le_of_lt hs hlt
      · rcases ih h with hs | ⟨hstat, -⟩
        · exact Nat.lt_trans hs hlt
        · cases hstat
    | cancel => cases h
    | eof =>
      exfalso
      simp only [endOfFile] at h
      split at h
      · cases h
      · obtain ⟨-, rfl⟩ := Prod.mk.inj h
        cases heof
    | _ =>
      rcases ih h with hs | ⟨hstat, -⟩
      · exact Nat.lt_of_lt_of_le hs hle
      · cases hstat

/-- A block, unless there is still one. -/
def fillBlock (s : Xyz) : Stat × Xyz :=
  if s.len = 0 then blockLoop maxRetries .cancel s else (.ok, s)

theorem fillBlock_shorter {s : Xyz} (h : (fillBlock s).1 = .ok) (heof : (fillBlock s).2.atEof = false) :
    (fillBlock s).2.line.length < s.line.length ∨ s.len ≠ 0 ∧ (fillBlock s).2 = s := by
  by_cases hlen : s.len = 0
  · left
    rw [fillBlock, if_pos hlen] at h heof ⊢
    rcases blockLoop_shorter (Prod.ext h rfl) heof with hs | ⟨hstat, -⟩
    · exact hs
    · cases hstat
  · exact Or.inr ⟨hlen, by rw [fillBlock, if_neg hlen]⟩

/-- What `xyzModem_stream_read` has put into the buffer, and its error. -/
inductive Read
  | returned (buf : List UInt8) (err : Option Stat) (s : Xyz)
  /-- `memcpy` with a negative length, or from behind `pkt` -/
  | overrun

/-- The state behind `memcpy` of `n` bytes. -/
def Xyz.advance (s : Xyz) (n : ℕ) : Xyz := { s with len := s.len - n, bufp := s.bufp + n }

/-- The outer loop of `xyzModem_stream_read`, with `size` bytes to come behind those in `buf`. -/
def readLoop (size : ℕ) (buf : List UInt8) (s : Xyz) : Read :=
  if s.atEof ∨ size = 0 then .returned buf none s
  else if (fillBlock s).1 ≠ .ok then
    .returned buf (some (fillBlock s).1) { (fillBlock s).2 with len := -1 }
  else if (fillBlock s).2.atEof then .returned buf none (fillBlock s).2
  else if (fillBlock s).2.len < 0 ∨
      1024 < (fillBlock s).2.bufp + min size (fillBlock s).2.len.toNat then .overrun
  else
    let s := (fillBlock s).2
    let n := min size s.len.toNat
    readLoop (size - n) (buf ++ bytes s.pkt s.bufp n) (s.advance n)
termination_by (s.line.length, s.len.toNat)
decreasing_by
  rename_i hsize hok heof hlen
  rw [Prod.lex_def]
  rcases fillBlock_shorter (not_not.mp hok) (Bool.eq_false_iff.mpr heof) with hlt | ⟨hne, hs⟩
  · exact Or.inl hlt
  · right
    rw [hs] at hlen ⊢
    simp only [Xyz.advance, true_and]
    omega

def streamRead (size : ℕ) (s : Xyz) : Read := readLoop size [] s

/-- What a transfer uses up: the end of the file, the line, the block. -/
def Xyz.rank (s : Xyz) : ℕ ×ₗ ℕ ×ₗ ℕ :=
  toLex (if s.atEof then 0 else 1, toLex (s.line.length, s.len.toNat))

theorem fillBlock_line (s : Xyz) : (fillBlock s).2.line.length ≤ s.line.length := by
  rw [fillBlock]
  split_ifs
  · exact (blockLoop_suffix maxRetries .cancel s).length_le
  · exact Nat.le_refl _

theorem rank_le {s s' : Xyz} (heof : s.atEof = false) (hline : s'.line.length ≤ s.line.length)
    (hlen : s'.len.toNat ≤ s.len.toNat) : s'.rank ≤ s.rank := by
  simp only [Xyz.rank, Prod.Lex.toLex_le_toLex, heof, Bool.false_eq_true, if_false]
  split_ifs <;> omega

theorem rank_lt_of_eof {s s' : Xyz} (heof : s.atEof = false) (heof' : s'.atEof = true) : s'.rank < s.rank := by
  simp only [Xyz.rank, Prod.Lex.toLex_lt_toLex, heof, heof']
  simp

theorem readLoop_rank {size : ℕ} {buf buf' : List UInt8} {err : Option Stat} {s s' : Xyz}
    (h : readLoop size buf s = .returned buf' err s') :
    s'.rank ≤ s.rank ∧ (buf' = buf ∨ s'.rank < s.rank) := by
  fun_induction readLoop size buf s with
  | case1 size buf s hdone =>
    cases h
    exact ⟨le_refl _, Or.inl rfl⟩
  | case2 size buf s hdone hstat =>
    cases h
    exact ⟨rank_le (by simpa using (not_or.mp hdone).1) (fillBlock_line s) (Nat.zero_le _), Or.inl rfl⟩
  | case3 size buf s hdone hstat heof =>
    cases h
    exact ⟨(rank_lt_of_eof (by simpa using (not_or.mp hdone).1) heof).le, Or.inl rfl⟩
  | case4 size buf s hdone hstat heof hrange => cases h
  | case5 size buf s hdone hstat heof hrange s₁ n ih =>
    have hs : s.atEof = false := by simpa using (not_or.mp hdone).1
    have hlt : (s₁.advance n).rank < s.rank := by
      simp only [Xyz.rank, Prod.Lex.toLex_lt_toLex, hs, Xyz.advance]
      rcases fillBlock_shorter (not_not.mp hstat) (Bool.eq_false_iff.mpr heof) with hlt | ⟨hne, heq⟩
      · have hlt : s₁.line.length < s.line.length := hlt
        have heof : s₁.atEof = false := by simpa using heof
        simp [heof, hlt]
      · have heq : s₁ = s := heq
        have hrange : ¬ (s₁.len < 0 ∨ 1024 < s₁.bufp + min size s₁.len.toNat) := hrange
        have hsize : size ≠ 0 := (not_or.mp hdone).2
        simp only [n, heq, hs] at hrange ⊢
        simp
        omega
    obtain ⟨hle, -⟩ := ih h
    exact ⟨hle.trans hlt.le, Or.inr (hle.trans_lt hlt)⟩

/-- How `load_serial_ymodem` ends; `size` is what it prints and sets `filesize` to. -/
inductive Loaded
  | done (size : ℕ) (mem : Mem) (s : Xyz)
  | outside
  | overrun

/-- The loop of `load_serial_ymodem`, for a target that is no flash. -/
def loadLoop (offset addr : ℕ) (m : Mem) (s : Xyz) : Loaded :=
  match h : streamRead 1024 s with
  | .overrun => .overrun
  | .returned [] _ s' => .done addr m s'
  | .returned (b :: buf) _ s' =>
    loadLoop offset ((addr + (b :: buf).length) % 2 ^ 32)
      (store m ((addr + offset) % 2 ^ 32) (b :: buf)) s'
termination_by s.rank
decreasing_by
  rcases (readLoop_rank h).2 with hnil | hlt
  · cases hnil
  · exact hlt

def loadSerialYmodem (offset : ℕ) (m : Mem) (s : Xyz) : Loaded :=
  match streamOpen .ymodem s with
  | .outside => .outside
  | .failed _ s => .done 0 m s
  | .opened s => loadLoop offset 0 m s

end UBoot.Common.XyzModem
