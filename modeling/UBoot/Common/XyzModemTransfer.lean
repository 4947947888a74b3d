import Mathlib
import UBoot.Common.XyzModemFrames
import UBoot.LibGeneric.Vsprintf

namespace UBoot.Common.XyzModemTransfer

open Lib.Memory XyzModem XyzModemFrames LibGeneric.Vsprintf

/-- A block as the sender builds it. -/
def blockOf (crc : Bool) (blk : UInt8) (data : List UInt8) : Frame where
  c := if data.length = 128 then soh else stx
  blk := blk
  cblk := ~~~blk
  data := data
  check := checkOf crc data

def Sized (data : List UInt8) : Prop := data.length = 128 ∨ data.length = 1024

/-- The receiver fails on each of these pieces of the line. -/
def AllFail (crc : Bool) (other : UInt8 → Prop) (pieces : List Line) : Prop :=
  ∀ p ∈ pieces, ∃ stat, Failed crc other stat p

/-- The blocks from a number on and the end of the transmission, each behind what failed. -/
inductive Coming (crc : Bool) : UInt8 → List (List UInt8) → Line → Prop
  | eot {next : UInt8} {pieces : List Line} {rest : Line} (hfail : AllFail crc (· ≠ next) pieces)
    (hretries : pieces.length < maxRetries) : Coming crc next [] (pieces.flatten ++ some eot :: rest)
  | block {next : UInt8} {pieces : List Line} {g data : List UInt8} {blocks : List (List UInt8)}
    {line : Line} (hfail : AllFail crc (· ≠ next) pieces) (hretries : pieces.length < maxRetries)
    (hg : Noise g) (hdata : Sized data) (hline : Coming crc (next + 1) blocks line) :
    Coming crc next (data :: blocks)
      (pieces.flatten ++ (chars (g ++ (blockOf crc next data).text) ++ line))

section Blocks

variable {crc : Bool} {blk next : UInt8} {data : List UInt8} {s : Xyz} {line : Line}

theorem blockOf_shaped (crc : Bool) (blk : UInt8) (h : Sized data) : (blockOf crc blk data).Shaped crc where
  start := by
    simp only [blockOf]
    split_ifs
    · exact Or.inl rfl
    · exact Or.inr rfl
  data := by
    have hne : stx ≠ soh := by decide
    rcases h with h | h <;> simp [blockOf, h, hne]
  check := by
    cases crc <;> rfl

theorem blockOf_stat (crc : Bool) (blk : UInt8) (data : List UInt8) :
    (blockOf crc blk data).stat crc = .ok := by
  have hblk : blk ^^^ ~~~blk = 0xFF := by
    rw [UInt8.xor_not, UInt8.xor_self]
    rfl
  rw [Frame.stat]
  refine (if_neg (not_not.mpr hblk)).trans ?_
  exact if_pos rfl

theorem blockLoop_failed {pieces : List Line} (hfail : AllFail s.crcMode (· ≠ s.nextBlk) pieces)
    (hline : s.line = pieces.flatten ++ line) (n : ℕ) (stat : Stat) :
    ∃ stat' s', blockLoop (n + pieces.length) stat s = blockLoop n stat' s' ∧ s'.line = line ∧
      Later s s' := by
  induction pieces generalizing s stat with
  | nil => exact ⟨stat, s, rfl, hline, Later.refl s⟩
  | cons p pieces ih =>
    obtain ⟨stat₁, hp⟩ := hfail p List.mem_cons_self
    rw [List.flatten_cons, List.append_assoc] at hline
    obtain ⟨s₁, hget, hline₁, hother⟩ := getHdr_failed hp hline
    have hlater : Later s s₁ := by
      have h := getHdr_later s
      rwa [hget] at h
    have hnext (stat' : Stat) (s₂ : Xyz) (hs : Later s₁ s₂) (hs' : s₂.line = s₁.line) :
        ∃ stat'' s', blockLoop (n + pieces.length) stat' s₂ = blockLoop n stat'' s' ∧ s'.line = line ∧
          Later s s' := by
      have hlater₂ := hlater.trans hs
      obtain ⟨stat'', s', hloop, hline', hlater'⟩ := ih (s := s₂)
        (by
          rw [hlater₂.crcMode, hlater₂.nextBlk]
          exact fun q hq ↦ hfail q (List.mem_cons_of_mem _ hq))
        (hs'.trans hline₁) stat'
      exact ⟨stat'', s', hloop, hline', hlater₂.trans hlater'⟩
    rw [List.length_cons, ← Nat.add_assoc, blockLoop, hget]
    cases hp with
    | other hg hf hstat ho =>
      have hne : s₁.blk ≠ s₁.nextBlk := by
        rw [hlater.nextBlk]
        exact hother rfl
      dsimp only
      rw [if_neg hne]
      split_ifs
      · exact hnext _ _ (Later.putc _ _) rfl
      · exact hnext _ _ (Later.putNak _) rfl
    | _ => exact hnext _ _ (Later.putNak _) rfl

theorem blockLoop_block {g : List UInt8} (hg : Noise g) (hdata : Sized data)
    (hline : s.line = chars (g ++ (blockOf s.crcMode s.nextBlk data).text) ++ line) (n : ℕ) (stat : Stat) :
    ∃ s', blockLoop (n + 1) stat s = (.ok, takeBlock s') ∧
      Arrived (blockOf s.crcMode s.nextBlk data) s' ∧ s'.line = line ∧ Later s s' := by
  obtain ⟨s', hget, harrived, hline'⟩ := getHdr_frame hg (blockOf_shaped _ _ hdata) hline
  have hlater : Later s s' := by
    have h := getHdr_later s
    rwa [hget] at h
  rw [blockOf_stat] at hget hline'
  rw [blockLoop, hget]
  dsimp only
  rw [if_pos (harrived.blk.trans hlater.nextBlk.symm)]
  exact ⟨s', rfl, harrived, hline', hlater⟩

theorem endOfFile_atEof (s : Xyz) : (endOfFile s).2.atEof = true := by
  rw [endOfFile]
  split <;> rfl

theorem blockLoop_eot (hline : s.line = some eot :: line) (n : ℕ) (stat : Stat) :
    (blockLoop (n + 1) stat s).2.atEof = true := by
  obtain ⟨s', hget, -⟩ := getHdr_eof hline
  rw [blockLoop, hget]
  exact endOfFile_atEof s'

end Blocks

section Reading

variable {crc : Bool} {total r : ℕ} {blocks : List (List UInt8)} {s : Xyz}

/-- Every block starts within the file, of which `r` bytes are there. -/
def Fits (total : ℕ) : ℕ → List (List UInt8) → Prop
  | _, [] => True
  | r, b :: blocks => r ≤ total ∧ Fits total (r + b.length) blocks

/-- The receiver within a file of `total` bytes, of which `r` have come, and the blocks still to come. -/
structure Holding (crc : Bool) (total r : ℕ) (blocks : List (List UInt8)) (s : Xyz) : Prop where
  mode : s.mode = .ymodem
  crcMode : s.crcMode = crc
  atEof : s.atEof = false
  fileLength : s.fileLength = UInt32.ofNat total
  readLength : s.readLength = UInt32.ofNat r
  len : 0 ≤ s.len
  range : s.bufp + s.len.toNat ≤ 1024
  fits : Fits total r blocks
  line : Coming crc s.nextBlk blocks s.line

/-- What is still to be delivered. -/
def held (total r : ℕ) (blocks : List (List UInt8)) (s : Xyz) : List UInt8 :=
  bytes s.pkt s.bufp s.len.toNat ++ blocks.flatten.take (total - r)

theorem toNat_ofNat {n : ℕ} (h : n < 2 ^ 32) : (UInt32.ofNat n).toNat = n := by
  rw [UInt32.toNat_ofNat']
  exact Nat.mod_eq_of_lt h

theorem takeBlock_eq {f : Frame} (h : Arrived f s) (hmode : s.mode = .ymodem) (hlength : f.data.length ≤ 1024)
    (hfile : s.fileLength = UInt32.ofNat total) (hread : s.readLength = UInt32.ofNat r) (hpos : 0 < total)
    (htotal : total + 1024 < 2 ^ 32) (hr : r ≤ total) :
    takeBlock s = { s with
      txAck := true
      nextBlk := s.nextBlk + 1
      readLength := UInt32.ofNat (r + f.data.length)
      len := (min f.data.length (total - r) : ℕ) } := by
  have hfileNat : s.fileLength.toNat = total := by
    rw [hfile]
    exact toNat_ofNat (by omega)
  have hsumNat : (UInt32.ofNat (r + f.data.length)).toNat = r + f.data.length := toNat_ofNat (by omega)
  have hne : s.fileLength ≠ 0 := by
    rw [Ne, ← UInt32.toNat_inj, hfileNat]
    exact Nat.ne_of_gt hpos
  have hlenNat : UInt32.ofInt s.len = UInt32.ofNat f.data.length := by
    rw [h.len, UInt32.ofInt]
    congr 1
    omega
  have hsum : s.readLength + UInt32.ofInt s.len = UInt32.ofNat (r + f.data.length) := by
    rw [hlenNat, hread, UInt32.ofNat_add]
  have hcmp : s.fileLength < UInt32.ofNat (r + f.data.length) ↔ total < r + f.data.length := by
    rw [UInt32.lt_iff_toNat_lt, hfileNat, hsumNat]
  have hxmodem : ¬ (s.mode = .xmodem ∨ s.fileLength = 0) := by
    rw [hmode]
    simp [hne]
  have hymodem : s.mode ≠ .xmodem ∧ s.fileLength ≠ 0 := by
    rw [hmode]
    simp [hne]
  rw [takeBlock]
  simp only [hxmodem, if_false]
  rw [if_pos hymodem]
  simp only [cutLength, hsum]
  by_cases hcut : total < r + f.data.length
  · have hdiff : (UInt32.ofNat (r + f.data.length) - s.fileLength).toNat = r + f.data.length - total := by
      rw [UInt32.toNat_sub_of_le, hsumNat, hfileNat]
      rw [UInt32.le_iff_toNat_le, hsumNat, hfileNat]
      omega
    have hlen : (s.len - (r + f.data.length - total : ℕ)).bmod (2 ^ 32) = (min f.data.length (total - r) : ℕ) := by
      rw [h.len, Int.bmod_eq_of_le (by omega) (by omega)]
      omega
    rw [if_pos (hcmp.mpr hcut), hdiff, hlen]
  · have hmin : min f.data.length (total - r) = f.data.length := by omega
    rw [if_neg (mt hcmp.mp hcut), hmin, h.len]

theorem Holding.fill (h : Holding crc total r blocks s) (hpos : 0 < total) (htotal : total + 1024 < 2 ^ 32) :
    (∃ r' blocks', (fillBlock s).1 = .ok ∧ Holding crc total r' blocks' (fillBlock s).2 ∧
      held total r' blocks' (fillBlock s).2 = held total r blocks s) ∨
    (fillBlock s).2.atEof = true ∧ held total r blocks s = [] := by
  by_cases hlen : s.len = 0
  · have hempty : bytes s.pkt s.bufp s.len.toNat = [] := by
      rw [hlen]
      rfl
    rw [fillBlock, if_pos hlen]
    have hcoming := h.line
    generalize hnext : s.nextBlk = next at hcoming
    generalize hline : s.line = line at hcoming
    cases hcoming with
    | @eot _ pieces rest hfail hretries =>
      right
      rw [← h.crcMode, ← hnext] at hfail
      obtain ⟨stat, s', hloop, hline', -⟩ :=
        blockLoop_failed hfail hline (maxRetries - pieces.length - 1 + 1) .cancel
      have hsum : maxRetries - pieces.length - 1 + 1 + pieces.length = maxRetries := by omega
      rw [hsum] at hloop
      refine ⟨?_, by rw [held, hempty, List.flatten_nil, List.take_nil, List.append_nil]⟩
      rw [hloop]
      exact blockLoop_eot hline' _ _
    | @block _ pieces g data blocks rest hfail hretries hg hdata hcoming =>
      left
      rw [← h.crcMode, ← hnext] at hfail
      obtain ⟨stat, s', hloop, hline', hlater⟩ :=
        blockLoop_failed hfail hline (maxRetries - pieces.length - 1 + 1) .cancel
      have hsum : maxRetries - pieces.length - 1 + 1 + pieces.length = maxRetries := by omega
      rw [hsum] at hloop
      rw [← h.crcMode, ← hnext, ← hlater.crcMode, ← hlater.nextBlk] at hline'
      obtain ⟨s'', hblock, harrived, hline'', hlater'⟩ :=
        blockLoop_block hg hdata hline' (maxRetries - pieces.length - 1) stat
      have hlater := hlater.trans hlater'
      have hsize : data.length ≤ 1024 := by
        rcases hdata with hd | hd <;> omega
      obtain ⟨hr, hfits⟩ := h.fits
      have htake := takeBlock_eq harrived (hlater.mode.trans h.mode) hsize (hlater.fileLength.trans h.fileLength)
        (hlater.readLength.trans h.readLength) hpos htotal hr
      have hpkt : bytes s''.pkt 0 data.length = data := harrived.pkt
      refine ⟨r + data.length, blocks, by rw [hloop, hblock], ?_, ?_⟩
      · rw [hloop, hblock, htake]
        exact {
          mode := hlater.mode.trans h.mode
          crcMode := hlater.crcMode.trans h.crcMode
          atEof := hlater.atEof.trans h.atEof
          fileLength := hlater.fileLength.trans h.fileLength
          readLength := rfl
          len := Int.natCast_nonneg _
          range := by
            simp only [harrived.bufp, Int.toNat_natCast, blockOf]
            omega
          fits := hfits
          line := by
            rw [hlater.nextBlk, hnext, hline'']
            exact hcoming }
      · have htaken : data.take (total - r) = bytes s''.pkt 0 (min data.length (total - r)) := by
          conv_lhs => rw [← hpkt]
          rw [take_bytes, Nat.min_comm]
        rw [hloop, hblock, htake, held, held, hempty]
        simp only [harrived.bufp, Int.toNat_natCast, blockOf, List.flatten_cons, List.take_append, List.nil_append]
        rw [htaken, Nat.sub_sub]
  · left
    rw [fillBlock, if_neg hlen]
    exact ⟨r, blocks, rfl, h, rfl⟩

theorem Holding.advance (h : Holding crc total r blocks s) {n : ℕ} (hn : n ≤ s.len.toNat) :
    Holding crc total r blocks (s.advance n) ∧
      held total r blocks s = bytes s.pkt s.bufp n ++ held total r blocks (s.advance n) := by
  have hlen : (s.len - n).toNat = s.len.toNat - n := by omega
  have hsplit : s.len.toNat = n + (s.len.toNat - n) := by omega
  constructor
  · exact {
      mode := h.mode
      crcMode := h.crcMode
      atEof := h.atEof
      fileLength := h.fileLength
      readLength := h.readLength
      len := by
        have hlen := h.len
        simp only [Xyz.advance]
        omega
      range := by
        have hrange := h.range
        simp only [Xyz.advance]
        omega
      fits := h.fits
      line := h.line }
  · rw [held, held]
    simp only [Xyz.advance, hlen]
    conv_lhs => rw [hsplit]
    rw [bytes_append, List.append_assoc]

/-- One call of `xyzModem_stream_read` in the file. -/
theorem readLoop_holding (hpos : 0 < total) (htotal : total + 1024 < 2 ^ 32) (size : ℕ) (buf : List UInt8)
    (h : Holding crc total r blocks s) :
    ∃ err s', readLoop size buf s = .returned (buf ++ (held total r blocks s).take size) err s' ∧
      ((∃ r' blocks', Holding crc total r' blocks' s' ∧
        held total r' blocks' s' = (held total r blocks s).drop size) ∨
      s'.atEof = true ∧ (held total r blocks s).drop size = []) := by
  fun_induction readLoop size buf s generalizing r blocks with
  | case1 size buf s hdone =>
    have hsize : size = 0 := hdone.resolve_left (by simp [h.atEof])
    subst hsize
    refine ⟨none, s, ?_, Or.inl ⟨r, blocks, h, rfl⟩⟩
    rw [List.take_zero, List.append_nil]
  | case2 size buf s hdone hstat =>
    rcases h.fill hpos htotal with ⟨r', blocks', hok, -⟩ | ⟨heof, hempty⟩
    · exact absurd hok hstat
    · rw [hempty, List.take_nil, List.append_nil, List.drop_nil]
      exact ⟨_, _, rfl, Or.inr ⟨heof, rfl⟩⟩
  | case3 size buf s hdone hstat heof =>
    rcases h.fill hpos htotal with ⟨r', blocks', -, hfill, -⟩ | ⟨-, hempty⟩
    · rw [hfill.atEof] at heof
      cases heof
    · rw [hempty, List.take_nil, List.append_nil, List.drop_nil]
      exact ⟨_, _, rfl, Or.inr ⟨heof, rfl⟩⟩
  | case4 size buf s hdone hstat heof hrange =>
    exfalso
    rcases h.fill hpos htotal with ⟨r', blocks', -, hfill, -⟩ | ⟨heof', -⟩
    · have hlen := hfill.len
      have hroom := hfill.range
      omega
    · exact heof heof'
  | case5 size buf s hdone hstat heof hrange s₁ =>
    rename_i n ih
    rcases h.fill hpos htotal with ⟨r', blocks', -, hfill, hheld⟩ | ⟨heof', -⟩
    · have hn : n ≤ s₁.len.toNat := Nat.min_le_right _ _
      have hsize : size = n + (size - n) := by
        have : n ≤ size := Nat.min_le_left _ _
        omega
      obtain ⟨hadvance, hsplit⟩ := hfill.advance hn
      have htake : (bytes s₁.pkt s₁.bufp n).length = n := bytes_length _ _ _
      obtain ⟨err, s', hloop, hrest⟩ := ih hadvance
      have htaken : (held total r blocks s).take size =
          bytes s₁.pkt s₁.bufp n ++ (held total r' blocks' (s₁.advance n)).take (size - n) := by
        conv_lhs => rw [← hheld, hsplit, hsize, List.take_add, List.take_left' htake, List.drop_left' htake]
      have hdropped : (held total r blocks s).drop size =
          (held total r' blocks' (s₁.advance n)).drop (size - n) := by
        conv_lhs => rw [← hheld, hsplit, hsize, ← List.drop_drop, List.drop_left' htake]
      rw [htaken, hdropped, ← List.append_assoc]
      exact ⟨err, s', hloop, hrest⟩
    · exact absurd heof' heof

theorem readLoop_ended (h : s.atEof = true) (size : ℕ) (buf : List UInt8) :
    readLoop size buf s = .returned buf none s := by
  rw [readLoop, if_pos (Or.inl h)]

theorem loadLoop_returned {offset addr : ℕ} {m : Mem} {buf : List UInt8} {err : Option Stat} {s' : Xyz}
    (h : streamRead 1024 s = .returned buf err s') :
    loadLoop offset addr m s =
      if buf = [] then .done addr m s'
      else loadLoop offset ((addr + buf.length) % 2 ^ 32) (store m ((addr + offset) % 2 ^ 32) buf) s' := by
  rw [loadLoop]
  split
  · next hread =>
    rw [h] at hread
    cases hread
  · next hread =>
    rw [h] at hread
    obtain ⟨rfl, -, rfl⟩ := Read.returned.inj hread
    rw [if_pos rfl]
  · next hread =>
    rw [h] at hread
    obtain ⟨rfl, -, rfl⟩ := Read.returned.inj hread
    rw [if_neg (List.cons_ne_nil _ _)]

theorem loadLoop_ended (h : s.atEof = true) (offset addr : ℕ) (m : Mem) :
    loadLoop offset addr m s = .done addr m s := by
  rw [loadLoop_returned (readLoop_ended h _ _), if_pos rfl]

/-- The rest of a file goes where the loop is in the memory. -/
theorem loadLoop_holding (hpos : 0 < total) (htotal : total + 1024 < 2 ^ 32) (h : Holding crc total r blocks s)
    {offset addr : ℕ} (m : Mem) (hroom : addr + offset + (held total r blocks s).length ≤ 2 ^ 32)
    (hsize : addr + (held total r blocks s).length < 2 ^ 32) :
    ∃ s', loadLoop offset addr m s = .done (addr + (held total r blocks s).length)
      (store m (addr + offset) (held total r blocks s)) s' := by
  induction hn : (held total r blocks s).length using Nat.strong_induction_on
    generalizing addr m r blocks s with
  | _ n ih =>
    obtain ⟨err, s', hread, hrest⟩ := readLoop_holding hpos htotal 1024 [] h
    rw [List.nil_append] at hread
    have hload : loadLoop offset addr m s = _ := loadLoop_returned hread
    generalize held total r blocks s = out at hload hrest hroom hsize hn ⊢
    subst hn
    by_cases hempty : out = []
    · rw [hempty, List.take_nil, if_pos rfl] at hload
      rw [hempty, store_nil]
      exact ⟨s', hload⟩
    have hpos' : 0 < out.length := List.length_pos_iff.mpr hempty
    have htaken : (out.take 1024).length = min 1024 out.length := List.length_take
    have hne : out.take 1024 ≠ [] := List.length_pos_iff.mp (by omega)
    have haddr : (addr + (out.take 1024).length) % 2 ^ 32 = addr + (out.take 1024).length :=
      Nat.mod_eq_of_lt (by omega)
    have hstore : (addr + offset) % 2 ^ 32 = addr + offset := Nat.mod_eq_of_lt (by omega)
    have hdropped : (out.drop 1024).length = out.length - 1024 := List.length_drop
    have hsplit : store (store m (addr + offset) (out.take 1024))
        (addr + (out.take 1024).length + offset) (out.drop 1024) = store m (addr + offset) out := by
      have hswap : addr + (out.take 1024).length + offset = addr + offset + (out.take 1024).length := by omega
      rw [hswap, store_store, List.take_append_drop]
    rw [if_neg hne, haddr, hstore] at hload
    rw [hload]
    rcases hrest with ⟨r', blocks', hnext, hheld⟩ | ⟨heof, hnil⟩
    · rw [← hheld] at hdropped hsplit
      have haddr' : addr + (out.take 1024).length + offset + (held total r' blocks' s').length ≤ 2 ^ 32 := by
        omega
      obtain ⟨s'', hdone⟩ := ih _ (by omega) hnext (store m (addr + offset) (out.take 1024)) haddr' (by omega) rfl
      refine ⟨s'', ?_⟩
      rw [hdone, hsplit]
      congr 1
      omega
    · rw [loadLoop_ended heof]
      rw [hnil, store_nil] at hsplit
      rw [hnil, List.length_nil] at hdropped
      refine ⟨s', ?_⟩
      rw [hsplit]
      congr 1
      omega

end Reading

section Opening

variable {crc crc' : Bool} {s : Xyz} {line : Line}

/-- What fails in front of the header of the file. The receiver gives up the CRC when it has waited
often enough. -/
inductive Waits : ℤ → Bool → List Line → Bool → Prop
  | nil (n : ℤ) (crc : Bool) : Waits n crc [] crc
  | timeout {n : ℤ} {crc crc' : Bool} {p : Line} {pieces : List Line}
    (hp : Failed crc (fun _ ↦ False) .timeout p)
    (hrest : Waits (n - 1) (if n - 1 ≤ 0 then false else crc) pieces crc') : Waits n crc (p :: pieces) crc'
  | damaged {n : ℤ} {crc crc' : Bool} {stat : Stat} {p : Line} {pieces : List Line}
    (hp : Failed crc (fun _ ↦ False) stat p) (hstat : stat ≠ .timeout) (hrest : Waits n crc pieces crc') :
    Waits n crc (p :: pieces) crc'

/-- The variables of the transfer that the opening leaves alone. -/
structure Unread (s : Xyz) : Prop where
  mode : s.mode = .ymodem
  atEof : s.atEof = false
  readLength : s.readLength = 0

theorem Unread.later {s' : Xyz} (h : Unread s) (hs : Later s s') : Unread s' :=
  ⟨hs.mode.trans h.mode, hs.atEof.trans h.atEof, hs.readLength.trans h.readLength⟩

theorem openLoop_waits {pieces : List Line} {n : ℤ} (h : Waits n crc pieces crc') (hs : Unread s)
    (hcrc : s.crcMode = crc) (hline : s.line = pieces.flatten ++ line) (retries : ℕ) (stat : Stat) :
    ∃ n' stat' s', openLoop (retries + pieces.length) n stat s = openLoop retries n' stat' s' ∧
      s'.line = line ∧ s'.crcMode = crc' ∧ Unread s' := by
  induction h generalizing s stat with
  | nil n crc => exact ⟨n, stat, s, rfl, hline, hcrc, hs⟩
  | @timeout n crc crc' p pieces hp hrest ih =>
    rw [List.flatten_cons, List.append_assoc] at hline
    rw [← hcrc] at hp
    obtain ⟨s₁, hget, hline₁, -⟩ := getHdr_failed hp hline
    have hlater : Later s s₁ := by
      have h := getHdr_later s
      rwa [hget] at h
    rw [List.length_cons, ← Nat.add_assoc, openLoop, hget]
    dsimp only
    have hs₁ := hs.later hlater
    split_ifs at ih ⊢ with hn
    · exact ih (s := { s₁ with crcMode := false }.putNak) ⟨hs₁.mode, hs₁.atEof, hs₁.readLength⟩ rfl hline₁ _
    · exact ih (s := s₁.putNak) ⟨hs₁.mode, hs₁.atEof, hs₁.readLength⟩ (hlater.crcMode.trans hcrc) hline₁ _
  | @damaged n crc crc' stat₁ p pieces hp hstat hrest ih =>
    rw [List.flatten_cons, List.append_assoc] at hline
    rw [← hcrc] at hp
    obtain ⟨s₁, hget, hline₁, hother⟩ := getHdr_failed hp hline
    have hlater : Later s s₁ := by
      have h := getHdr_later s
      rwa [hget] at h
    rw [List.length_cons, ← Nat.add_assoc, openLoop, hget]
    cases hp with
    | silence => exact absurd rfl hstat
    | cut => exact absurd rfl hstat
    | other hg hf hok ho => exact ho.elim
    | _ => exact ih (hs.later hlater) (hlater.crcMode.trans hcrc) hline₁ _

theorem parseDigits_decimal (ds : List ℕ) (hds : ∀ d ∈ ds, d < 10) (m : ℕ) {c : UInt8} (hc : c = 0 ∨ c = 0x20)
    (rest : List UInt8) :
    parseDigits 10 ((ds.map fun d ↦ UInt8.ofNat (0x30 + d)) ++ c :: rest) (UInt32.ofNat m) =
      .value (UInt32.ofNat (ds.foldl (fun m d ↦ m * 10 + d) m)) := by
  induction ds generalizing m with
  | nil =>
    rcases hc with rfl | rfl
    · rfl
    · rfl
  | cons d ds ih =>
    have hdigit : ∀ d < 10, UInt8.ofNat (0x30 + d) ≠ 0 ∧ isHex (UInt8.ofNat (0x30 + d)) = true ∧
        fromHex (UInt8.ofNat (0x30 + d)) < 10 ∧ fromHex (UInt8.ofNat (0x30 + d)) = UInt32.ofNat d := by decide
    obtain ⟨hne, hhex, hlt, hvalue⟩ := hdigit d (hds d List.mem_cons_self)
    rw [List.map_cons, List.cons_append, parseDigits, if_neg hne, if_pos ⟨hhex, hlt⟩, hvalue, List.foldl_cons,
      ← ih (fun e he ↦ hds e (List.mem_cons_of_mem _ he)), UInt32.ofNat_add, UInt32.ofNat_mul]
    rfl

theorem parseNum_decimal {n : ℕ} (hn : 0 < n) {c : UInt8} (hc : c = 0 ∨ c = 0x20) (rest : List UInt8) :
    parseNum (decimal n ++ c :: rest) = .value (UInt32.ofNat n) := by
  have hlt : ∀ d ∈ (Nat.digits 10 n).reverse, d < 10 := fun d hd ↦
    Nat.digits_lt_base (by decide) (List.mem_reverse.mp hd)
  have hparse := parseDigits_decimal (Nat.digits 10 n).reverse hlt 0 hc rest
  rw [foldl_digits] at hparse
  obtain ⟨hdigit, hzero⟩ := first_decimal_append hn (c :: rest)
  rw [decimal] at hdigit hzero ⊢
  generalize (Nat.digits 10 n).reverse.map (fun d ↦ UInt8.ofNat (0x30 + d)) ++ c :: rest = text at *
  cases text with
  | nil => exact absurd hdigit (by decide)
  | cons d text =>
    have hblank : d ≠ 0x20 := by
      intro heq
      have hdigit : isdigit d = true := hdigit
      rw [heq] at hdigit
      exact absurd hdigit (by decide)
    have hzero : d ≠ 0x30 := hzero
    rw [parseNum, List.dropWhile_cons_of_neg (by simpa using hblank)]
    unfold parseNumber
    split
    · next heq => cases heq
    · next heq => exact absurd (List.cons.inj heq).1 hzero
    · next heq => exact absurd (List.cons.inj heq).1 hzero
    · exact hparse

/-- The header of a file whose length is not 0. -/
theorem fileHeader_eq {f : Frame} (h : Arrived f s) (hlength : f.data.length ≤ 1024) {name info : List UInt8}
    {n : ℕ} (hn : 0 < n) (hname : 0 ∉ name) {c : UInt8} (hc : c = 0 ∨ c = 0x20)
    (hdata : f.data = name ++ 0 :: (decimal n ++ c :: info)) :
    ∃ bufp, bufp ≤ 1024 ∧ fileHeader s = .opened { s with
      bufp := bufp, fileLength := UInt32.ofNat n, txAck := true, nextBlk := 1, len := 0 } := by
  obtain ⟨k, hk⟩ := Nat.exists_eq_add_of_le hlength
  have hsplit := bytes_append s.pkt 0 f.data.length k
  rw [h.pkt, ← hk] at hsplit
  generalize bytes s.pkt (0 + f.data.length) k = stale at hsplit
  have hbytes : wholePkt s = name ++ 0 :: (decimal n ++ c :: (info ++ stale)) := by
    rw [wholePkt, hsplit, hdata]
    simp only [List.append_assoc, List.cons_append]
  have hne : ∀ x ∈ name, decide (x ≠ 0) = true := by
    intro x hx
    rw [decide_eq_true_eq]
    rintro rfl
    exact hname hx
  have htake : ((name ++ 0 :: (decimal n ++ c :: (info ++ stale))).takeWhile (fun x ↦ decide (x ≠ 0))) = name := by
    rw [List.takeWhile_append_of_pos hne, List.takeWhile_cons_of_neg (by simp), List.append_nil]
  have hdrop : (name ++ 0 :: (decimal n ++ c :: (info ++ stale))).dropWhile (fun x ↦ decide (x ≠ 0)) =
      0 :: (decimal n ++ c :: (info ++ stale)) := by
    rw [List.dropWhile_append_of_pos hne, List.dropWhile_cons_of_neg (by simp)]
  have hroom : name.length + 1 ≤ 1024 := by
    rw [hdata, List.length_append, List.length_cons] at hlength
    omega
  refine ⟨name.length + 1, hroom, ?_⟩
  unfold fileHeader
  rw [hbytes, hdrop, htake]
  dsimp only
  rw [parseNum_decimal hn hc]

end Opening

/-- What the sender of a file puts on the line: behind what failed the header with the name and the
length, then the blocks. Each block starts within the file. -/
structure Session (file : List UInt8) where
  crc : Bool
  waits : List Line
  noise : List UInt8
  name : List UInt8
  behind : UInt8
  info : List UInt8
  blocks : List (List UInt8)
  pad : List UInt8
  rest : Line
  waits_fail : Waits maxRetriesWithCrc true waits crc
  retries : waits.length < maxRetries
  noise_skipped : Noise noise
  name_ends : 0 ∉ name
  number_ends : behind = 0 ∨ behind = 0x20
  header_sized : Sized (name ++ 0 :: (decimal file.length ++ behind :: info))
  blocks_eq : blocks.flatten = file ++ pad
  fits : Fits file.length 0 blocks
  coming : Coming crc 1 blocks rest

namespace Session

variable {file : List UInt8} (session : Session file)

def header : List UInt8 := session.name ++ 0 :: (decimal file.length ++ session.behind :: session.info)

def line : Line :=
  session.waits.flatten ++ (chars (session.noise ++ (blockOf session.crc 0 session.header).text) ++ session.rest)

end Session

theorem streamOpen_session {file : List UInt8} (session : Session file) (hfile : file ≠ []) {s : Xyz}
    (hline : s.line = session.line) :
    ∃ s', streamOpen .ymodem s = .opened s' ∧ Holding session.crc file.length 0 session.blocks s' ∧
      held file.length 0 session.blocks s' = file := by
  have hpos : 0 < file.length := List.length_pos_iff.mpr hfile
  rw [streamOpen]
  generalize hstart : Xyz.putNak { s with
    len := 0, crcMode := true, atEof := false, txAck := false, mode := .ymodem, readLength := 0
    fileLength := 0 } = s₀
  have hs₀ : Unread s₀ := by
    subst hstart
    exact ⟨rfl, rfl, rfl⟩
  have hcrc : s₀.crcMode = true := by
    subst hstart
    rfl
  have hline₀ : s₀.line = session.line := by
    subst hstart
    exact hline
  obtain ⟨n', stat', s₁, hloop, hline₁, hcrc₁, hs₁⟩ := openLoop_waits session.waits_fail hs₀ hcrc hline₀
    (maxRetries - session.waits.length - 1 + 1) .ok
  have hretries := session.retries
  have hsum : maxRetries - session.waits.length - 1 + 1 + session.waits.length = maxRetries := by omega
  rw [hsum] at hloop
  rw [← hcrc₁] at hline₁
  obtain ⟨s₂, hget, harrived, hline₂⟩ :=
    getHdr_frame session.noise_skipped (blockOf_shaped _ 0 session.header_sized) hline₁
  have hlater : Later s₁ s₂ := by
    have h := getHdr_later s₁
    rwa [hget] at h
  rw [blockOf_stat] at hget hline₂
  have hsize : (blockOf s₁.crcMode 0 session.header).data.length ≤ 1024 := by
    have hsized : Sized session.header := session.header_sized
    simp only [blockOf]
    rcases hsized with hd | hd <;> omega
  obtain ⟨bufp, hbufp, hheader⟩ := fileHeader_eq harrived hsize hpos session.name_ends session.number_ends rfl
  have hopened : openLoop (maxRetries - session.waits.length - 1 + 1) n' stat' s₁ = fileHeader s₂ := by
    rw [openLoop, hget]
    exact if_pos harrived.blk
  refine ⟨_, (hloop.trans hopened).trans hheader, ?_, ?_⟩
  · exact {
      mode := (hs₁.later hlater).mode
      crcMode := hlater.crcMode.trans hcrc₁
      atEof := (hs₁.later hlater).atEof
      fileLength := rfl
      readLength := (hs₁.later hlater).readLength
      len := Int.le_refl 0
      range := hbufp
      fits := session.fits
      line := hline₂ ▸ session.coming }
  · rw [held, session.blocks_eq, Nat.sub_zero, List.take_left]
    rfl

theorem load_session {file : List UInt8} (session : Session file) (hfile : file ≠ [])
    (hsize : file.length + 1024 < 2 ^ 32) {offset : ℕ} (hroom : offset + file.length ≤ 2 ^ 32) {s : Xyz}
    (hline : s.line = session.line) (m : Mem) :
    ∃ s₁ s', streamOpen .ymodem s = .opened s₁ ∧
      loadLoop offset 0 m s₁ = .done file.length (store m offset file) s' := by
  obtain ⟨s₁, hopen, hholding, hheld⟩ := streamOpen_session session hfile hline
  have hroom₁ : 0 + offset + (held file.length 0 session.blocks s₁).length ≤ 2 ^ 32 := by
    rw [hheld]
    omega
  have hsize₁ : 0 + (held file.length 0 session.blocks s₁).length < 2 ^ 32 := by
    rw [hheld]
    omega
  obtain ⟨s', hload⟩ := loadLoop_holding (List.length_pos_iff.mpr hfile) hsize hholding m hroom₁ hsize₁
  rw [hheld, Nat.zero_add, Nat.zero_add] at hload
  exact ⟨s₁, s', hopen, hload⟩

/-- `load_serial_ymodem` stores the file that is sent, whatever fails in between. -/
theorem load_serial_ymodem_delivers {file : List UInt8} (session : Session file) (hfile : file ≠ [])
    (hsize : file.length + 1024 < 2 ^ 32) {offset : ℕ} (hroom : offset + file.length ≤ 2 ^ 32) {s : Xyz}
    (hline : s.line = session.line) (m : Mem) :
    ∃ s', loadSerialYmodem offset m s = .done file.length (store m offset file) s' := by
  obtain ⟨s₁, s', hopen, hload⟩ := load_session session hfile hsize hroom hline m
  refine ⟨s', ?_⟩
  rw [loadSerialYmodem, hopen]
  exact hload

/-- A receiver that has not been used yet. -/
def freshXyz (line : Line) : Xyz where
  line := line
  sent := []
  pkt := fun _ ↦ 0
  bufp := 0
  blk := 0
  cblk := 0
  crc1 := 0
  crc2 := 0
  nextBlk := 0
  len := 0
  mode := .xmodem
  crcMode := false
  atEof := false
  txAck := false
  fileLength := 0
  readLength := 0

/-- The block of a file with a single byte. -/
def byteBlock : List UInt8 := 0x42 :: List.replicate 127 ctrlZ

theorem byteBlock_sized : Sized byteBlock :=
  Or.inl (by rw [byteBlock, List.length_cons, List.length_replicate])

/-- A block as it comes with another checksum. -/
def spoilt (f : Frame) (check : List UInt8) : Frame := { f with check := check }

theorem spoilt_shaped {f : Frame} (hf : f.Shaped true) {a b : UInt8} : (spoilt f [a, b]).Shaped true :=
  ⟨hf.start, hf.data, rfl⟩

theorem byteBlock_spoilt : (spoilt (blockOf true 1 byteBlock) [0, 0]).stat true = .cksum := by
  decide +kernel

/-- A file with a single byte. The receiver waits once in vain, and the block comes damaged at first. -/
def byteSession : Session [0x42] where
  crc := true
  waits := [chars [] ++ none :: (chars [] ++ [none])]
  noise := []
  name := [0x66]
  behind := 0
  info := List.replicate 124 0
  blocks := [byteBlock]
  pad := List.replicate 127 ctrlZ
  rest := [chars ([] ++ (spoilt (blockOf true 1 byteBlock) [0, 0]).text)].flatten ++
    (chars ([] ++ (blockOf true 1 byteBlock).text) ++ ([].flatten ++ some eot :: []))
  waits_fail := .timeout (.silence noise_nil) (.nil _ _)
  retries := by decide
  noise_skipped := noise_nil
  name_ends := by decide
  number_ends := Or.inl rfl
  header_sized := by simp [Sized, decimal]
  blocks_eq := rfl
  fits := ⟨Nat.zero_le _, trivial⟩
  coming := by
    refine .block ?_ (by decide) noise_nil byteBlock_sized (.eot (fun _ hp ↦ absurd hp List.not_mem_nil) (by decide))
    intro p hp
    obtain rfl := List.mem_singleton.mp hp
    exact ⟨.cksum, .damaged noise_nil (spoilt_shaped (blockOf_shaped true 1 byteBlock_sized)) byteBlock_spoilt⟩

theorem load_serial_ymodem_delivers_byte : ∃ s', loadSerialYmodem 0x80500000 (fun _ ↦ 0)
    (freshXyz byteSession.line) = .done 1 (store (fun _ ↦ 0) 0x80500000 [0x42]) s' :=
  load_serial_ymodem_delivers byteSession (List.cons_ne_nil _ _) (by decide) (by decide) rfl _

end UBoot.Common.XyzModemTransfer
