import UBoot.Lib.Align
import UBoot.Lib.NorFlash
import Mathlib.Data.Int.Basic

namespace UBoot.Board.Ar9100Pflash

open Lib.Align

/-- The flash in its window of the memory. -/
abbrev Flash := UInt32 → UInt8

/-- `data = (data << 8) | b`. -/
def shiftIn (data : UInt32) (b : UInt8) : UInt32 := data <<< 8 ||| b.toUInt32

/-- A word of a big-endian machine. -/
def ulongOf (b0 b1 b2 b3 : UInt8) : UInt32 := shiftIn (shiftIn (shiftIn (shiftIn 0 b0) b1) b2) b3

/-- A `CFG_FLASH_WORD_SIZE` of a big-endian machine. -/
def halfOf (b0 b1 : UInt8) : UInt16 := b0.toUInt16 <<< 8 ||| b1.toUInt16

def readUlong (f : Flash) (dest : UInt32) : UInt32 :=
  ulongOf (f dest) (f (dest + 1)) (f (dest + 2)) (f (dest + 3))

def readHalf (f : Flash) (dest : UInt32) : UInt16 := halfOf (f dest) (f (dest + 1))

/-- `data2[i]`. -/
def data2 (data : UInt32) (i : ℕ) : UInt16 := (data >>> (16 - 16 * .ofNat i)).toUInt16

/-- The `FLASH_Program` command with the store that follows it. -/
def program (f : Flash) (dest : UInt32) (v : UInt16) : Flash := fun a ↦
  if a = dest then f a &&& (v >>> 8).toUInt8
  else if a = dest + 1 then f a &&& v.toUInt8
  else f a

/-- `n` turns of the loop of `write_word`. The wait is over when the half word reads back. -/
def programHalves (data : UInt32) : ℕ → ℕ → UInt32 → Flash → ℤ × Flash
  | 0, _, _, f => (0, f)
  | n + 1, i, dest2, f =>
    let f := program f dest2 (data2 data i)
    if readHalf f dest2 = data2 data i then programHalves data n (i + 1) (dest2 + 2) f else (-1, f)

def writeWord (f : Flash) (dest data : UInt32) : ℤ × Flash :=
  if readUlong f dest &&& data ≠ data then (2, f) else programHalves data 2 0 dest f

/-- `n` bytes that the flash holds, from `cp` on. -/
def takeFlash (f : Flash) : ℕ → UInt32 → UInt32 → UInt32
  | 0, _, data => data
  | n + 1, cp, data => takeFlash f n (cp + 1) (shiftIn data (f cp))

/-- Where `src` has got to, and `cnt`. -/
structure Source where
  pos : ℕ
  cnt : ℕ

/-- The loops over `*src++`; `n` is `4 - i`. -/
def takeSrc (src : ℕ → UInt8) : ℕ → Source → UInt32 → ℕ × Source × UInt32
  | 0, s, data => (0, s, data)
  | n + 1, s, data =>
    if 0 < s.cnt then takeSrc src n ⟨s.pos + 1, s.cnt - 1⟩ (shiftIn data (src s.pos))
    else (n + 1, s, data)

structure Job where
  wp : UInt32
  source : Source
  j : Int32
  printed : List Int32
  flash : Flash

/-- The percentage that is printed; `none` is a division by zero. -/
def progress (j count : Int32) : Option Int32 := if count = 0 then none else some (j * 100 / count)

/-- `if(!(j%1024)) printf(...)`. -/
def report (count : Int32) (job : Job) : Option (List Int32) :=
  if job.j % 1024 = 0 then (progress job.j count).map (job.printed ++ [·]) else some job.printed

/-- Unaligned start bytes, `l` of the word being in front of them. -/
def writeHead (src : ℕ → UInt8) (l : ℕ) (job : Job) : ℤ × Job :=
  let (n, source, data) := takeSrc src (4 - l) job.source (takeFlash job.flash l job.wp 0)
  let data := if source.cnt = 0 then takeFlash job.flash n (job.wp + (4 - .ofNat n)) data else data
  let (rc, flash) := writeWord job.flash job.wp data
  if rc ≠ 0 then (rc, { job with source, flash })
  else (0, { job with wp := job.wp + 4, source, j := job.j + 4, flash })

/-- `n` words of the aligned part. -/
def writeWords (src : ℕ → UInt8) (count : Int32) : ℕ → Job → Option (ℤ × Job)
  | 0, job => some (0, job)
  | n + 1, job => do
    let (_, source, data) := takeSrc src 4 job.source 0
    let printed ← report count job
    let (rc, flash) := writeWord job.flash job.wp data
    if rc ≠ 0 then some (rc, { job with printed, flash })
    else
      let source := { source with cnt := job.source.cnt - 4 }
      writeWords src count n ⟨job.wp + 4, source, job.j + 4, printed, flash⟩

/-- Unaligned tail bytes. -/
def writeTail (src : ℕ → UInt8) (job : Job) : ℤ × Job :=
  let (n, source, data) := takeSrc src 4 job.source 0
  let data := takeFlash job.flash n (job.wp + (4 - .ofNat n)) data
  let (rc, flash) := writeWord job.flash job.wp data
  (rc, { job with source, flash })

def writeBuff (f : Flash) (src : ℕ → UInt8) (addr cnt : UInt32) : Option (ℤ × Job) := do
  let wp := addr &&& ~~~3
  let count := cnt.toInt32
  let job : Job := ⟨wp, ⟨0, cnt.toNat⟩, 0, [], f⟩
  let (rc, job) := if addr - wp ≠ 0 then writeHead src (addr - wp).toNat job else (0, job)
  if rc ≠ 0 then some (rc, job)
  else do
    let (rc, job) ← writeWords src count (job.source.cnt / 4) job
    if rc ≠ 0 then some (rc, job)
    else do
      let percent ← progress (job.j + 4) count
      let job := { job with printed := job.printed ++ [percent] }
      if job.source.cnt = 0 then some (0, job) else some (writeTail src job)

section Words

variable (b0 b1 b2 b3 : UInt8)

theorem ulongOf_and (a0 a1 a2 a3 : UInt8) : ulongOf a0 a1 a2 a3 &&& ulongOf b0 b1 b2 b3 =
    ulongOf (a0 &&& b0) (a1 &&& b1) (a2 &&& b2) (a3 &&& b3) := by
  apply UInt32.eq_of_toBitVec_eq
  ext i hi
  simp [ulongOf, shiftIn]
  grind

theorem data2_zero : data2 (ulongOf b0 b1 b2 b3) 0 = halfOf b0 b1 := by
  apply UInt16.eq_of_toBitVec_eq
  ext i hi
  simp [data2, ulongOf, shiftIn, halfOf]
  grind

theorem data2_one : data2 (ulongOf b0 b1 b2 b3) 1 = halfOf b2 b3 := by
  apply UInt16.eq_of_toBitVec_eq
  ext i hi
  simp [data2, ulongOf, shiftIn, halfOf]
  grind

theorem halfOf_high : (halfOf b0 b1 >>> 8).toUInt8 = b0 := by
  apply UInt8.eq_of_toBitVec_eq
  ext i hi
  simp [halfOf]
  grind

theorem halfOf_low : (halfOf b0 b1).toUInt8 = b1 := by
  apply UInt8.eq_of_toBitVec_eq
  ext i hi
  simp [halfOf]

end Words

section Word

variable {f : Flash} {dest : UInt32} {b : ℕ → UInt8}

/-- The four bytes at `dest` become `b`. -/
def put (f : Flash) (dest : UInt32) (n : ℕ) (b : ℕ → UInt8) : Flash := fun a ↦
  if (a - dest).toNat < n then b (a - dest).toNat else f a

theorem put_append (m n : ℕ) (hlt : m + n < 4294967296) :
    put (put f dest m b) (dest + .ofNat m) n (fun k ↦ b (m + k)) = put f dest (m + n) b := by
  funext a
  have hsub : (a - (dest + .ofNat m)).toNat =
      ((a - dest).toNat + (4294967296 - m)) % 4294967296 := by
    have hm : (UInt32.ofNat m).toNat = m :=
      UInt32.toNat_ofNat_of_lt' (by change m < 4294967296; omega)
    have ha := a.toNat_lt
    have hdest := dest.toNat_lt
    rw [UInt32.toNat_sub, UInt32.toNat_sub, UInt32.toNat_add, hm]
    omega
  have hlt' := (a - dest).toNat_lt
  simp only [put, hsub]
  by_cases hm : (a - dest).toNat < m
  · rw [if_neg (by omega), if_pos hm, if_pos (by omega)]
  · by_cases hn : (a - dest).toNat < m + n
    · rw [if_pos (by omega), if_pos hn]
      congr 1
      omega
    · rw [if_neg (by omega), if_neg hm, if_neg hn]

theorem program_put (h0 : f dest &&& b 0 = b 0) (h1 : f (dest + 1) &&& b 1 = b 1) :
    program f dest (halfOf (b 0) (b 1)) = put f dest 2 b := by
  funext a
  rw [program, halfOf_high, halfOf_low, put]
  by_cases ha : a = dest
  · have hzero : (a - dest).toNat = 0 := by simp [ha]
    rw [if_pos ha, hzero, if_pos (by decide), ha, h0]
  · by_cases ha' : a = dest + 1
    · have hone : (a - dest).toNat = 1 := by
        rw [ha', UInt32.add_comm, UInt32.add_sub_cancel]
        rfl
      rw [if_neg ha, if_pos ha', hone, if_pos (by decide), ha', h1]
    · have hge : ¬ (a - dest).toNat < 2 := by
        have h2 : (dest + 1).toNat = (dest.toNat + 1) % 4294967296 := UInt32.toNat_add _ _
        rw [← UInt32.toNat_inj] at ha ha'
        have hlt := a.toNat_lt
        have hlt' := dest.toNat_lt
        rw [UInt32.toNat_sub]
        omega
      rw [if_neg ha, if_neg ha', if_neg hge]

theorem readHalf_put : readHalf (put f dest 2 b) dest = halfOf (b 0) (b 1) := by
  have hone : (dest + 1 - dest).toNat = 1 := by
    rw [UInt32.add_comm, UInt32.add_sub_cancel]
    rfl
  rw [readHalf, put, put, hone, UInt32.sub_self]
  rfl

/-- A word that only clears bits is programmed. -/
theorem writeWord_put (h : ∀ k < 4, f (dest + .ofNat k) &&& b k = b k) :
    writeWord f dest (ulongOf (b 0) (b 1) (b 2) (b 3)) = (0, put f dest 4 b) := by
  have h0 : f dest &&& b 0 = b 0 := by simpa using h 0
  have h1 : f (dest + 1) &&& b 1 = b 1 := h 1 (by decide)
  have h2 : f (dest + 2) &&& b 2 = b 2 := h 2 (by decide)
  have h3 : f (dest + 3) &&& b 3 = b 3 := h 3 (by decide)
  have hfirst : program f dest (halfOf (b 0) (b 1)) = put f dest 2 b := program_put h0 h1
  have hsecond : program (put f dest 2 b) (dest + 2) (halfOf (b 2) (b 3)) =
      put (put f dest 2 b) (dest + 2) 2 (fun k ↦ b (2 + k)) := by
    have h2' : program f dest (halfOf (b 0) (b 1)) (dest + 2) &&& b 2 = b 2 := by
      rwa [program, if_neg (by grind), if_neg (by grind)]
    have h3' : program f dest (halfOf (b 0) (b 1)) (dest + 2 + 1) &&& b 3 = b 3 := by
      have hadd : dest + 2 + 1 = dest + 3 := by grind
      rwa [hadd, program, if_neg (by grind), if_neg (by grind)]
    rw [hfirst] at h2' h3'
    exact program_put (b := fun k ↦ b (2 + k)) h2' h3'
  rw [writeWord, readUlong, ulongOf_and, h0, h1, h2, h3, if_neg (by simp), programHalves,
    data2_zero, hfirst]
  rw [if_pos readHalf_put, programHalves, data2_one, hsecond]
  have hread : readHalf (put (put f dest 2 b) (dest + 2) 2 fun k ↦ b (2 + k)) (dest + 2) =
      halfOf (b 2) (b 3) := readHalf_put
  rw [if_pos hread, programHalves]
  exact congrArg (Prod.mk 0) (put_append 2 2 (by decide))

end Word

section Assembly

variable (f : Flash) (src : ℕ → UInt8)

theorem takeFlash_eq (n : ℕ) (cp data : UInt32) :
    takeFlash f n cp data = ((List.range n).map fun k ↦ f (cp + .ofNat k)).foldl shiftIn data := by
  induction n generalizing cp data with
  | zero => rfl
  | succ n ih =>
    have hcp (k : ℕ) : cp + 1 + .ofNat k = cp + .ofNat (k + 1) := by
      rw [UInt32.ofNat_add, UInt32.add_assoc, UInt32.add_comm 1]
      rfl
    have hzero : cp + .ofNat 0 = cp := UInt32.add_zero cp
    rw [takeFlash, ih, List.range_succ_eq_map, List.map_cons, List.foldl_cons, List.map_map, hzero]
    simp only [Function.comp_def, hcp, Nat.succ_eq_add_one]

theorem takeSrc_eq (n pos cnt : ℕ) (data : UInt32) :
    takeSrc src n ⟨pos, cnt⟩ data = (n - min n cnt, ⟨pos + min n cnt, cnt - min n cnt⟩,
      ((List.range (min n cnt)).map fun k ↦ src (pos + k)).foldl shiftIn data) := by
  induction n generalizing pos cnt data with
  | zero => simp [takeSrc]
  | succ n ih =>
    cases cnt with
    | zero => rfl
    | succ cnt =>
      have hpos (k : ℕ) : pos + 1 + k = pos + (k + 1) := by omega
      rw [takeSrc, if_pos (Nat.succ_pos _), Nat.add_sub_cancel, ih, Nat.add_min_add_right,
        List.range_succ_eq_map, List.map_cons, List.foldl_cons, List.map_map]
      simp only [Function.comp_def, hpos, Nat.succ_eq_add_one, Nat.add_zero, Nat.add_sub_add_right]

/-- Byte `k` of a word that takes `m` bytes from `pos` on behind `l` bytes of the flash. -/
def wordByte (wp : UInt32) (l m pos k : ℕ) : UInt8 :=
  if l ≤ k ∧ k < l + m then src (pos + (k - l)) else f (wp + .ofNat k)

/-- The word with these bytes, as it is put together. -/
def wordFrom (wp : UInt32) (l m pos : ℕ) : UInt32 :=
  takeFlash f (4 - l - m) (wp + (4 - .ofNat (4 - l - m)))
    (((List.range m).map fun k ↦ src (pos + k)).foldl shiftIn (takeFlash f l wp 0))

theorem wordFrom_eq (wp : UInt32) {l m : ℕ} (pos : ℕ) (hlm : l + m ≤ 4) :
    wordFrom f src wp l m pos = ulongOf (wordByte f src wp l m pos 0) (wordByte f src wp l m pos 1)
        (wordByte f src wp l m pos 2) (wordByte f src wp l m pos 3) := by
  rw [wordFrom, takeFlash_eq, takeFlash_eq, ← List.foldl_append, ← List.foldl_append]
  have hbytes : ((List.range l).map fun k ↦ f (wp + .ofNat k)) ++
      ((List.range m).map fun k ↦ src (pos + k)) ++
      ((List.range (4 - l - m)).map fun k ↦ f (wp + (4 - .ofNat (4 - l - m)) + .ofNat k)) =
      (List.range 4).map (wordByte f src wp l m pos) := by
    apply List.ext_getElem
    · simp
      omega
    · intro k hk hk'
      have hat (hk : l + m ≤ k) : wp + (4 - .ofNat (4 - l - m)) + .ofNat (k - (l + m)) =
          wp + .ofNat k := by
        rw [UInt32.add_assoc]
        congr 1
        apply UInt32.toNat_inj.mp
        simp only [List.length_map, List.length_range] at hk'
        have hofNat (i : ℕ) (hi : i ≤ 4) : (UInt32.ofNat i).toNat = i :=
          UInt32.toNat_ofNat_of_lt' (by change i < 4294967296; omega)
        rw [UInt32.toNat_add, UInt32.toNat_sub, hofNat _ (by omega), hofNat _ (by omega),
          hofNat k (by omega)]
        have hfour : (4 : UInt32).toNat = 4 := rfl
        rw [hfour]
        omega
      simp only [List.getElem_append, List.getElem_map, List.getElem_range, List.length_append,
        List.length_map, List.length_range, wordByte]
      by_cases hl : k < l
      · rw [dif_pos (by omega), dif_pos hl, if_neg (by omega)]
      · by_cases hm : k < l + m
        · rw [dif_pos hm, dif_neg hl, if_pos (by omega)]
        · rw [dif_neg hm, if_neg (by omega), hat (by omega)]
  rw [List.append_assoc] at hbytes
  rw [hbytes]
  rfl

end Assembly

section Run

variable {f : Flash} {src : ℕ → UInt8} {addr wp : UInt32} {cnt n l m : ℕ}

/-- The bytes to be written are erased. -/
def Erased (f : Flash) (addr : UInt32) (cnt : ℕ) : Prop := ∀ i < cnt, f (addr + .ofNat i) = 0xff

/-- With `n` bytes written, a word at `wp` brings `m` more. -/
theorem writeWord_step (src : ℕ → UInt8) (herased : Erased f addr cnt) (hcnt : cnt < 4294967296)
    (hwp : wp + .ofNat l = addr + .ofNat n) (hlm : l + m ≤ 4) (hnm : n + m ≤ cnt) :
    writeWord (put f addr n src) wp (wordFrom (put f addr n src) src wp l m n) =
      (0, put f addr (n + m) src) := by
  have hofNat (i : ℕ) (hi : i < 4294967296) : (UInt32.ofNat i).toNat = i :=
    UInt32.toNat_ofNat_of_lt' hi
  -- the word starts `l` bytes in front of byte `n` of the range
  have hoff (a : UInt32) :
      (a - addr).toNat = ((a - wp).toNat + (4294967296 + n - l)) % 4294967296 := by
    have hnat := congrArg UInt32.toNat hwp
    have ha := a.toNat_lt
    have haddr := addr.toNat_lt
    have hlt := wp.toNat_lt
    rw [UInt32.toNat_add, UInt32.toNat_add, hofNat l (by omega), hofNat n (by omega)] at hnat
    rw [UInt32.toNat_sub, UInt32.toNat_sub]
    omega
  have hk (k : ℕ) (hk : k < 4) : (wp + .ofNat k - wp).toNat = k := by
    rw [UInt32.add_comm, UInt32.add_sub_cancel, hofNat k (by omega)]
  rw [wordFrom_eq _ _ wp n hlm, writeWord_put]
  · congr 1
    funext a
    have hlt := (a - wp).toNat_lt
    have hback : wp + .ofNat (a - wp).toNat = a := by
      rw [UInt32.ofNat_toNat]
      grind
    have hd := hoff a
    simp only [put, wordByte, hback]
    generalize (a - wp).toNat = e at hd hlt ⊢
    generalize (a - addr).toNat = d at hd ⊢
    by_cases hin : l ≤ e ∧ e < l + m
    · obtain rfl : d = n + (e - l) := by omega
      rw [if_pos (by omega), if_pos hin, if_pos (by omega)]
    · rw [if_neg hin, ite_self]
      by_cases hdn : d < n
      · rw [if_pos hdn, if_pos (by omega)]
      · rw [if_neg hdn, if_neg (by omega)]
  · intro k hk'
    rw [wordByte]
    split_ifs with hin
    · have hat := hoff (wp + .ofNat k)
      rw [hk k hk'] at hat
      have hbyte : put f addr n src (wp + .ofNat k) = 0xff := by
        rw [put, if_neg (by omega)]
        have hmem := herased (n + (k - l)) (by omega)
        rwa [UInt32.ofNat_add, ← UInt32.add_assoc, ← hwp, UInt32.add_assoc, ← UInt32.ofNat_add,
          Nat.add_sub_cancel' hin.1] at hmem
      rw [hbyte, Lib.NorFlash.and_erased]
    · exact UInt8.and_self

/-- `n` bytes are written; the next one goes `l` bytes behind `wp`. -/
structure Holds (f : Flash) (src : ℕ → UInt8) (addr : UInt32) (cnt l n : ℕ) (job : Job) : Prop where
  flash : job.flash = put f addr n src
  source : job.source = ⟨n, cnt - n⟩
  wp : n < cnt → job.wp + .ofNat l = addr + .ofNat n
  le : n ≤ cnt

variable {job : Job}

theorem add_four_eq (h : wp + .ofNat l = addr + .ofNat n) (hlm : l + m = 4) :
    wp + 4 + .ofNat 0 = addr + .ofNat (n + m) := by
  have hfour : (4 : UInt32) = .ofNat l + .ofNat m := by
    rw [← UInt32.ofNat_add, hlm]
    rfl
  rw [UInt32.ofNat_add n, ← UInt32.add_assoc addr, ← h, hfour, ← UInt32.add_assoc]
  exact UInt32.add_zero _

theorem writeHead_holds (h : Holds f src addr cnt l 0 job) (herased : Erased f addr cnt)
    (hcnt : cnt < 4294967296) (hpos : 0 < cnt) (hl : l ≤ 4) :
    ∃ job' m, writeHead src l job = (0, job') ∧ Holds f src addr cnt 0 m job' := by
  obtain ⟨wp, source, j, printed, flash⟩ := job
  obtain ⟨rfl, rfl, hwp, -⟩ := h
  have hwp' : wp + .ofNat l = addr + .ofNat 0 := hwp hpos
  have hmin : min (4 - l) cnt = 4 - l ∨ min (4 - l) cnt = cnt := by omega
  generalize hm : min (4 - l) cnt = m at hmin
  have hstep := writeWord_step src herased hcnt hwp' (m := m) (by omega) (by omega)
  rw [Nat.zero_add] at hstep
  -- a word that ends in front of byte 4 also ends the source
  have hdata : (if cnt - m = 0 then takeFlash (put f addr 0 src) (4 - l - m)
      (wp + (4 - .ofNat (4 - l - m)))
        (((List.range m).map fun k ↦ src (0 + k)).foldl shiftIn
          (takeFlash (put f addr 0 src) l wp 0))
      else ((List.range m).map fun k ↦ src (0 + k)).foldl shiftIn
        (takeFlash (put f addr 0 src) l wp 0)) = wordFrom (put f addr 0 src) src wp l m 0 := by
    split_ifs with hzero
    · rfl
    · have hend : 4 - l - m = 0 := by omega
      rw [wordFrom, hend]
      rfl
  refine ⟨⟨wp + 4, ⟨m, cnt - m⟩, j + 4, printed, put f addr m src⟩, m, ?_, rfl, rfl, fun hlt ↦ ?_,
    by omega⟩
  · rw [writeHead]
    dsimp only
    rw [Nat.sub_zero, takeSrc_eq, hm, Nat.zero_add]
    dsimp only
    rw [hdata, hstep]
    rfl
  · rw [← Nat.zero_add m]
    exact add_four_eq hwp' (by omega)

theorem report_eq_some {count : Int32} (hcount : count ≠ 0) (job : Job) :
    ∃ printed, report count job = some printed := by
  rw [report, progress, if_neg hcount]
  split_ifs
  · exact ⟨_, rfl⟩
  · exact ⟨_, rfl⟩

theorem writeWords_holds {count : Int32} (hcount : count ≠ 0) (turns : ℕ)
    (h : Holds f src addr cnt 0 n job) (herased : Erased f addr cnt) (hcnt : cnt < 4294967296)
    (hturns : n + 4 * turns ≤ cnt) :
    ∃ job', writeWords src count turns job = some (0, job') ∧
      Holds f src addr cnt 0 (n + 4 * turns) job' := by
  induction turns generalizing n job with
  | zero => exact ⟨job, rfl, h⟩
  | succ turns ih =>
    obtain ⟨wp, source, j, printed, flash⟩ := job
    obtain ⟨rfl, rfl, hwp, -⟩ := h
    have hwp' : wp + .ofNat 0 = addr + .ofNat n := hwp (by omega)
    have hmin : min 4 (cnt - n) = 4 := by omega
    have hstep := writeWord_step src herased hcnt hwp' (m := 4) (by omega) (by omega)
    rw [writeWords]
    dsimp only
    rw [takeSrc_eq, hmin]
    have hdata : ((List.range 4).map fun k ↦ src (n + k)).foldl shiftIn 0 =
        wordFrom (put f addr n src) src wp 0 4 n := rfl
    obtain ⟨printed', hprinted⟩ :=
      report_eq_some hcount ⟨wp, ⟨n, cnt - n⟩, j, printed, put f addr n src⟩
    rw [hdata, hprinted]
    dsimp only [Option.bind_eq_bind, Option.bind_some]
    rw [hstep]
    have hsub : cnt - n - 4 = cnt - (n + 4) := by omega
    have hholds : Holds f src addr cnt 0 (n + 4)
        ⟨wp + 4, ⟨n + 4, cnt - n - 4⟩, j + 4, printed', put f addr (n + 4) src⟩ :=
      ⟨rfl, by rw [hsub], fun _ ↦ add_four_eq hwp' rfl, by omega⟩
    have hnext := ih hholds (by omega)
    have hadd : n + 4 + 4 * turns = n + 4 * (turns + 1) := by omega
    rw [hadd] at hnext
    exact hnext

theorem writeTail_holds (h : Holds f src addr cnt 0 n job) (herased : Erased f addr cnt)
    (hcnt : cnt < 4294967296) (hlt : n < cnt) (hle : cnt ≤ n + 4) :
    ∃ job', writeTail src job = (0, job') ∧ job'.flash = put f addr cnt src := by
  obtain ⟨wp, source, j, printed, flash⟩ := job
  obtain ⟨rfl, rfl, hwp, -⟩ := h
  have hmin : min 4 (cnt - n) = cnt - n := by omega
  have hwp' : wp + .ofNat 0 = addr + .ofNat n := hwp hlt
  have hstep := writeWord_step src herased hcnt hwp' (m := cnt - n) (by omega) (by omega)
  rw [writeTail]
  dsimp only
  rw [takeSrc_eq, hmin]
  have hdata : takeFlash (put f addr n src) (4 - (cnt - n)) (wp + (4 - .ofNat (4 - (cnt - n))))
      (((List.range (cnt - n)).map fun k ↦ src (n + k)).foldl shiftIn 0) =
      wordFrom (put f addr n src) src wp 0 (cnt - n) n := rfl
  dsimp only
  rw [hdata, hstep, Nat.add_sub_cancel' (Nat.le_of_lt hlt)]
  exact ⟨_, rfl, rfl⟩

/-- The bytes in front of the first whole word are done, when there are any. -/
theorem head_holds (src : ℕ → UInt8) {cnt : UInt32} (hcnt : 1 ≤ cnt.toNat)
    (herased : Erased f addr cnt.toNat) :
    ∃ job m, (if addr - (addr &&& ~~~3) ≠ 0 then
        writeHead src (addr - (addr &&& ~~~3)).toNat ⟨addr &&& ~~~3, ⟨0, cnt.toNat⟩, 0, [], f⟩
      else (0, ⟨addr &&& ~~~3, ⟨0, cnt.toNat⟩, 0, [], f⟩)) = (0, job) ∧
      Holds f src addr cnt.toNat 0 m job := by
  have hput : f = put f addr 0 src := by
    funext a
    rw [put, if_neg (Nat.not_lt_zero _)]
  have hadd := and_not_add addr 3
  rw [sub_and_not]
  split_ifs with hl
  · have hle : (addr &&& 3).toNat ≤ 4 := by
      rw [UInt32.toNat_and]
      exact Nat.le_trans Nat.and_le_right (by decide)
    refine writeHead_holds ⟨hput, rfl, fun _ ↦ ?_, Nat.zero_le _⟩ herased cnt.toNat_lt hcnt hle
    rw [UInt32.ofNat_toNat, hadd]
    exact (UInt32.add_zero _).symm
  · refine ⟨_, 0, rfl, hput, rfl, fun _ ↦ ?_, Nat.zero_le _⟩
    rw [not_not.mp hl, UInt32.add_zero] at hadd
    rw [hadd]

theorem writeBuff_put (src : ℕ → UInt8) {cnt : UInt32} (hcnt : 1 ≤ cnt.toNat)
    (herased : Erased f addr cnt.toNat) :
    ∃ job, writeBuff f src addr cnt = some (0, job) ∧ job.flash = put f addr cnt.toNat src := by
  obtain ⟨job, m, hhead, hholds⟩ := head_holds src hcnt herased
  have hcount : cnt.toInt32 ≠ 0 := by
    intro hzero
    have hback := congrArg Int32.toUInt32 hzero
    rw [UInt32.toUInt32_toInt32] at hback
    rw [hback] at hcnt
    exact absurd hcnt (by decide)
  have hm := hholds.le
  obtain ⟨job', hwords, hholds'⟩ := writeWords_holds hcount ((cnt.toNat - m) / 4) hholds herased
    cnt.toNat_lt (by omega)
  have hprogress : progress (job'.j + 4) cnt.toInt32 = some ((job'.j + 4) * 100 / cnt.toInt32) := by
    rw [progress, if_neg hcount]
  rw [writeBuff]
  dsimp only
  rw [hhead, if_neg (by simp)]
  rw [hholds.source]
  dsimp only
  rw [hwords]
  dsimp only [Option.bind_eq_bind, Option.bind_some]
  rw [if_neg (by simp), hprogress]
  dsimp only [Option.bind_eq_bind, Option.bind_some]
  rw [hholds'.source]
  dsimp only
  have hn := hholds'.le
  generalize hturns : m + 4 * ((cnt.toNat - m) / 4) = n at hholds' hn ⊢
  split_ifs with hzero
  · obtain rfl : n = cnt.toNat := by omega
    exact ⟨_, rfl, hholds'.flash⟩
  · have hnext : Holds f src addr cnt.toNat 0 n
        { job' with printed := job'.printed ++ [(job'.j + 4) * 100 / cnt.toInt32] } :=
      ⟨hholds'.flash, hholds'.source, hholds'.wp, hn⟩
    obtain ⟨job'', htail, hflash⟩ :=
      writeTail_holds hnext herased cnt.toNat_lt (by omega) (by omega)
    rw [hholds'.source] at htail
    exact ⟨job'', congrArg some htail, hflash⟩

/-- Erased bytes are programmed and all others keep their values. -/
theorem write_buff_programs (f : Flash) (src : ℕ → UInt8) (addr cnt : UInt32)
    (hcnt : 1 ≤ cnt.toNat) (herased : Erased f addr cnt.toNat) :
    ∃ job, writeBuff f src addr cnt = some (0, job) ∧
      (∀ i < cnt.toNat, job.flash (addr + .ofNat i) = src i) ∧
      ∀ a, (∀ i < cnt.toNat, a ≠ addr + .ofNat i) → job.flash a = f a := by
  obtain ⟨job, hjob, hflash⟩ := writeBuff_put src hcnt herased
  refine ⟨job, hjob, fun i hi ↦ ?_, fun a ha ↦ ?_⟩
  · have hlt := cnt.toNat_lt
    have hback : (addr + .ofNat i - addr).toNat = i := by
      rw [UInt32.add_comm, UInt32.add_sub_cancel]
      exact UInt32.toNat_ofNat_of_lt' (Nat.lt_trans hi hlt)
    rw [hflash, put, hback, if_pos hi]
  · have hout : ¬ (a - addr).toNat < cnt.toNat := by
      intro hlt
      apply ha _ hlt
      rw [UInt32.ofNat_toNat]
      grind
    rw [hflash, put, if_neg hout]

/-- Two bytes inside of a word. -/
theorem write_buff_programs_inside :
    ∃ job, writeBuff (fun a ↦ if a = 1 ∨ a = 2 then 0xff else 7) (fun i ↦ .ofNat i) 1 2 =
        some (0, job) ∧
      (∀ i < (2 : UInt32).toNat, job.flash (1 + .ofNat i) = .ofNat i) ∧
      ∀ a, (∀ i < (2 : UInt32).toNat, a ≠ 1 + .ofNat i) →
        job.flash a = if a = 1 ∨ a = 2 then 0xff else 7 :=
  write_buff_programs _ _ 1 2 (by decide) (by unfold Erased; decide)

end Run

end UBoot.Board.Ar9100Pflash
