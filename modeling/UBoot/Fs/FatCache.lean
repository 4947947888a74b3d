import UBoot.Fs.FatContents

namespace UBoot.Fs.FatCache

open Lib.Memory Fat FatContents

/-- A FAT on a device. -/
structure Table where
  dev : Dev
  bs : BootSector
  fatsize : ℕ
  boot : readBootsectandvi dev = some (bs, fatsize)
  end_le : dev.partOffset.toNat + (bs.reserved.toNat +
    if fatsize = 32 then bs.fat32Length.toNat else bs.fatLength.toNat) ≤ 4294967296

namespace Table

variable (t : Table)

/-- The length in sectors. -/
def fatLen : ℕ := if t.fatsize = 32 then t.bs.fat32Length.toNat else t.bs.fatLength.toNat

def fat : Mem := fun k ↦ t.dev.disk (sectorSize * (t.dev.partOffset.toNat + t.bs.reserved.toNat) + k)

def entry (c : ℕ) : ℕ := rawEntry t.fatsize t.fat c

/-- The entry is one of the table. -/
def Has (c : UInt32) : Prop := (c.toNat + 1) * t.fatsize ≤ 8 * sectorSize * t.fatLen

end Table

/-- A call of `get_fatent`, and what its `disk_read` does, which may leave any bytes when it fails. -/
structure Query where
  entry : UInt32
  ok : Bool
  junk : Mem

/-- `fsdata`, and how the reads into `fatbuf` have ended, the last one first. -/
structure Lookup where
  mydata : FsData
  reads : List Bool

section Query

variable (dev : Dev) (s : Lookup) (q : Query)

/-- The part of the FAT with the entry is not the one in the buffer. -/
def misses : Bool :=
  match fatFormat s.mydata.fatsize with
  | none => false
  | some (bufsize, _) => q.entry.toNat / bufsize ≠ s.mydata.fatbufnum

/-- `getFatent` with reads that may fail. -/
def getFatent : ℕ × Lookup :=
  match fatFormat s.mydata.fatsize with
  | none => (0, s)
  | some (bufsize, entryAt) =>
    let mydata := s.mydata
    let bufnum := q.entry.toNat / bufsize
    let offset := q.entry.toNat - bufnum * bufsize
    if bufnum ≠ mydata.fatbufnum then
      let fatlength := mydata.fatlength.toNat * sectorSize
      let startblock := bufnum * fatBufBlocks + mydata.fatSect.toNat
      let getsize := if fatBufBlocks > fatlength then fatlength else fatBufBlocks
      if q.ok then
        let fatbuf := store mydata.fatbuf 0 (diskRead dev startblock getsize)
        (entryAt fatbuf offset,
          ⟨{ mydata with fatbuf := fatbuf, fatbufnum := bufnum }, true :: s.reads⟩)
      else
        let fatbuf := store mydata.fatbuf 0 (bytes q.junk 0 (sectorSize * getsize))
        (0, ⟨{ mydata with fatbuf := fatbuf }, false :: s.reads⟩)
    else (entryAt mydata.fatbuf offset, s)

/-- The queries of a run, each with the data before it. -/
def turns (dev : Dev) : Lookup → List Query → List (Lookup × Query)
  | _, [] => []
  | s, q :: queries => (s, q) :: turns dev (getFatent dev s q).2 queries

end Query

/-- The data that `do_fat_read` makes, with what happens to be in the buffer. -/
def initial (t : Table) (fatbuf : Mem) : Lookup := ⟨doFatRead t.bs t.fatsize fatbuf, []⟩

/-- The entry, or 0 when the query's own read fails. -/
def Answers (t : Table) (s : Lookup) (q : Query) : Prop :=
  (getFatent t.dev s q).1 = if misses s q ∧ ¬ q.ok then 0 else t.entry q.entry.toNat

/-- What is taken from the buffer has been read by the last read. -/
def Served (s : Lookup) (q : Query) : Prop := misses s q = false → s.reads.head? = some true

/-- Behind a read that succeeded the buffer has its part of the FAT. -/
structure Sound (t : Table) (s : Lookup) : Prop where
  fatsize : s.mydata.fatsize = t.fatsize
  fatlength : s.mydata.fatlength.toNat = t.fatLen % 65536
  fatSect : s.mydata.fatSect = t.bs.reserved
  buffer : s.reads.head? = some true →
    ∀ k < fatBufSize, s.mydata.fatbuf k = t.fat (fatBufSize * s.mydata.fatbufnum + k)

/-- Reads that succeed are those of the lookup in `Fat`. -/
theorem getFatent_ok (dev : Dev) (s : Lookup) (c : UInt32) (junk : Mem) :
    (getFatent dev s ⟨c, true, junk⟩).1 = (Fat.getFatent dev s.mydata c.toNat).1 ∧
      (getFatent dev s ⟨c, true, junk⟩).2.mydata = (Fat.getFatent dev s.mydata c.toNat).2 := by
  rw [getFatent, Fat.getFatent]
  cases fatFormat s.mydata.fatsize with
  | none => exact ⟨rfl, rfl⟩
  | some f =>
    simp only [if_true]
    split_ifs <;> exact ⟨rfl, rfl⟩

theorem sound_initial (t : Table) (fatbuf : Mem) : Sound t (initial t fatbuf) := by
  refine ⟨rfl, ?_, rfl, fun h ↦ ?_⟩
  · rw [Table.fatLen, initial, doFatRead]
    dsimp only
    split_ifs
    · rfl
    · exact (Nat.mod_eq_of_lt t.bs.fatLength.toNat_lt).symm
  · cases h

theorem getFatent_spec {t : Table} {s : Lookup} {q : Query} (hs : Sound t s)
    (hlen : t.fatLen % 65536 ≠ 0) (hq : t.Has q.entry) (hserved : Served s q) :
    Answers t s q ∧ Sound t (getFatent t.dev s q).2 := by
  have hcases := fatsize_cases t.boot
  obtain ⟨bufsize, entryAt, hformat, hpos, hbits, hentry⟩ := fatFormat_spec hcases
  have hfatsize : 0 < t.fatsize := by omega
  obtain ⟨c, ok, junk⟩ := q
  have hdiv := Nat.div_add_mod' c.toNat bufsize
  have hmod := Nat.mod_lt c.toNat hpos
  have hoffset : c.toNat - c.toNat / bufsize * bufsize = c.toNat % bufsize := by omega
  have hvalue : ∀ fatbuf : Mem,
      (∀ k < fatBufSize, fatbuf k = t.fat (fatBufSize * (c.toNat / bufsize) + k)) →
        entryAt fatbuf (c.toNat - c.toNat / bufsize * bufsize) = t.entry c.toNat := by
    intro fatbuf hbuf
    rw [hoffset, hentry fatbuf t.fat (c.toNat / bufsize) _ hbuf hmod, hdiv]
    rfl
  rw [Answers]
  rw [Served] at hserved
  unfold getFatent misses at *
  rw [hs.fatsize, hformat] at *
  dsimp only at *
  by_cases hnum : c.toNat / bufsize = s.mydata.fatbufnum
  · have hread := hserved (by simp [hnum])
    rw [if_neg (not_not.mpr hnum)]
    refine ⟨?_, hs⟩
    rw [if_neg (by simp [hnum])]
    apply hvalue
    rw [hnum]
    exact hs.buffer hread
  · rw [if_pos hnum]
    cases ok with
    | false =>
      refine ⟨by simp [hnum], hs.fatsize, hs.fatlength, hs.fatSect, fun h ↦ ?_⟩
      cases h
    | true =>
      have hgetsize : (if fatBufBlocks > s.mydata.fatlength.toNat * sectorSize then
          s.mydata.fatlength.toNat * sectorSize else fatBufBlocks) = fatBufBlocks := by
        have hsector : sectorSize = 512 := rfl
        have hblocks : fatBufBlocks = 6 := rfl
        rw [hs.fatlength, hblocks, hsector, if_neg (by omega)]
      have hread : diskRead t.dev (c.toNat / bufsize * fatBufBlocks + s.mydata.fatSect.toNat)
          fatBufBlocks = bytes t.fat (fatBufSize * (c.toNat / bufsize)) fatBufSize := by
        rw [hs.fatSect]
        exact diskRead_window hfatsize hbits hq t.end_le
      have hbuf := store_bytes s.mydata.fatbuf t.fat (fatBufSize * (c.toNat / bufsize)) fatBufSize
      rw [hgetsize, hread]
      simp only [if_true, not_true_eq_false, and_false, if_false]
      refine ⟨hvalue _ hbuf, hs.fatsize, hs.fatlength, hs.fatSect, fun _ ↦ ?_⟩
      dsimp only
      exact hbuf

theorem turns_answer {t : Table} {s : Lookup} {queries : List Query} (hs : Sound t s)
    (hlen : t.fatLen % 65536 ≠ 0) (hqueries : ∀ q ∈ queries, t.Has q.entry)
    (hserved : ∀ turn ∈ turns t.dev s queries, Served turn.1 turn.2) :
    ∀ turn ∈ turns t.dev s queries, Answers t turn.1 turn.2 := by
  induction queries generalizing s with
  | nil => exact List.forall_mem_nil _
  | cons q queries ih =>
    obtain ⟨hq, hqueries⟩ := List.forall_mem_cons.mp hqueries
    obtain ⟨hserved, hrest⟩ := List.forall_mem_cons.mp hserved
    obtain ⟨hanswer, hs'⟩ := getFatent_spec hs hlen hq hserved
    exact List.forall_mem_cons.mpr ⟨hanswer, ih hs' hqueries hrest⟩

/-- Where no entry is taken from the buffer after a failed read, the queries are answered. -/
theorem get_fatent_answers (t : Table) (fatbuf : Mem) (queries : List Query)
    (hqueries : ∀ q ∈ queries, t.Has q.entry) (hlen : t.fatLen % 65536 ≠ 0)
    (hserved : ∀ turn ∈ turns t.dev (initial t fatbuf) queries, Served turn.1 turn.2) :
    ∀ turn ∈ turns t.dev (initial t fatbuf) queries, Answers t turn.1 turn.2 :=
  turns_answer (sound_initial t fatbuf) hlen hqueries hserved

/-- A FAT16 in which the entry of cluster 2 is 3. -/
def fat16Table : Table := ⟨⟨fat16Disk false, 0⟩, fat16Boot, 16, fat16Disk_boot false, by decide⟩

def query (c : UInt32) (ok : Bool) : Query := ⟨c, ok, fun _ ↦ 0⟩

theorem get_fatent_answers_two :
    (∀ q ∈ [query 2 true, query 2000 false, query 2000 true], fat16Table.Has q.entry) ∧
      ∀ turn ∈ turns fat16Table.dev (initial fat16Table fun _ ↦ 0)
        [query 2 true, query 2000 false, query 2000 true], Answers fat16Table turn.1 turn.2 := by
  have hqueries : ∀ q ∈ [query 2 true, query 2000 false, query 2000 true],
      fat16Table.Has q.entry := by
    simp only [List.forall_mem_cons, Table.Has]
    refine ⟨?_, ?_, ?_, List.forall_mem_nil _⟩ <;> decide
  refine ⟨hqueries, get_fatent_answers fat16Table _ _ hqueries (by decide) ?_⟩
  simp only [turns, List.forall_mem_cons, Served]
  refine ⟨?_, ?_, ?_, List.forall_mem_nil _⟩ <;> decide +kernel

/-- Entry 2 is 3, but behind a failed read of another part of the FAT it is 0. -/
theorem get_fatent_poisoned :
    (∀ q ∈ [query 2 true, query 2000 false, query 2 true], fat16Table.Has q.entry) ∧
      ¬ ∀ turn ∈ turns fat16Table.dev (initial fat16Table fun _ ↦ 0)
        [query 2 true, query 2000 false, query 2 true], Answers fat16Table turn.1 turn.2 := by
  refine ⟨?_, fun h ↦ ?_⟩
  · simp only [List.forall_mem_cons, Table.Has]
    refine ⟨?_, ?_, ?_, List.forall_mem_nil _⟩ <;> decide
  · simp only [turns, List.forall_mem_cons, Answers] at h
    exact absurd h.2.2.1 (by decide +kernel)

end UBoot.Fs.FatCache
