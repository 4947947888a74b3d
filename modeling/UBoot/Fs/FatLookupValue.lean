import UBoot.Fs.FatLookup

namespace UBoot.Fs.FatLookupValue

open Lib.CString (CStr)
open Lib.Memory Lib.Loop Lib.StateValue FatLookup
open Fat hiding diskRead getFatent getCluster getContents

theorem store_again (m : Mem) (off : ℕ) {l l' : List UInt8} (h : l.length = l'.length) :
    store (store m off l) off l' = store m off l' := by
  funext k
  rcases Nat.lt_or_ge k (off + l'.length) with hlt | hge
  · rcases Nat.lt_or_ge k off with hlow | hhigh
    · rw [store_of_lt _ _ hlow, store_of_lt _ _ hlow, store_of_lt _ _ hlow]
    · obtain ⟨i, rfl⟩ := Nat.exists_eq_add_of_le hhigh
      rw [store_add _ (by omega), store_add _ (by omega)]
  · rw [store_of_le _ hge, store_of_le _ (by omega), store_of_le _ hge]

/-- Two memories that differ only where the same bytes are stored. -/
theorem store_congr {m m' : Mem} {l : List UInt8} (h : ∀ k, l.length ≤ k → m k = m' k) :
    store m 0 l = store m' 0 l := by
  funext k
  rcases Nat.lt_or_ge k l.length with hlt | hge
  · have hk := Nat.zero_add k
    rw [← hk, store_add _ hlt, store_add _ hlt]
  · rw [store_of_le _ (by omega), store_of_le _ (by omega), h k hge]

theorem diskRead_length {d : Disk} {startblock getsize : ℕ} {sectors : List UInt8}
    (h : diskRead d startblock getsize = some sectors) : sectors.length = sectorSize * getsize := by
  rw [diskRead] at h
  split_ifs at h with hinside
  cases h
  exact bytes_length _ _ _

theorem fatFormat_pos {fatsize bufsize : ℕ} {entryAt : Mem → ℕ → ℕ}
    (h : fatFormat fatsize = some (bufsize, entryAt)) : 768 ≤ bufsize := by
  unfold fatFormat at h
  split at h <;> cases h <;> decide

section

variable (d : Disk) (mydata : FsData) (s₀ : Buffers)

/-- The sectors of the FAT with a number. -/
def window (bufnum : ℕ) : Option (List UInt8) :=
  let fatlength := mydata.fatlength.toNat * sectorSize
  diskRead d (bufnum * fatBufBlocks + mydata.fatSect.toNat)
    (if fatBufBlocks > fatlength then fatlength else fatBufBlocks)

/-- The value of `get_fatent`. -/
def link (entry : UInt32) : UInt32 :=
  match fatFormat mydata.fatsize with
  | none => 0
  | some (bufsize, entryAt) =>
    match window d mydata (entry.toNat / bufsize) with
    | none => 0
    | some sectors =>
      UInt32.ofNat (entryAt (store s₀.fatbuf 0 sectors) (entry.toNat - entry.toNat / bufsize * bufsize))

/-- The block that `get_vfatname` reads behind a cluster. -/
def nextBlock (curclust : UInt32) : Option Mem :=
  if endsReading (link d mydata s₀ curclust).toNat then none
  else
    (diskRead d (startsect mydata (link d mydata s₀ curclust).toNat) mydata.clustSize.toNat).map
      (store s₀.vfatname 0)

/-- The buffers hold what was in them at the start, or what has been read since. -/
structure Kept (s : Buffers) : Prop where
  cache : s.fatbuf = s₀.fatbuf ∧ s.fatbufnum = 0xffffffff ∨ ∃ sectors,
    window d mydata s.fatbufnum = some sectors ∧ s.fatbuf = store s₀.fatbuf 0 sectors
  vfatname : ∀ k, mydata.bytesperclust ≤ k → s.vfatname k = s₀.vfatname k

variable {d mydata s₀}

theorem window_length {a b : ℕ} {l l' : List UInt8} (ha : window d mydata a = some l)
    (hb : window d mydata b = some l') : l.length = l'.length :=
  (diskRead_length ha).trans (diskRead_length hb).symm

theorem getFatent_spec (entry : UInt32) {s : Buffers} (hs : Kept d mydata s₀ s) :
    ∃ t, getFatent d mydata entry s = .ok (link d mydata s₀ entry, t) ∧ Kept d mydata s₀ t := by
  unfold getFatent link
  cases hformat : fatFormat mydata.fatsize with
  | none => exact ⟨s, rfl, hs⟩
  | some f =>
    obtain ⟨bufsize, entryAt⟩ := f
    dsimp only
    have hpos := fatFormat_pos hformat
    by_cases hnum : entry.toNat / bufsize = s.fatbufnum
    · rw [if_neg (not_not.mpr hnum)]
      refine ⟨s, ?_, hs⟩
      rcases hs.cache with ⟨-, hnone⟩ | ⟨sectors, hwindow, hbuf⟩
      · have hdiv : entry.toNat / bufsize ≤ entry.toNat / 768 := Nat.div_le_div_left hpos (by decide)
        have hlt := entry.toNat_lt
        omega
      · rw [hnum, hwindow, hbuf]
    · rw [if_pos hnum]
      cases hwindow : window d mydata (entry.toNat / bufsize) with
      | none =>
        rw [window] at hwindow
        rw [hwindow]
        exact ⟨s, rfl, hs⟩
      | some sectors =>
        have hstore : store s.fatbuf 0 sectors = store s₀.fatbuf 0 sectors := by
          rcases hs.cache with ⟨hbuf, -⟩ | ⟨old, hold, hbuf⟩
          · rw [hbuf]
          · rw [hbuf, store_again _ _ (window_length hold hwindow)]
        have hread := hwindow
        rw [window] at hread
        rw [hread]
        dsimp only
        rw [← hstore]
        exact ⟨{ s with fatbuf := store s.fatbuf 0 sectors, fatbufnum := entry.toNat / bufsize }, rfl,
          .inr ⟨sectors, hwindow, hstore⟩, hs.vfatname⟩

theorem getCluster_block (clustnum : UInt32) (block : Mem) :
    getCluster d mydata clustnum block 0 mydata.bytesperclust =
      match diskRead d (startsect mydata clustnum.toNat) mydata.clustSize.toNat with
      | none => (false, block)
      | some sectors => (true, store block 0 sectors) := by
  have hdiv : mydata.bytesperclust / sectorSize = mydata.clustSize.toNat :=
    Nat.mul_div_cancel _ (by decide)
  have hmod : mydata.bytesperclust % sectorSize = 0 := Nat.mul_mod_left _ _
  rw [getCluster, hdiv, hmod]
  rfl

theorem getBlock_eq (clustnum : UInt32) (block : Mem) :
    getBlock d mydata clustnum block =
      match diskRead d (startsect mydata clustnum.toNat) mydata.clustSize.toNat with
      | none => .ok none
      | some sectors =>
        if mydata.bytesperclust ≤ maxClustsize then .ok (some (store block 0 sectors))
        else .error .outside := by
  rw [getBlock, getCluster_block]
  cases diskRead d (startsect mydata clustnum.toNat) mydata.clustSize.toNat <;> rfl

theorem Kept.store_vfatname {s : Buffers} (hs : Kept d mydata s₀ s) {startblock : ℕ}
    {sectors : List UInt8} (h : diskRead d startblock mydata.clustSize.toNat = some sectors) :
    store s.vfatname 0 sectors = store s₀.vfatname 0 sectors := by
  apply store_congr
  intro k hk
  apply hs.vfatname
  rwa [diskRead_length h, Nat.mul_comm] at hk

theorem Kept.getBlock_eq {s : Buffers} (hs : Kept d mydata s₀ s) (clustnum : UInt32) :
    getBlock d mydata clustnum s.vfatname = getBlock d mydata clustnum s₀.vfatname := by
  rw [FatLookupValue.getBlock_eq, FatLookupValue.getBlock_eq]
  cases h : diskRead d (startsect mydata clustnum.toNat) mydata.clustSize.toNat with
  | none => rfl
  | some sectors =>
    dsimp only
    rw [hs.store_vfatname h]

theorem Kept.next {s : Buffers} (hs : Kept d mydata s₀ s) {clustnum : UInt32} {block : Mem}
    (h : getBlock d mydata clustnum s.vfatname = .ok (some block)) :
    Kept d mydata s₀ { s with vfatname := block } := by
  refine ⟨hs.cache, fun k hk ↦ ?_⟩
  rw [FatLookupValue.getBlock_eq] at h
  split at h
  · cases h
  · next sectors hread =>
    split_ifs at h
    cases h
    dsimp only
    rw [store_of_le, hs.vfatname k hk]
    rw [diskRead_length hread, Nat.zero_add, Nat.mul_comm]
    exact hk

theorem steady_getFatent (entry : UInt32) : Steady (Kept d mydata s₀) (getFatent d mydata entry) :=
  .of_ok fun _ ↦ getFatent_spec entry

theorem steady_getVfatnameBlock (clustnum : UInt32) :
    Steady (Kept d mydata s₀) (getVfatnameBlock d mydata clustnum) := by
  intro s t hs ht
  unfold getVfatnameBlock
  cases hblock : getBlock d mydata clustnum s₀.vfatname with
  | error e =>
    rw [hs.getBlock_eq, ht.getBlock_eq, hblock]
    exact .error e
  | ok r =>
    cases r with
    | none =>
      rw [hs.getBlock_eq, ht.getBlock_eq, hblock]
      exact .ok none hs ht
    | some block =>
      have hs' := hs.next ((hs.getBlock_eq clustnum).trans hblock)
      have ht' := ht.next ((ht.getBlock_eq clustnum).trans hblock)
      rw [hs.getBlock_eq, ht.getBlock_eq, hblock]
      exact .ok (some block) hs' ht'

theorem steady_getNext (curclust : UInt32) : Steady (Kept d mydata s₀) (getNext d mydata curclust) := by
  refine .bind (steady_getFatent curclust) fun c ↦ ?_
  split_ifs
  · exact .pure none
  · exact steady_getVfatnameBlock c

theorem steady_getVfatname (curclust : UInt32) (cluster : Mem) (i : ℕ) :
    Steady (Kept d mydata s₀) (getVfatname d mydata curclust cluster i) := by
  unfold getVfatname
  split
  · exact .pure none
  · split_ifs
    · refine .bind (steady_getNext curclust) fun r ↦ ?_
      cases r with
      | none => exact .pure none
      | some block => exact .lift _
    · exact .lift _

theorem steady_longName (curclust : UInt32) (block : Mem) (i : ℕ) :
    Steady (Kept d mydata s₀) (longName d mydata curclust block i) :=
  .bind (steady_getVfatname curclust block i) fun _ ↦ .pure _

theorem steady_dirEntry (filename : CStr) (dols : ℤ) (curclust : UInt32) (i : ℕ) (block : Mem) :
    Steady (Kept d mydata s₀) (dirEntry d mydata filename dols curclust i block) := by
  unfold dirEntry
  split_ifs
  · exact .pure _
  · refine .bind (steady_longName curclust block i) fun r ↦ ?_
    exact .pure _
  · refine .bind (steady_longName curclust block i) fun r ↦ ?_
    exact .pure _
  · exact .pure _
  · exact .pure _

theorem steady_rootEntry (filename : CStr) (dols : ℤ) (i : ℕ) (block : Mem) :
    Steady (Kept d mydata s₀) (rootEntry d mydata filename dols i block) := by
  unfold rootEntry
  split_ifs
  · exact .bind (steady_longName 0 block i) fun r ↦ .pure _
  · exact .pure _
  · exact .pure _
  · exact .pure _

theorem steady_scan {body : ℕ → Mem → M Scan} (h : ∀ i block, Steady (Kept d mydata s₀) (body i block))
    (n i : ℕ) (block : Mem) : Steady (Kept d mydata s₀) (scan body n i block) := by
  induction n generalizing i block with
  | zero => exact .pure _
  | succ n ih =>
    refine .bind (h i block) fun r ↦ ?_
    cases r with
    | goOn block => exact ih (i + 1) block
    | ended => exact .pure _
    | found dent => exact .pure _

theorem steady_dirAfter (curclust : UInt32) (r : Scan) :
    Steady (Kept d mydata s₀) (dirAfter d mydata curclust r) := by
  cases r with
  | ended => exact .pure _
  | found dent => exact .pure _
  | goOn block =>
    refine .bind (steady_getFatent curclust) fun c ↦ ?_
    split_ifs <;> exact .pure _

theorem steady_dirRound (filename : CStr) (dols : ℤ) (curclust : UInt32) :
    Steady (Kept d mydata s₀) (dirRound d mydata filename dols curclust) := by
  refine .bind (.lift _) fun r ↦ ?_
  cases r with
  | none => exact .pure _
  | some block =>
    exact .bind (steady_scan (steady_dirEntry filename dols curclust) _ 0 block)
      (steady_dirAfter curclust)

theorem steady_getDentfromdir (filename : CStr) (dols : ℤ) (curclust : UInt32) (n : ℕ) :
    Steady (Kept d mydata s₀) (getDentfromdir d mydata filename dols curclust n) :=
  .loop (steady_dirRound filename dols) n curclust

theorem steady_rootRound (filename : CStr) (dols : ℤ) (p : UInt32 × Mem) :
    Steady (Kept d mydata s₀) (rootRound d mydata filename dols p) := by
  refine .bind (.lift _) fun r ↦ ?_
  cases r with
  | none => exact .pure _
  | some block =>
    exact .bind (steady_scan (steady_rootEntry filename dols) _ 0 block) fun _ ↦ .pure _

theorem steady_lookRound (dols : ℤ) (look : Look) (n : ℕ) :
    Steady (Kept d mydata s₀) (lookRound d mydata dols look n) :=
  .bind (steady_getDentfromdir _ _ _ n) fun _ ↦ .pure _

theorem steady_contentsTurn (r : Contents) (newclust : UInt32) :
    Steady (Kept d mydata s₀) (contentsTurn d mydata r newclust) := by
  unfold contentsTurn
  split_ifs
  · split
    · exact .pure _
    · exact .bind (steady_getFatent r.endclust) fun _ ↦ .pure _
  · exact .pure _

theorem steady_contentsRound (r : Contents) : Steady (Kept d mydata s₀) (contentsRound d mydata r) := by
  unfold contentsRound
  split_ifs
  · exact .bind (steady_getFatent r.endclust) (steady_contentsTurn r)
  · exact .pure _

theorem steady_descend (c : Call) (n : ℕ) (r : Dent ⊕ ℤ) :
    Steady (Kept d mydata s₀) (descend d mydata c n r) := by
  cases r with
  | inl dent =>
    rw [descend]
    split_ifs
    · exact .loop (steady_lookRound c.dolsRoot · n) n _
    · exact .pure _
    · exact .pure _
  | inr ret => exact .pure _

theorem steady_contentsOf (c : Call) (n : ℕ) (r : Dent ⊕ ℤ) :
    Steady (Kept d mydata s₀) (contentsOf d mydata c n r) := by
  cases r with
  | inl dent => exact .loop steady_contentsRound n _
  | inr ret => exact .pure _

end

end UBoot.Fs.FatLookupValue
