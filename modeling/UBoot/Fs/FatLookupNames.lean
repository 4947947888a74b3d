import UBoot.Fs.FatLookupValue

namespace UBoot.Fs.FatLookupNames

open Lib.CString (CStr)
open Lib.Memory Lib.StateValue FatLookup FatLookupValue
open Fat hiding diskRead getFatent getCluster getContents

def slotText (block : Mem) (i : ℕ) : CStr := (slotChars block i).takeWhile (· ≠ 0)

/-- The characters in the slots below a place, down to one with `LAST_LONG_ENTRY_MASK` or a NUL,
when there is one. -/
def ownLength (cluster : Mem) : ℕ → Option ℕ
  | 0 => none
  | k + 1 =>
    if 0 ∈ slotChars cluster k ∨ slotId cluster k &&& 0x40 ≠ 0 then some (slotText cluster k).length
    else (ownLength cluster k).map ((slotText cluster k).length + ·)

/-- The characters in all slots below a place. -/
def nextLength (block : Mem) : ℕ → ℕ
  | 0 => 0
  | k + 1 => (slotText block k).length + nextLength block k

section

variable (d : Disk) (mydata : FsData) (s₀ : Buffers)

/-- The slots of a long name are in their blocks, and have room in `l_name`. -/
def NameFits (curclust : UInt32) (cluster : Mem) (i : ℕ) : Prop :=
  ∀ k, matchSlots cluster (direntsPerClust mydata) (slotId cluster i &&& ~~~0x40).toNat i = some k →
    if direntsPerClust mydata ≤ k then
      ∀ block, nextBlock d mydata s₀ curclust = some block →
        ∃ j m, lastSlot block = some j ∧ j + 1 < maxClustsize / direntSize ∧
          ownLength cluster (k - 1) = some m ∧ nextLength block (j + 1) + m < 256
    else ∃ m, ownLength cluster k = some m ∧ m < 256

end

/-- The entries that a scan comes to from `i` on. -/
def ScanFits (body : ℕ → Mem → Except Stop Scan) (fits : ℕ → Mem → Prop) : ℕ → ℕ → Mem → Prop
  | 0, _, _ => True
  | n + 1, i, block =>
    fits i block ∧
      ∀ block', body i block = .ok (.goOn block') → ScanFits body fits n (i + 1) block'

theorem slot2str_eq {chars l_name : List UInt8} {r : Bool × CStr} (h : slot2str chars l_name = .ok r) :
    r = (decide (0 ∈ chars), l_name ++ chars.takeWhile (· ≠ 0)) := by
  induction chars generalizing l_name with
  | nil =>
    cases h
    simp
  | cons c chars ih =>
    rw [slot2str] at h
    split_ifs at h with hroom hnul
    · cases h
      simp [hnul]
    · rw [ih h]
      simp [hnul, Ne.symm hnul]

theorem slot2str_of_lt {chars l_name : List UInt8}
    (h : l_name.length + (chars.takeWhile (· ≠ 0)).length < 256) :
    slot2str chars l_name = .ok (decide (0 ∈ chars), l_name ++ chars.takeWhile (· ≠ 0)) := by
  induction chars generalizing l_name with
  | nil => simp [slot2str]
  | cons c chars ih =>
    rw [slot2str, if_pos (by omega)]
    by_cases hnul : c = 0
    · rw [if_pos hnul]
      simp [hnul]
    · have htake : (c :: chars).takeWhile (· ≠ 0) = c :: chars.takeWhile (· ≠ 0) :=
        List.takeWhile_cons_of_pos (by simpa using hnul)
      rw [htake, List.length_cons] at h
      rw [if_neg hnul, ih (by rw [List.length_append, List.length_singleton]; omega), htake,
        List.append_assoc, List.singleton_append]
      simp [Ne.symm hnul]

theorem ownSlots_succ {cluster : Mem} {k : ℕ} {l l' : CStr}
    (h : slot2str (slotChars cluster k) l = .ok (decide (0 ∈ slotChars cluster k), l')) :
    ownSlots cluster (k + 1) l =
      if 0 ∈ slotChars cluster k ∨ slotId cluster k &&& 0x40 ≠ 0 then .ok l'
      else ownSlots cluster k l' := by
  rw [ownSlots, h]
  exact if_congr (by rw [decide_eq_true_eq]) rfl rfl

theorem ownSlots_ok {cluster : Mem} {k : ℕ} {l l' : CStr} (h : ownSlots cluster k l = .ok l') :
    ∃ m, ownLength cluster k = some m ∧ l'.length = l.length + m := by
  induction k generalizing l with
  | zero => cases h
  | succ k ih =>
    cases hslot : slot2str (slotChars cluster k) l with
    | error e =>
      rw [ownSlots, hslot] at h
      cases h
    | ok r =>
      have hr := slot2str_eq hslot
      rw [hr, ← slotText] at hslot
      rw [ownSlots_succ hslot] at h
      rw [ownLength]
      split_ifs at h ⊢ with hlast
      · cases h
        exact ⟨_, rfl, List.length_append⟩
      · obtain ⟨m, hm, hlength⟩ := ih h
        refine ⟨(slotText cluster k).length + m, ?_, ?_⟩
        · rw [hm]
          rfl
        · rw [hlength, List.length_append, Nat.add_assoc]

theorem ownSlots_of_lt {cluster : Mem} {k m : ℕ} {l : CStr} (hm : ownLength cluster k = some m)
    (h : l.length + m < 256) : ∃ l', ownSlots cluster k l = .ok l' := by
  induction k generalizing l m with
  | zero => cases hm
  | succ k ih =>
    rw [ownLength] at hm
    have hle : (slotText cluster k).length ≤ m := by
      split_ifs at hm
      · exact (Option.some.inj hm).le
      · obtain ⟨m', -, rfl⟩ := Option.map_eq_some_iff.mp hm
        exact Nat.le_add_right _ _
    have hroom := Nat.lt_of_le_of_lt (Nat.add_le_add_left hle _) h
    rw [slotText] at hroom
    have hslot := slot2str_of_lt hroom
    rw [ownSlots_succ hslot, ← slotText]
    split_ifs at hm ⊢ with hlast
    · exact ⟨_, rfl⟩
    · obtain ⟨m', hm', rfl⟩ := Option.map_eq_some_iff.mp hm
      refine ih hm' ?_
      rw [List.length_append]
      omega

theorem nextSlots_ok {block : Mem} {k : ℕ} {l l' : CStr} (h : nextSlots block k l = .ok l') :
    l'.length = l.length + nextLength block k := by
  induction k generalizing l with
  | zero =>
    cases h
    rfl
  | succ k ih =>
    rw [nextSlots] at h
    cases hslot : slot2str (slotChars block k) l with
    | error e =>
      rw [hslot] at h
      cases h
    | ok r =>
      rw [hslot, slot2str_eq hslot] at h
      rw [ih h, List.length_append, nextLength, slotText]
      omega

theorem nextSlots_of_lt {block : Mem} {k : ℕ} {l : CStr} (h : l.length + nextLength block k < 256) :
    ∃ l', nextSlots block k l = .ok l' := by
  induction k generalizing l with
  | zero => exact ⟨l, rfl⟩
  | succ k ih =>
    rw [nextLength] at h
    rw [nextSlots, slot2str_of_lt (by rw [← slotText]; omega)]
    refine ih ?_
    rw [List.length_append, ← slotText]
    omega

theorem finishName_of_ok {cluster : Mem} {i k : ℕ} {realdent : List UInt8} {l l' : CStr}
    (h : ownSlots cluster k l = .ok l') :
    finishName cluster i k realdent l =
      if l'.length < 256 then .ok (store cluster (direntSize * i) realdent, shown l')
      else .error .outside := by
  rw [finishName, h]
  rfl

theorem finishName_ok_iff {cluster : Mem} {i k : ℕ} {realdent : List UInt8} {l : CStr} :
    (∃ r, finishName cluster i k realdent l = .ok r) ↔
      ∃ m, ownLength cluster k = some m ∧ l.length + m < 256 := by
  constructor
  · rintro ⟨r, h⟩
    cases hown : ownSlots cluster k l with
    | error e =>
      rw [finishName, hown] at h
      cases h
    | ok l' =>
      obtain ⟨m, hm, hlength⟩ := ownSlots_ok hown
      rw [finishName_of_ok hown] at h
      split_ifs at h with hroom
      exact ⟨m, hm, hlength ▸ hroom⟩
  · rintro ⟨m, hm, hlt⟩
    obtain ⟨l', hown⟩ := ownSlots_of_lt hm hlt
    obtain ⟨m', hm', hlength⟩ := ownSlots_ok hown
    cases hm.symm.trans hm'
    rw [finishName_of_ok hown, if_pos (hlength ▸ hlt)]
    exact ⟨_, rfl⟩

theorem splitName_of_ok {cluster block : Mem} {i k j : ℕ} {l : CStr} (hj : lastSlot block = some j)
    (hlt : j + 1 < maxClustsize / direntSize) (h : nextSlots block (j + 1) [] = .ok l) :
    splitName cluster i k block =
      finishName cluster i (k - 1) (bytes block (direntSize * (j + 1)) direntSize) l := by
  unfold splitName
  rw [hj]
  refine (if_pos hlt).trans ?_
  rw [h]
  rfl

theorem exists_lastSlot {cluster block : Mem} {i k : ℕ} {r : Mem × CStr}
    (h : splitName cluster i k block = .ok r) :
    ∃ j l, lastSlot block = some j ∧ j + 1 < maxClustsize / direntSize ∧
      nextSlots block (j + 1) [] = .ok l := by
  unfold splitName at h
  cases hj : lastSlot block with
  | none =>
    rw [hj] at h
    cases h
  | some j =>
    rw [hj] at h
    have hlt : j + 1 < maxClustsize / direntSize := by
      by_contra hlt
      cases (if_neg hlt).symm.trans h
    replace h := (if_pos hlt).symm.trans h
    cases hnext : nextSlots block (j + 1) [] with
    | error e =>
      rw [hnext] at h
      cases h
    | ok l => exact ⟨j, l, rfl, hlt, hnext⟩

theorem splitName_ok_iff {cluster block : Mem} {i k : ℕ} :
    (∃ r, splitName cluster i k block = .ok r) ↔
      ∃ j m, lastSlot block = some j ∧ j + 1 < maxClustsize / direntSize ∧
        ownLength cluster (k - 1) = some m ∧ nextLength block (j + 1) + m < 256 := by
  constructor
  · rintro ⟨r, h⟩
    obtain ⟨j, l, hj, hlt, hnext⟩ := exists_lastSlot h
    rw [splitName_of_ok hj hlt hnext] at h
    obtain ⟨m, hm, hlength⟩ := finishName_ok_iff.mp ⟨r, h⟩
    rw [nextSlots_ok hnext, List.length_nil, Nat.zero_add] at hlength
    exact ⟨j, m, hj, hlt, hm, hlength⟩
  · rintro ⟨j, m, hj, hlt, hm, hlength⟩
    have hroom : ([] : CStr).length + nextLength block (j + 1) < 256 := by
      rw [List.length_nil]
      omega
    obtain ⟨l, hnext⟩ := nextSlots_of_lt hroom
    rw [splitName_of_ok hj hlt hnext]
    refine finishName_ok_iff.mpr ⟨m, hm, ?_⟩
    rwa [nextSlots_ok hnext, List.length_nil, Nat.zero_add]

section

variable {d : Disk} {mydata : FsData} {s₀ : Buffers}

theorem kept_self (h : s₀.fatbufnum = 0xffffffff) : Kept d mydata s₀ s₀ :=
  ⟨.inl ⟨rfl, h⟩, fun _ _ ↦ rfl⟩

theorem value_getFatent (h₀ : Kept d mydata s₀ s₀) (entry : UInt32) :
    value s₀ (getFatent d mydata entry) = .ok (link d mydata s₀ entry) := by
  obtain ⟨t, ht, -⟩ := getFatent_spec entry h₀
  rw [value, ht]
  rfl

theorem value_getNext (h₀ : Kept d mydata s₀ s₀) (hsize : mydata.bytesperclust ≤ maxClustsize)
    (curclust : UInt32) :
    value s₀ (getNext d mydata curclust) = .ok (nextBlock d mydata s₀ curclust) := by
  have hrest : ∀ c : UInt32, Steady (Kept d mydata s₀)
      (if endsReading c.toNat then pure none else getVfatnameBlock d mydata c) := by
    intro c
    split_ifs
    · exact .pure none
    · exact steady_getVfatnameBlock c
  rw [getNext, value_bind h₀ (steady_getFatent curclust) hrest, value_getFatent h₀, nextBlock]
  change value s₀ (if _ then _ else _) = _
  split_ifs
  · rfl
  · rw [value, getVfatnameBlock, getBlock_eq]
    cases diskRead d (startsect mydata (link d mydata s₀ curclust).toNat) mydata.clustSize.toNat with
    | none => rfl
    | some sectors =>
      dsimp only
      rw [if_pos hsize]
      rfl

theorem getVfatname_ok_iff (h₀ : Kept d mydata s₀ s₀) (hsize : mydata.bytesperclust ≤ maxClustsize)
    {curclust : UInt32} {cluster : Mem} {i : ℕ} :
    (∃ r, value s₀ (getVfatname d mydata curclust cluster i) = .ok r) ↔
      NameFits d mydata s₀ curclust cluster i := by
  unfold getVfatname NameFits
  cases matchSlots cluster (direntsPerClust mydata) (slotId cluster i &&& ~~~0x40).toNat i with
  | none => exact iff_of_true ⟨none, rfl⟩ fun k hk ↦ absurd hk.symm (Option.some_ne_none k)
  | some k =>
    simp only [Option.some.injEq, forall_eq']
    split_ifs with hk
    · rw [value_bind h₀ (steady_getNext curclust), value_getNext h₀ hsize]
      · cases nextBlock d mydata s₀ curclust with
        | none =>
          rw [ok_bind]
          exact iff_of_true ⟨none, rfl⟩ fun block hblock ↦
            absurd hblock.symm (Option.some_ne_none block)
        | some block =>
          simp only [ok_bind, Option.some.injEq, forall_eq']
          rw [value_lift, map_ok_iff, splitName_ok_iff]
      · rintro (_ | block)
        · exact .pure none
        · exact .lift _
    · rw [value_lift, map_ok_iff, finishName_ok_iff]
      simp only [List.length_nil, Nat.zero_add]

theorem longName_ok_iff (h₀ : Kept d mydata s₀ s₀) (hsize : mydata.bytesperclust ≤ maxClustsize)
    {α : Type} (f : Mem × CStr → α) {curclust : UInt32} {block : Mem} {i : ℕ} :
    (∃ r, value s₀ (longName d mydata curclust block i >>= fun p ↦ pure (f p)) = .ok r) ↔
      NameFits d mydata s₀ curclust block i := by
  rw [value_bind h₀ (steady_longName curclust block i) fun p ↦ .pure (f p), longName,
    value_bind h₀ (steady_getVfatname curclust block i) fun r ↦ .pure _, bind_ok_iff,
    ← getVfatname_ok_iff h₀ hsize]
  constructor
  · rintro ⟨p, hp, -⟩
    obtain ⟨r, hr, -⟩ := bind_ok_iff.mp ⟨p, hp⟩
    exact ⟨r, hr⟩
  · rintro ⟨r, hr⟩
    exact ⟨r.getD (block, []), by rw [hr]; rfl, _, rfl⟩

theorem dirEntry_ok_iff (h₀ : Kept d mydata s₀ s₀) (hsize : mydata.bytesperclust ≤ maxClustsize)
    {filename : CStr} {dols : ℤ} {curclust : UInt32} {i : ℕ} {block : Mem} :
    (∃ z, value s₀ (dirEntry d mydata filename dols curclust i block) = .ok z) ↔
      (slotId block i ≠ 0xe5 → isVolume block i → isLong block i →
        NameFits d mydata s₀ curclust block i) := by
  unfold dirEntry
  split_ifs with hdeleted hvolume hlong hdols
  · exact ⟨fun _ h ↦ absurd hdeleted h, fun _ ↦ ⟨_, rfl⟩⟩
  · exact (longName_ok_iff h₀ hsize _).trans ⟨fun h _ _ _ ↦ h, fun h ↦ h hdeleted hvolume hlong⟩
  · exact (longName_ok_iff h₀ hsize _).trans ⟨fun h _ _ _ ↦ h, fun h ↦ h hdeleted hvolume hlong⟩
  · exact ⟨fun _ _ _ h ↦ absurd h hlong, fun _ ↦ ⟨_, rfl⟩⟩
  · exact ⟨fun _ _ h ↦ absurd h hvolume, fun _ ↦ ⟨_, rfl⟩⟩

theorem rootEntry_ok_iff (h₀ : Kept d mydata s₀ s₀) (hsize : mydata.bytesperclust ≤ maxClustsize)
    {filename : CStr} {dols : ℤ} {i : ℕ} {block : Mem} :
    (∃ z, value s₀ (rootEntry d mydata filename dols i block) = .ok z) ↔
      (isVolume block i → isLong block i → NameFits d mydata s₀ 0 block i) := by
  unfold rootEntry
  split_ifs with hvolume hlong hend
  · exact (longName_ok_iff h₀ hsize _).trans ⟨fun h _ _ ↦ h, fun h ↦ h hvolume hlong⟩
  · exact ⟨fun _ _ h ↦ absurd h hlong, fun _ ↦ ⟨_, rfl⟩⟩
  · exact ⟨fun _ h ↦ absurd h hvolume, fun _ ↦ ⟨_, rfl⟩⟩
  · exact ⟨fun _ h ↦ absurd h hvolume, fun _ ↦ ⟨_, rfl⟩⟩

theorem scan_ok_iff (h₀ : Kept d mydata s₀ s₀) {body : ℕ → Mem → M Scan} {fits : ℕ → Mem → Prop}
    (hbody : ∀ i block, Steady (Kept d mydata s₀) (body i block))
    (hfits : ∀ i block, (∃ z, value s₀ (body i block) = .ok z) ↔ fits i block) {n i : ℕ} {block : Mem} :
    (∃ z, value s₀ (scan body n i block) = .ok z) ↔
      ScanFits (fun i block ↦ value s₀ (body i block)) fits n i block := by
  induction n generalizing i block with
  | zero => exact ⟨fun _ ↦ trivial, fun _ ↦ ⟨_, rfl⟩⟩
  | succ n ih =>
    rw [scan, value_bind h₀ (hbody i block), bind_ok_iff, ScanFits, ← hfits]
    · constructor
      · rintro ⟨r, hr, hrest⟩
        refine ⟨⟨r, hr⟩, fun block' hgoes ↦ ?_⟩
        cases hr.symm.trans hgoes
        exact ih.mp hrest
      · rintro ⟨⟨r, hr⟩, hrest⟩
        refine ⟨r, hr, ?_⟩
        cases r with
        | goOn block' => exact ih.mpr (hrest block' hr)
        | ended => exact ⟨_, rfl⟩
        | found dent => exact ⟨_, rfl⟩
    · rintro (block' | _ | dent)
      · exact steady_scan hbody n (i + 1) block'
      · exact .pure _
      · exact .pure _

end

section

variable (d : Disk) (mydata : FsData) (s₀ : Buffers)

/-- The long names in a cluster, up to an entry that ends the search. -/
def DirFits (filename : CStr) (dols : ℤ) (curclust : UInt32) : Prop :=
  ∀ block, getBlock d mydata curclust (fun _ ↦ 0) = .ok (some block) →
    ScanFits (fun i block ↦ value s₀ (dirEntry d mydata filename dols curclust i block))
      (fun i block ↦ slotId block i ≠ 0xe5 → isVolume block i → isLong block i →
        NameFits d mydata s₀ curclust block i) (direntsPerClust mydata) 0 block

/-- The long names in the first block of the sectors of the root directory. -/
def RootFits (filename : CStr) (dols : ℤ) (p : UInt32 × Mem) : Prop :=
  ∀ block, readRoot d mydata p.1 p.2 = .ok (some block) →
    ScanFits (fun i block ↦ value s₀ (rootEntry d mydata filename dols i block))
      (fun i block ↦ isVolume block i → isLong block i → NameFits d mydata s₀ 0 block i)
      direntsPerBlock 0 block

variable {d mydata s₀}

theorem dirAfter_ok (h₀ : Kept d mydata s₀ s₀) (curclust : UInt32) (r : Scan) :
    ∃ z, value s₀ (dirAfter d mydata curclust r) = .ok z := by
  cases r with
  | ended => exact ⟨_, rfl⟩
  | found dent => exact ⟨_, rfl⟩
  | goOn block =>
    rw [dirAfter, value_bind h₀ (steady_getFatent curclust), value_getFatent h₀]
    · change ∃ z, value s₀ (if endsReading (link d mydata s₀ curclust).toNat then _ else _) = _
      split_ifs <;> exact ⟨_, rfl⟩
    · intro c
      split_ifs <;> exact .pure _

theorem dirRound_ok_iff (h₀ : Kept d mydata s₀ s₀) (hsize : mydata.bytesperclust ≤ maxClustsize)
    {filename : CStr} {dols : ℤ} {curclust : UInt32} :
    (∃ z, value s₀ (dirRound d mydata filename dols curclust) = .ok z) ↔
      DirFits d mydata s₀ filename dols curclust := by
  rw [dirRound, value_lift_bind, DirFits, getBlock_eq]
  cases diskRead d (startsect mydata curclust.toNat) mydata.clustSize.toNat with
  | none => exact ⟨nofun, fun _ ↦ ⟨_, rfl⟩⟩
  | some sectors =>
    dsimp only
    rw [if_pos hsize]
    simp only [Except.ok.injEq, Option.some.injEq, forall_eq']
    rw [← scan_ok_iff h₀ (steady_dirEntry filename dols curclust)
      (fun i block ↦ dirEntry_ok_iff h₀ hsize)]
    change (∃ z, value s₀ (scan _ _ 0 _ >>= dirAfter d mydata curclust) = .ok z) ↔ _
    rw [value_bind h₀ (steady_scan (steady_dirEntry filename dols curclust) _ 0 _)
      (steady_dirAfter curclust), bind_ok_iff]
    exact ⟨fun ⟨r, hr, _⟩ ↦ ⟨r, hr⟩, fun ⟨r, hr⟩ ↦ ⟨r, hr, dirAfter_ok h₀ curclust r⟩⟩

theorem rootRound_ok_iff (h₀ : Kept d mydata s₀ s₀) (hsize : mydata.bytesperclust ≤ maxClustsize)
    {filename : CStr} {dols : ℤ} {p : UInt32 × Mem} :
    (∃ z, value s₀ (rootRound d mydata filename dols p) = .ok z) ↔
      RootFits d mydata s₀ filename dols p := by
  rw [rootRound, value_lift_bind, RootFits, readRoot]
  cases diskRead d p.1.toNat mydata.clustSize.toNat with
  | none => exact ⟨nofun, fun _ ↦ ⟨_, rfl⟩⟩
  | some sectors =>
    dsimp only
    rw [if_pos hsize]
    simp only [Except.ok.injEq, Option.some.injEq, forall_eq']
    rw [← scan_ok_iff h₀ (steady_rootEntry filename dols)
      (fun i block ↦ rootEntry_ok_iff h₀ hsize)]
    change (∃ z, value s₀ (scan _ _ 0 _ >>= fun r ↦ pure (rootAfter dols p.1 r)) = .ok z) ↔ _
    rw [value_bind h₀ (steady_scan (steady_rootEntry filename dols) _ 0 _) fun r ↦ .pure _, bind_ok_iff]
    exact ⟨fun ⟨r, hr, _⟩ ↦ ⟨r, hr⟩, fun ⟨r, hr⟩ ↦ ⟨r, hr, _, rfl⟩⟩

end

end UBoot.Fs.FatLookupNames
