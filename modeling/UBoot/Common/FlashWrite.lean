import UBoot.Include.Flash

namespace UBoot.Common.FlashWrite

open Include.Flash

def errOk : ℤ := 0

/-- `ERR_PROTECTED`. -/
def errProtected : ℤ := 4

/-- `ERR_INVAL`. -/
def errInval : ℤ := 8

/-- The number of the bank. -/
def addr2info (table : List FlashInfo) (addr : ℕ) : Option ℕ :=
  table.findIdx? fun info ↦ info.flashId ≠ flashUnknown ∧ info.start 0 ≤ addr ∧
    addr ≤ (info.start 0 + info.size + 4294967295) % 4294967296

/-- `info->start[0] + info->size`. -/
def bEnd (info : FlashInfo) : ℕ := info.stop % 4294967296

def eAddr (info : FlashInfo) (i : ℕ) : ℕ := if i = info.sEnd then bEnd info else info.start (i + 1)

/-- The test of the first loop for sector `i`. -/
def Hits (addr last : ℕ) (info : FlashInfo) (i : ℕ) : Prop :=
  info.start i ≤ last ∧ addr < eAddr info i ∧ info.protect i ≠ 0

instance (addr last : ℕ) (info : FlashInfo) (i : ℕ) : Decidable (Hits addr last info i) :=
  inferInstanceAs (Decidable (_ ∧ _))

/-- A call of `write_buff`; `src` is the offset of its source. -/
structure Call where
  info : FlashInfo
  src : ℕ
  addr : ℕ
  len : ℕ

/-- What `write_buff` returns may depend on all that it was called for. -/
abbrev WriteBuff := List Call → ℤ

/-- The second loop, over the banks that are left. -/
def writeBanks (writeBuff : WriteBuff) :
    List FlashInfo → ℕ → ℕ → ℕ → List Call → ℤ × List Call
  | [], _, _, _, calls => (errOk, calls)
  | info :: banks, src, addr, cnt, calls =>
    if 0 < cnt then
      let len := min ((info.stop + (4294967296 - addr)) % 4294967296) cnt
      let calls := calls ++ [⟨info, src, addr, len⟩]
      if writeBuff calls ≠ 0 then (writeBuff calls, calls)
      else writeBanks writeBuff banks (src + len) ((addr + len) % 4294967296) (cnt - len) calls
    else (errOk, calls)

/-- The entries that `info` runs through. -/
def between (table : List FlashInfo) (first last : ℕ) : List FlashInfo :=
  (table.drop first).take (last + 1 - first)

def flashWrite (writeBuff : WriteBuff) (table : List FlashInfo) (addr cnt : ℕ) : ℤ × List Call :=
  let last := (addr + cnt + 4294967295) % 4294967296
  let infoFirst := addr2info table addr
  let infoLast := addr2info table last
  if cnt = 0 then (errOk, [])
  else
    match infoFirst, infoLast with
    | some f, some l =>
      if (between table f l).any fun info ↦
          (List.range info.sectors).any (Hits addr last info ·) then
        (errProtected, [])
      else writeBanks writeBuff (between table f l) 0 addr cnt []
    | _, _ => (errInval, [])

/-- The address of byte `i`. -/
def byteAt (addr i : ℕ) : ℕ := (addr + i) % 4294967296

def InFlash (table : List FlashInfo) (addr cnt : ℕ) : Prop :=
  ∀ i < cnt, ∃ b ∈ table, b.Has (byteAt addr i)

def TouchesProtected (table : List FlashInfo) (addr cnt : ℕ) : Prop :=
  ∃ i < cnt, ∃ b ∈ table, ∃ s, b.SectorHas s (byteAt addr i) ∧ b.protect s ≠ 0

/-- Together the calls write `cnt` bytes, each once and at its place in its bank. -/
structure Programs (addr cnt : ℕ) (calls : List Call) : Prop where
  all : calls.flatMap (fun c ↦ List.range' c.src c.len) = List.range cnt
  place : ∀ c ∈ calls, c.addr = byteAt addr c.src
  bank : ∀ c ∈ calls, ∀ k < c.len, c.info.Has (byteAt c.addr k)

structure Contract (table : List FlashInfo) (addr cnt : ℕ) (r : ℤ × List Call) : Prop where
  ok : r.1 = errOk → cnt = 0 ∨
    InFlash table addr cnt ∧ ¬ TouchesProtected table addr cnt ∧ Programs addr cnt r.2
  guard : InFlash table addr cnt → TouchesProtected table addr cnt → r = (errProtected, [])

/-- The banks hold `cnt` bytes from `addr` on in pieces, in their order. A bank without a piece ends
where the next piece starts. -/
def InOrder : List FlashInfo → ℕ → ℕ → Prop
  | [], _, cnt => cnt = 0
  | b :: banks, addr, cnt => cnt = 0 ∨
      (b.Has addr ∧ InOrder banks (bEnd b) (cnt - (b.stop - addr))) ∨
      (bEnd b = addr ∧ InOrder banks addr cnt)

/-- The test of the first loop stops the write. -/
def Guarded (banks : List FlashInfo) (addr last : ℕ) : Prop :=
  ∃ b ∈ banks, ∃ i < b.sectors, Hits addr last b i

/-- No byte is written, an end is outside of the flash, or the banks in the table from the one with
the first byte to the one with the last byte stop the write or take it in their order. -/
def HoldsWhen (table : List FlashInfo) (addr cnt : ℕ) : Prop :=
  cnt = 0 ∨ (∀ b ∈ table, ¬ b.Has addr) ∨ (∀ b ∈ table, ¬ b.Has (byteAt addr (cnt - 1))) ∨
    ∃ f l, (∃ b ∈ table[f]?, b.Has addr) ∧ (∃ b ∈ table[l]?, b.Has (byteAt addr (cnt - 1))) ∧
      (Guarded (between table f l) addr (byteAt addr (cnt - 1)) ∨
        ¬ TouchesProtected table addr cnt ∧ InOrder (between table f l) addr cnt)

section Lookup

variable (banks : FlashBanks) {a : ℕ}

theorem has_iff {b : FlashInfo} (hb : b ∈ banks.info) (ha : a < 4294967296) :
    (b.flashId ≠ flashUnknown ∧ b.start 0 ≤ a ∧
      a ≤ (b.start 0 + b.size + 4294967295) % 4294967296) ↔ b.Has a := by
  rw [FlashInfo.Has, FlashInfo.stop]
  refine and_congr_right fun hknown ↦ and_congr_right fun hstart ↦ ?_
  have hplaced := banks.placed b hb hknown
  have hpos := hplaced.size_pos
  have hle := hplaced.stop_le
  rw [FlashInfo.stop] at hle
  omega

theorem unique {j k : ℕ} (hj : ∃ b ∈ banks.info[j]?, b.Has a) (hk : ∃ b ∈ banks.info[k]?, b.Has a) :
    j = k := by
  obtain ⟨b, hb, hba⟩ := hj
  obtain ⟨c, hc, hca⟩ := hk
  obtain ⟨hjlt, hb⟩ := List.getElem?_eq_some_iff.mp hb
  obtain ⟨hklt, hc⟩ := List.getElem?_eq_some_iff.mp hc
  have hpair := List.pairwise_iff_getElem.mp banks.disjoint
  rcases Nat.lt_trichotomy j k with hlt | heq | hlt
  · exact absurd (hc ▸ hca) (hpair j k hjlt hklt hlt a (hb ▸ hba))
  · exact heq
  · exact absurd (hb ▸ hba) (hpair k j hklt hjlt hlt a (hc ▸ hca))

theorem addr2info_eq_none (ha : a < 4294967296) :
    addr2info banks.info a = none ↔ ∀ b ∈ banks.info, ¬ b.Has a := by
  rw [addr2info, List.findIdx?_eq_none_iff]
  refine forall₂_congr fun b hb ↦ ?_
  rw [decide_eq_false_iff_not, has_iff banks hb ha]

theorem addr2info_eq_some {j : ℕ} (ha : a < 4294967296) :
    addr2info banks.info a = some j ↔ ∃ b ∈ banks.info[j]?, b.Has a := by
  have hsome (k : ℕ) (hk : addr2info banks.info a = some k) : ∃ b ∈ banks.info[k]?, b.Has a := by
    obtain ⟨hlt, hp, -⟩ := List.findIdx?_eq_some_iff_getElem.mp hk
    refine ⟨banks.info[k], List.getElem?_eq_getElem hlt, ?_⟩
    exact (has_iff banks (List.getElem_mem hlt) ha).mp (of_decide_eq_true hp)
  refine ⟨hsome j, fun h ↦ ?_⟩
  cases hk : addr2info banks.info a with
  | none =>
    obtain ⟨b, hb, hba⟩ := h
    exact absurd hba ((addr2info_eq_none banks ha).mp hk b (List.mem_of_getElem? hb))
  | some k => rw [unique banks (hsome k hk) h]

end Lookup

section Loop

variable {addr cnt : ℕ}

/-- The calls of the second loop. -/
def callsOf : List FlashInfo → ℕ → ℕ → ℕ → List Call
  | [], _, _, _ => []
  | info :: banks, src, addr, cnt =>
    if 0 < cnt then
      let len := min ((info.stop + (4294967296 - addr)) % 4294967296) cnt
      ⟨info, src, addr, len⟩ :: callsOf banks (src + len) ((addr + len) % 4294967296) (cnt - len)
    else []

theorem writeBanks_ok {writeBuff : WriteBuff} {banks : List FlashInfo} {src addr cnt : ℕ}
    {calls : List Call} (h : (writeBanks writeBuff banks src addr cnt calls).1 = errOk) :
    (writeBanks writeBuff banks src addr cnt calls).2 = calls ++ callsOf banks src addr cnt := by
  induction banks generalizing src addr cnt calls with
  | nil => exact (List.append_nil _).symm
  | cons info banks ih =>
    rw [writeBanks] at h ⊢
    rw [callsOf]
    dsimp only at h ⊢
    split_ifs at h ⊢ with hcnt hrc
    · exact absurd h hrc
    · rw [ih h, List.append_assoc]
      rfl
    · exact (List.append_nil _).symm

theorem writeBanks_zero (banks : List FlashInfo) (src addr cnt : ℕ) (calls : List Call) :
    writeBanks (fun _ ↦ 0) banks src addr cnt calls =
      (errOk, calls ++ callsOf banks src addr cnt) := by
  induction banks generalizing src addr cnt calls with
  | nil => rw [writeBanks, callsOf, List.append_nil]
  | cons info banks ih =>
    rw [writeBanks, callsOf]
    dsimp only
    split_ifs with hcnt hrc
    · exact absurd rfl hrc
    · rw [ih, List.append_assoc]
      rfl
    · rw [List.append_nil]

theorem inOrder_zero (banks : List FlashInfo) (a : ℕ) : InOrder banks a 0 := by
  cases banks with
  | nil => rfl
  | cons b banks => exact .inl rfl

theorem byteAt_lt (addr i : ℕ) : byteAt addr i < 4294967296 := Nat.mod_lt _ (by decide)

theorem callsOf_place {banks : List FlashInfo} {src a n : ℕ} (ha : a = byteAt addr src) :
    ∀ c ∈ callsOf banks src a n, c.addr = byteAt addr c.src := by
  induction banks generalizing src a n with
  | nil => simp [callsOf]
  | cons info banks ih =>
    rw [callsOf]
    split_ifs with hn
    · intro c hc
      rcases List.mem_cons.mp hc with rfl | hc
      · exact ha
      · refine ih ?_ c hc
        rw [ha, byteAt, byteAt, Nat.mod_add_mod, Nat.add_assoc]
    · simp

/-- What the calls do is right for the bytes that are left. -/
def Rest (banks : List FlashInfo) (src a n : ℕ) : Prop :=
  (callsOf banks src a n).flatMap (fun c ↦ List.range' c.src c.len) = List.range' src n ∧
    ∀ c ∈ callsOf banks src a n, ∀ k < c.len, c.info.Has (byteAt c.addr k)

theorem rest_cons (b : FlashInfo) (banks : List FlashInfo) (src a : ℕ) {n len : ℕ} (hn : 0 < n)
    (hlen : min ((b.stop + (4294967296 - a)) % 4294967296) n = len) :
    Rest (b :: banks) src a n ↔
      (∀ k < len, b.Has (byteAt a k)) ∧ Rest banks (src + len) (byteAt a len) (n - len) := by
  have hsplit : List.range' src n = List.range' src len ++ List.range' (src + len) (n - len) := by
    rw [List.range'_append_1]
    congr 1
    omega
  rw [Rest, callsOf, if_pos hn, hlen]
  dsimp only
  rw [List.flatMap_cons, hsplit, List.append_cancel_left_eq, List.forall_mem_cons]
  exact and_left_comm

theorem rest_iff {banks : List FlashInfo} (src : ℕ) {a n : ℕ} (ha : a < 4294967296)
    (hplaced : ∀ b ∈ banks, b.flashId ≠ flashUnknown → b.Placed) :
    Rest banks src a n ↔ InOrder banks a n := by
  induction banks generalizing src a n with
  | nil =>
    constructor
    · rintro ⟨hall, -⟩
      exact List.range'_eq_nil_iff.mp hall.symm
    · rintro rfl
      exact ⟨rfl, fun c hc ↦ absurd hc List.not_mem_nil⟩
  | cons b banks ih =>
    obtain ⟨hb, hbanks⟩ := List.forall_mem_cons.mp hplaced
    rcases Nat.eq_zero_or_pos n with rfl | hn
    · refine iff_of_true ?_ (inOrder_zero _ _)
      simp [Rest, callsOf]
    · generalize hlen : min ((b.stop + (4294967296 - a)) % 4294967296) n = len
      rw [rest_cons b banks src a hn hlen, ih _ (byteAt_lt a len) hbanks, InOrder]
      by_cases hhas : b.Has a
      · have hle := (hb hhas.1).stop_le
        have hlt := (hb hhas.1).size_lt
        obtain ⟨hknown, hstart, hstop⟩ := id hhas
        have hsize : b.stop = b.start 0 + b.size := rfl
        have hmin : len = min (b.stop - a) n := by omega
        have hbytes : ∀ k < len, b.Has (byteAt a k) := by
          intro k hk
          have hbyte : byteAt a k = a + k := Nat.mod_eq_of_lt (by omega)
          rw [hbyte]
          exact ⟨hknown, by omega, by omega⟩
        have hend : bEnd b ≠ a := by
          rw [bEnd]
          omega
        -- the bank is left at its end, or all bytes were in it
        have hrest : InOrder banks (byteAt a len) (n - len) ↔
            InOrder banks (bEnd b) (n - (b.stop - a)) := by
          rcases Nat.le_total (b.stop - a) n with hle' | hle'
          · have hat : byteAt a len = bEnd b := by
              rw [byteAt, bEnd]
              congr 1
              omega
            have hlen' : len = b.stop - a := by omega
            rw [hat, hlen']
          · have hzero : n - len = 0 := by omega
            have hzero' : n - (b.stop - a) = 0 := by omega
            rw [hzero, hzero']
            exact iff_of_true (inOrder_zero _ _) (inOrder_zero _ _)
        rw [hrest]
        constructor
        · rintro ⟨-, h⟩
          exact .inr (.inl ⟨hhas, h⟩)
        · rintro (h | ⟨-, h⟩ | ⟨h, -⟩)
          · omega
          · exact ⟨hbytes, h⟩
          · exact absurd h hend
      · by_cases hend : bEnd b = a
        · have hzero : len = 0 := by
            rw [bEnd] at hend
            omega
          have hat : byteAt a 0 = a := Nat.mod_eq_of_lt ha
          rw [hzero, hat, Nat.sub_zero]
          constructor
          · rintro ⟨-, h⟩
            exact .inr (.inr ⟨hend, h⟩)
          · rintro (h | ⟨h, -⟩ | ⟨-, h⟩)
            · omega
            · exact absurd h hhas
            · exact ⟨fun k hk ↦ absurd hk (Nat.not_lt_zero k), h⟩
        · have hpos : 0 < len := by
            rw [bEnd] at hend
            omega
          refine iff_of_false (fun h ↦ hhas ?_) ?_
          · have hfirst := h.1 0 hpos
            rwa [byteAt, Nat.add_zero, Nat.mod_eq_of_lt ha] at hfirst
          · rintro (h | ⟨h, -⟩ | ⟨h, -⟩)
            · omega
            · exact hhas h
            · exact hend h

theorem InOrder.inFlash {banks : List FlashInfo} {a n : ℕ} (h : InOrder banks a n)
    (ha : a < 4294967296) (hplaced : ∀ b ∈ banks, b.flashId ≠ flashUnknown → b.Placed) :
    InFlash banks a n := by
  induction banks generalizing a n with
  | nil =>
    intro i hi
    rw [InOrder] at h
    omega
  | cons b banks ih =>
    obtain ⟨hb, hbanks⟩ := List.forall_mem_cons.mp hplaced
    intro i hi
    rcases h with h | ⟨hhas, h⟩ | ⟨-, h⟩
    · omega
    · obtain ⟨hknown, hstart, hstop⟩ := id hhas
      have hle := (hb hknown).stop_le
      by_cases hin : i < b.stop - a
      · have hat : byteAt a i = a + i := Nat.mod_eq_of_lt (by omega)
        rw [hat]
        exact ⟨b, List.mem_cons_self, hknown, by omega, by omega⟩
      · have hat : byteAt a i = byteAt (bEnd b) (i - (b.stop - a)) := by
          rw [byteAt, byteAt, bEnd, Nat.mod_add_mod]
          congr 1
          omega
        have hlt : i - (b.stop - a) < n - (b.stop - a) := by omega
        obtain ⟨c, hc, hhas'⟩ := ih h (Nat.mod_lt _ (by decide)) hbanks _ hlt
        rw [hat]
        exact ⟨c, List.mem_cons_of_mem _ hc, hhas'⟩
    · obtain ⟨c, hc, hhas⟩ := ih h ha hbanks i hi
      exact ⟨c, List.mem_cons_of_mem _ hc, hhas⟩

theorem callsOf_programs_iff {banks : List FlashInfo} {addr cnt : ℕ} (haddr : addr < 4294967296)
    (hplaced : ∀ b ∈ banks, b.flashId ≠ flashUnknown → b.Placed) :
    Programs addr cnt (callsOf banks 0 addr cnt) ↔ InOrder banks addr cnt := by
  rw [← rest_iff 0 haddr hplaced, Rest, ← List.range_eq_range']
  constructor
  · intro h
    exact ⟨h.all, h.bank⟩
  · rintro ⟨hall, hbank⟩
    exact ⟨hall, callsOf_place (Nat.mod_eq_of_lt haddr).symm, hbank⟩

end Loop

section Contract

variable {banks : FlashBanks} {writeBuff : WriteBuff} {addr cnt f l : ℕ}

theorem mem_between {table : List FlashInfo} {b : FlashInfo} (h : b ∈ between table f l) :
    b ∈ table :=
  List.mem_of_mem_drop (List.mem_of_mem_take h)

theorem any_hits {bs : List FlashInfo} {last : ℕ} :
    (bs.any fun info ↦ (List.range info.sectors).any (Hits addr last info ·)) = true ↔
      Guarded bs addr last := by
  simp [Guarded]

theorem last_eq (hcnt : 0 < cnt) :
    (addr + cnt + 4294967295) % 4294967296 = byteAt addr (cnt - 1) := by
  rw [byteAt]
  omega

theorem flashWrite_zero (writeBuff : WriteBuff) (table : List FlashInfo) (addr : ℕ) :
    flashWrite writeBuff table addr 0 = (errOk, []) := by
  rw [flashWrite]
  exact if_pos rfl

theorem flashWrite_outside (haddr : addr < 4294967296) (hcnt : 0 < cnt)
    (h : (∀ b ∈ banks.info, ¬ b.Has addr) ∨ ∀ b ∈ banks.info, ¬ b.Has (byteAt addr (cnt - 1))) :
    flashWrite writeBuff banks.info addr cnt = (errInval, []) := by
  rw [flashWrite]
  rw [if_neg (by omega), last_eq hcnt]
  rcases h with h | h
  · rw [(addr2info_eq_none banks haddr).mpr h]
  · rw [(addr2info_eq_none banks (byteAt_lt _ _)).mpr h]
    cases addr2info banks.info addr <;> rfl

section Found

variable (haddr : addr < 4294967296) (hcnt : 0 < cnt) (hf : ∃ b ∈ banks.info[f]?, b.Has addr)
  (hl : ∃ b ∈ banks.info[l]?, b.Has (byteAt addr (cnt - 1)))

include haddr hcnt hf hl

theorem flashWrite_guarded (h : Guarded (between banks.info f l) addr (byteAt addr (cnt - 1))) :
    flashWrite writeBuff banks.info addr cnt = (errProtected, []) := by
  rw [flashWrite]
  rw [if_neg (by omega), last_eq hcnt, (addr2info_eq_some banks haddr).mpr hf,
    (addr2info_eq_some banks (byteAt_lt _ _)).mpr hl]
  dsimp only
  rw [if_pos (any_hits.mpr h)]

theorem flashWrite_writes (h : ¬ Guarded (between banks.info f l) addr (byteAt addr (cnt - 1))) :
    flashWrite writeBuff banks.info addr cnt =
      writeBanks writeBuff (between banks.info f l) 0 addr cnt [] := by
  rw [flashWrite]
  rw [if_neg (by omega), last_eq hcnt, (addr2info_eq_some banks haddr).mpr hf,
    (addr2info_eq_some banks (byteAt_lt _ _)).mpr hl]
  dsimp only
  rw [if_neg (fun hany ↦ h (any_hits.mp hany))]

theorem contract_found :
    (∀ writeBuff, Contract banks.info addr cnt (flashWrite writeBuff banks.info addr cnt)) ↔
      Guarded (between banks.info f l) addr (byteAt addr (cnt - 1)) ∨
        ¬ TouchesProtected banks.info addr cnt ∧ InOrder (between banks.info f l) addr cnt := by
  have hplaced : ∀ b ∈ between banks.info f l, b.flashId ≠ flashUnknown → b.Placed :=
    fun b hb ↦ banks.placed b (mem_between hb)
  by_cases hguard : Guarded (between banks.info f l) addr (byteAt addr (cnt - 1))
  · refine iff_of_true (fun writeBuff ↦ ?_) (.inl hguard)
    rw [flashWrite_guarded haddr hcnt hf hl hguard]
    exact ⟨fun h ↦ absurd h (by decide), fun _ _ ↦ rfl⟩
  · constructor
    · intro h
      have hzero := h fun _ ↦ 0
      rw [flashWrite_writes haddr hcnt hf hl hguard, writeBanks_zero] at hzero
      rcases hzero.ok rfl with hnone | ⟨-, hfree, hprograms⟩
      · omega
      · exact .inr ⟨hfree, (callsOf_programs_iff haddr hplaced).mp hprograms⟩
    · rintro (h | ⟨hfree, horder⟩)
      · exact absurd h hguard
      · intro writeBuff
        rw [flashWrite_writes haddr hcnt hf hl hguard]
        refine ⟨fun hok ↦ .inr ⟨?_, hfree, ?_⟩, fun _ h ↦ absurd h hfree⟩
        · intro i hi
          obtain ⟨b, hb, hhas⟩ := horder.inFlash haddr hplaced i hi
          exact ⟨b, mem_between hb, hhas⟩
        · rw [writeBanks_ok hok]
          exact (callsOf_programs_iff haddr hplaced).mpr horder

end Found

theorem exists_bank {table : List FlashInfo} {a : ℕ} (h : ¬ ∀ b ∈ table, ¬ b.Has a) :
    ∃ j : ℕ, ∃ b ∈ table[j]?, b.Has a := by
  push Not at h
  obtain ⟨b, hb, hhas⟩ := h
  obtain ⟨j, hj⟩ := List.mem_iff_getElem?.mp hb
  exact ⟨j, b, hj, hhas⟩

/-- `flash_write` keeps its contract exactly when an end of the range is not in the flash, the first
loop stops it, or nothing is protected and the table has the banks in the order of the range. -/
theorem flash_write_contract_iff (banks : FlashBanks) (addr cnt : UInt32) :
    (∀ writeBuff, Contract banks.info addr.toNat cnt.toNat
        (flashWrite writeBuff banks.info addr.toNat cnt.toNat)) ↔
      HoldsWhen banks.info addr.toNat cnt.toNat := by
  have haddr := addr.toNat_lt
  generalize addr.toNat = addr at haddr ⊢
  generalize cnt.toNat = cnt
  rcases Nat.eq_zero_or_pos cnt with rfl | hcnt
  · refine iff_of_true (fun writeBuff ↦ ?_) (.inl rfl)
    rw [flashWrite_zero]
    refine ⟨fun _ ↦ .inl rfl, ?_⟩
    rintro - ⟨i, hi, -⟩
    exact absurd hi (Nat.not_lt_zero i)
  · by_cases hout : (∀ b ∈ banks.info, ¬ b.Has addr) ∨
        ∀ b ∈ banks.info, ¬ b.Has (byteAt addr (cnt - 1))
    · refine iff_of_true (fun writeBuff ↦ ?_) ?_
      · rw [flashWrite_outside haddr hcnt hout]
        refine ⟨fun h ↦ absurd h (by decide), fun hin ↦ ?_⟩
        obtain ⟨b, hb, hhas⟩ := hin 0 hcnt
        rw [byteAt, Nat.add_zero, Nat.mod_eq_of_lt haddr] at hhas
        obtain ⟨c, hc, hhas'⟩ := hin (cnt - 1) (by omega)
        rcases hout with h | h
        · exact absurd hhas (h b hb)
        · exact absurd hhas' (h c hc)
      · rcases hout with h | h
        · exact .inr (.inl h)
        · exact .inr (.inr (.inl h))
    · rw [not_or] at hout
      obtain ⟨f, hf⟩ := exists_bank hout.1
      obtain ⟨l, hl⟩ := exists_bank hout.2
      rw [contract_found haddr hcnt hf hl]
      constructor
      · intro h
        exact .inr (.inr (.inr ⟨f, l, hf, hl, h⟩))
      · rintro (h | h | h | ⟨f', l', hf', hl', h⟩)
        · omega
        · exact absurd h hout.1
        · exact absurd h hout.2
        · rwa [unique banks hf hf', unique banks hl hl']

end Contract

/-- 16 sectors at the end of the memory, the last one protected. -/
def topBank : FlashInfo where
  size := 0x100000
  sectorCount := 16
  flashId := 1
  start i := 0xfff00000 + 0x10000 * i
  protect i := if i = 15 then 1 else 0

def topBanks : FlashBanks where
  info := [topBank]
  banks_lt := by decide
  placed b hb _ := by
    rw [List.mem_singleton.mp hb]
    exact ⟨by decide, by decide, by decide⟩
  disjoint := List.pairwise_singleton _ _

theorem topBank_has {i : ℕ} (hi : i < 0x100) : topBank.SectorHas 15 (byteAt 0xffff0000 i) := by
  have hat : byteAt 0xffff0000 i = 0xffff0000 + i := Nat.mod_eq_of_lt (by omega)
  have hstop : topBank.sectorStop 15 = 0x100000000 := by decide
  have hstart : topBank.start 15 = 0xffff0000 := by decide
  refine ⟨by decide, by decide, ?_, ?_⟩
  · rw [hat, hstart]
    omega
  · rw [hat, hstop]
    omega

/-- The end of the last sector is 0, and its protection is not seen. -/
theorem flash_write_protection_missed :
    ¬ Contract topBanks.info 0xffff0000 0x100
      (flashWrite (fun _ ↦ 0) topBanks.info 0xffff0000 0x100) := by
  intro h
  have hin : InFlash topBanks.info 0xffff0000 0x100 := by
    intro i hi
    obtain ⟨hknown, -, hstart, hstop⟩ := topBank_has hi
    have hfirst : topBank.start 0 ≤ topBank.start 15 := by decide
    exact ⟨topBank, List.mem_singleton_self _, hknown, hfirst.trans hstart, hstop⟩
  have htouch : TouchesProtected topBanks.info 0xffff0000 0x100 :=
    ⟨0, by decide, topBank, List.mem_singleton_self _, 15, topBank_has (by decide), by decide⟩
  have hrc := congrArg Prod.fst (h.guard hin htouch)
  exact absurd hrc (by decide +kernel)

end UBoot.Common.FlashWrite
