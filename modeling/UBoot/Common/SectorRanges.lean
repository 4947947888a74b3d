import UBoot.Include.Flash

namespace UBoot.Common.SectorRanges

open Include.Flash

/-- `b_end`, the last address of the bank. -/
def bEnd (info : FlashInfo) : ℕ := (info.start 0 + info.size + 4294967295) % 4294967296

/-- `end`, the last address of the sector. -/
def sectEnd (info : FlashInfo) (sect : ℕ) : ℕ :=
  if sect = info.sEnd then bEnd info else (info.start (sect + 1) + 4294967295) % 4294967296

/-- A turn of the loop over the sectors, with `s_first[bank]` and `s_last[bank]`. -/
def scanStep (info : FlashInfo) (addrFirst addrLast : ℕ) (s : ℤ × ℤ) (sect : ℕ) : ℤ × ℤ :=
  if sectEnd info sect < addrFirst then s
  else if addrLast < info.start sect then s
  else (if addrFirst = info.start sect then sect else s.1,
    if addrLast = sectEnd info sect then sect else s.2)

def scan (info : FlashInfo) (addrFirst addrLast : ℕ) : ℤ × ℤ :=
  (List.range info.sectors).foldl (scanStep info addrFirst addrLast) (-1, -1)

structure Ranges where
  rcode : ℤ
  /-- `s_first` and `s_last`. -/
  sel : List (ℤ × ℤ)
  count : ℤ

def Ranges.cons (s : ℤ × ℤ) (r : Ranges) : Ranges := { r with sel := s :: r.sel }

def unused (banks : List FlashInfo) : List (ℤ × ℤ) := banks.map fun _ ↦ (-1, -1)

/-- The loop over the banks that are left. -/
def fillBanks (addrLast : ℕ) : List FlashInfo → ℕ → ℤ → Ranges
  | [], _, count => ⟨0, [], count⟩
  | info :: banks, addrFirst, count =>
    if addrLast < addrFirst then ⟨0, unused (info :: banks), count⟩
    else if info.flashId = flashUnknown then
      (fillBanks addrLast banks addrFirst count).cons (-1, -1)
    else
      let s := scan info addrFirst addrLast
      if 0 ≤ s.1 then
        if s.2 < 0 ∧ ¬ bEnd info < addrLast then ⟨1, s :: unused banks, count⟩
        else
          let last := if s.2 < 0 then info.sEnd else s.2
          if last < s.1 then ⟨1, (s.1, last) :: unused banks, count⟩
          else
            let next :=
              if last = info.sEnd then (bEnd info + 1) % 4294967296
              else info.start (last.toNat + 1)
            (fillBanks addrLast banks next (count + (last - s.1 + 1))).cons (s.1, last)
      else if info.start 0 ≤ addrFirst ∧ addrFirst < bEnd info then ⟨1, s :: unused banks, count⟩
      else if 0 ≤ s.2 then ⟨1, s :: unused banks, count⟩
      else (fillBanks addrLast banks addrFirst count).cons s

def flashFillSectRanges (table : List FlashInfo) (addrFirst addrLast : ℕ) : Ranges :=
  fillBanks addrLast table addrFirst 0

/-- A call of `flash_erase`. -/
structure EraseCall where
  info : FlashInfo
  sFirst : ℤ
  sLast : ℤ

def eraseBanks (flashErase : List EraseCall → ℤ) :
    List (FlashInfo × ℤ × ℤ) → List EraseCall → ℤ × List EraseCall
  | [], calls => (0, calls)
  | (info, s) :: banks, calls =>
    if 0 ≤ s.1 then
      let calls := calls ++ [⟨info, s.1, s.2⟩]
      if flashErase calls = 0 then eraseBanks flashErase banks calls else (flashErase calls, calls)
    else eraseBanks flashErase banks calls

/-- What `flash_erase` returns may depend on all that it was called for. -/
def flashSectErase (flashErase : List EraseCall → ℤ) (table : List FlashInfo)
    (addrFirst addrLast : ℕ) : ℤ × List EraseCall :=
  let r := flashFillSectRanges table addrFirst addrLast
  if r.count ≠ 0 ∧ r.rcode = 0 then eraseBanks flashErase (table.zip r.sel) []
  else if r.rcode = 0 then (1, []) else (r.rcode, [])

def protectBank (p : UInt8) (info : FlashInfo) (s : ℤ × ℤ) : FlashInfo :=
  if info.flashId = flashUnknown then info
  else if 0 ≤ s.1 ∧ s.1 ≤ s.2 then
    { info with protect := fun i ↦ if s.1 ≤ i ∧ i ≤ s.2 then p else info.protect i }
  else info

def flashSectProtect (p : UInt8) (table : List FlashInfo) (addrFirst addrLast : ℕ) :
    ℤ × List FlashInfo :=
  let r := flashFillSectRanges table addrFirst addrLast
  if r.count ≠ 0 ∧ r.rcode = 0 then (0, List.zipWith (protectBank p) table r.sel)
  else if r.rcode = 0 then (1, table) else (r.rcode, table)

/-- The byte at `a` is in a selected sector. -/
def Selected (table : List FlashInfo) (sel : List (ℤ × ℤ)) (a : ℕ) : Prop :=
  ∃ e ∈ table.zip sel, 0 ≤ e.2.1 ∧ ∃ k : ℕ, e.2.1 ≤ k ∧ k ≤ e.2.2 ∧ e.1.SectorHas k a

/-- The selected sectors are the interval, or nothing is changed and a failure is reported. -/
structure Selects (table : List FlashInfo) (addrFirst addrLast : ℕ) (r : Ranges) : Prop where
  exact : r.rcode = 0 → r.count ≠ 0 →
    ∀ a, Selected table r.sel a ↔ addrFirst ≤ a ∧ a ≤ addrLast
  erase : ¬ (r.rcode = 0 ∧ r.count ≠ 0) → ∀ flashErase,
    (flashSectErase flashErase table addrFirst addrLast).1 ≠ 0 ∧
      (flashSectErase flashErase table addrFirst addrLast).2 = []
  protect : ¬ (r.rcode = 0 ∧ r.count ≠ 0) → ∀ p,
    (flashSectProtect p table addrFirst addrLast).1 ≠ 0 ∧
      (flashSectProtect p table addrFirst addrLast).2 = table

/-- A sector starts at `a`. -/
def Starts (table : List FlashInfo) (a : ℕ) : Prop :=
  ∃ b ∈ table, b.flashId ≠ flashUnknown ∧ ∃ i < b.sectors, b.start i = a

/-- The last byte of a sector is at `a`. -/
def Ends (table : List FlashInfo) (a : ℕ) : Prop :=
  ∃ b ∈ table, b.flashId ≠ flashUnknown ∧ ∃ i < b.sectors, b.sectorStop i = a + 1

/-- All bytes of the interval are in the flash. -/
def Covered (table : List FlashInfo) (addrFirst addrLast : ℕ) : Prop :=
  ∀ a, addrFirst ≤ a → a ≤ addrLast → ∃ b ∈ table, b.Has a

/-- The interval does not run from the start of a sector over an address outside of the flash to one
that ends no sector. -/
def HoldsWhen (table : List FlashInfo) (addrFirst addrLast : ℕ) : Prop :=
  ¬ Starts table addrFirst ∨ Covered table addrFirst addrLast ∨ Ends table addrLast

/-- Every bank has its place and its sectors, and the next one is behind it. -/
structure Laid (table : List FlashInfo) : Prop where
  placed : ∀ b ∈ table, b.flashId ≠ flashUnknown → b.Placed
  sectored : ∀ b ∈ table, b.flashId ≠ flashUnknown → b.Sectored
  ascending : table.Pairwise fun b c ↦
    b.flashId ≠ flashUnknown → c.flashId ≠ flashUnknown → b.stop ≤ c.start 0

structure SectorBanks extends FlashTable where
  laid : Laid info

section Scan

variable {b : FlashInfo} {addrFirst addrLast i : ℕ}

theorem bEnd_eq (h : b.Placed) : bEnd b = b.stop - 1 := by
  have hpos := h.size_pos
  have hle := h.stop_le
  rw [FlashInfo.stop] at *
  rw [bEnd]
  omega

theorem sectEnd_eq (h : b.Placed) (hs : b.Sectored) (hi : i < b.sectors) :
    sectEnd b i = b.sectorStop i - 1 := by
  have hlt := hs.start_lt i hi
  have hle := (hs.sectorStop_le_stop hi).trans h.stop_le
  rw [sectEnd, hs.sEnd_eq]
  rw [FlashInfo.sectorStop] at *
  split_ifs at * with h1 h2
  · exact bEnd_eq h
  · omega
  · omega
  · omega

/-- The address tests in front do not matter for the sectors that are looked for. -/
theorem scanStep_eq (h : b.Placed) (hs : b.Sectored) (hle : addrFirst ≤ addrLast)
    (hi : i < b.sectors) (s : ℤ × ℤ) :
    scanStep b addrFirst addrLast s i =
      (if b.start i = addrFirst then (i : ℤ) else s.1,
        if b.sectorStop i = addrLast + 1 then (i : ℤ) else s.2) := by
  have hlt := hs.start_lt i hi
  rw [scanStep, sectEnd_eq h hs hi]
  split_ifs
  all_goals first | rfl | omega

theorem foldl_range (get : ℤ × ℤ → ℤ) {step : ℤ × ℤ → ℕ → ℤ × ℤ} {P : ℕ → Prop} {n : ℕ}
    [DecidablePred P] (hstep : ∀ s, ∀ i < n, get (step s i) = if P i then (i : ℤ) else get s)
    (huniq : ∀ i < n, ∀ j < n, P i → P j → i = j) (s : ℤ × ℤ) :
    (∃ i < n, P i ∧ get ((List.range n).foldl step s) = i) ∨
      (∀ i < n, ¬ P i) ∧ get ((List.range n).foldl step s) = get s := by
  induction n with
  | zero => exact .inr ⟨fun i hi ↦ absurd hi (Nat.not_lt_zero i), rfl⟩
  | succ n ih =>
    rw [List.range_succ, List.foldl_append, List.foldl_cons, List.foldl_nil,
      hstep _ n (Nat.lt_succ_self n)]
    split_ifs with hn
    · exact .inl ⟨n, Nat.lt_succ_self n, hn, rfl⟩
    · rcases ih (fun s i hi ↦ hstep s i (hi.trans (Nat.lt_succ_self n)))
        fun i hi j hj ↦ huniq i (hi.trans (Nat.lt_succ_self n)) j (hj.trans (Nat.lt_succ_self n))
        with ⟨i, hi, hP, hget⟩ | ⟨hnone, hget⟩
      · exact .inl ⟨i, hi.trans (Nat.lt_succ_self n), hP, hget⟩
      · refine .inr ⟨fun i hi ↦ ?_, hget⟩
        rcases Nat.lt_succ_iff_lt_or_eq.mp hi with hlt | rfl
        · exact hnone i hlt
        · exact hn

theorem scan_fst (h : b.Placed) (hs : b.Sectored) (hle : addrFirst ≤ addrLast) :
    (∃ i < b.sectors, b.start i = addrFirst ∧ (scan b addrFirst addrLast).1 = i) ∨
      (∀ i < b.sectors, b.start i ≠ addrFirst) ∧ (scan b addrFirst addrLast).1 = -1 := by
  refine foldl_range Prod.fst (fun s i hi ↦ ?_) (fun i hi j hj hPi hPj ↦ ?_) (-1, -1)
  · rw [scanStep_eq h hs hle hi]
  · exact hs.start_inj hi hj (hPi.trans hPj.symm)

theorem scan_snd (h : b.Placed) (hs : b.Sectored) (hle : addrFirst ≤ addrLast) :
    (∃ i < b.sectors, b.sectorStop i = addrLast + 1 ∧ (scan b addrFirst addrLast).2 = i) ∨
      (∀ i < b.sectors, b.sectorStop i ≠ addrLast + 1) ∧ (scan b addrFirst addrLast).2 = -1 := by
  refine foldl_range Prod.snd (fun s i hi ↦ ?_) (fun i hi j hj hPi hPj ↦ ?_) (-1, -1)
  · rw [scanStep_eq h hs hle hi]
  · exact hs.stop_inj hi hj (hPi.trans hPj.symm)

end Scan

section Bank

variable {b : FlashInfo} {banks : List FlashInfo} {addrFirst addrLast i j : ℕ} {count : ℤ}

theorem fillBanks_past (banks : List FlashInfo) (count : ℤ) (h : addrLast < addrFirst) :
    fillBanks addrLast banks addrFirst count = ⟨0, unused banks, count⟩ := by
  cases banks with
  | nil => rfl
  | cons b banks => rw [fillBanks, if_pos h]

theorem fillBanks_unknown (h : ∀ b ∈ banks, b.flashId = flashUnknown) :
    fillBanks addrLast banks addrFirst count = ⟨0, unused banks, count⟩ := by
  induction banks with
  | nil => rfl
  | cons b banks ih =>
    obtain ⟨hb, hbanks⟩ := List.forall_mem_cons.mp h
    rw [fillBanks, if_pos hb, ih hbanks]
    split_ifs <;> rfl

section Known

variable (hknown : b.flashId ≠ flashUnknown) (h : b.Placed) (hs : b.Sectored)
  (hle : addrFirst ≤ addrLast)

include h hs hle in
theorem fst_of_start (hi : i < b.sectors) (hstart : b.start i = addrFirst) :
    (scan b addrFirst addrLast).1 = i := by
  rcases scan_fst h hs hle with ⟨k, hk, hstart', hscan⟩ | ⟨hnone, -⟩
  · rw [hscan, hs.start_inj hk hi (hstart'.trans hstart.symm)]
  · exact absurd hstart (hnone i hi)

include h hs hle in
theorem snd_of_stop (hj : j < b.sectors) (hstop : b.sectorStop j = addrLast + 1) :
    (scan b addrFirst addrLast).2 = j := by
  rcases scan_snd h hs hle with ⟨k, hk, hstop', hscan⟩ | ⟨hnone, -⟩
  · rw [hscan, hs.stop_inj hk hj (hstop'.trans hstop.symm)]
  · exact absurd hstop (hnone j hj)

include h hs hle in
theorem fst_of_not (hstarts : ∀ i < b.sectors, b.start i ≠ addrFirst) :
    (scan b addrFirst addrLast).1 = -1 := by
  rcases scan_fst h hs hle with ⟨k, hk, hstart, -⟩ | ⟨-, hscan⟩
  · exact absurd hstart (hstarts k hk)
  · exact hscan

include h hs hle in
theorem snd_of_not (hends : ∀ j < b.sectors, b.sectorStop j ≠ addrLast + 1) :
    (scan b addrFirst addrLast).2 = -1 := by
  rcases scan_snd h hs hle with ⟨k, hk, hstop, -⟩ | ⟨-, hscan⟩
  · exact absurd hstop (hends k hk)
  · exact hscan

include hknown h hs hle

/-- Both ends are in this bank. -/
theorem fillBanks_both (hi : i < b.sectors) (hstart : b.start i = addrFirst) (hj : j < b.sectors)
    (hstop : b.sectorStop j = addrLast + 1) :
    fillBanks addrLast (b :: banks) addrFirst count =
      (fillBanks addrLast banks ((addrLast + 1) % 4294967296) (count + (j - i + 1))).cons
        (i, j) := by
  have hij : i ≤ j := by
    by_contra hlt
    have hgap := hs.sectorStop_le (Nat.lt_of_not_le hlt) hi
    omega
  have hmem := (hs.sectorStop_le_stop hj).trans h.stop_le
  have hlast := bEnd_eq h
  have hpos := h.size_pos
  have hsize : b.stop = b.start 0 + b.size := rfl
  rw [fillBanks, if_neg (by omega), if_neg hknown]
  dsimp only
  rw [fst_of_start h hs hle hi hstart, snd_of_stop h hs hle hj hstop, if_pos (by omega),
    if_neg (by omega), if_neg (by omega), if_neg (by omega), hs.sEnd_eq]
  have hnext : (if (j : ℤ) = (b.sectors : ℤ) - 1 then (bEnd b + 1) % 4294967296
      else b.start ((j : ℤ).toNat + 1)) = (addrLast + 1) % 4294967296 := by
    rw [Int.toNat_natCast]
    rw [FlashInfo.sectorStop] at hstop
    split_ifs at hstop ⊢
    · rw [hlast]
      omega
    · omega
    · omega
    · have hlt := hs.start_lt (j + 1) (by omega)
      have hle' := (hs.sectorStop_le_stop (i := j + 1) (by omega)).trans h.stop_le
      omega
  rw [hnext]

/-- The interval goes on behind this bank. -/
theorem fillBanks_through (hi : i < b.sectors) (hstart : b.start i = addrFirst)
    (hlast : b.stop ≤ addrLast) :
    fillBanks addrLast (b :: banks) addrFirst count =
      (fillBanks addrLast banks (b.stop % 4294967296) (count + (b.sectors - i))).cons
        (i, (b.sectors : ℤ) - 1) := by
  have hends (j : ℕ) (hj : j < b.sectors) : b.sectorStop j ≠ addrLast + 1 := by
    have hle' := hs.sectorStop_le_stop hj
    omega
  have hbEnd := bEnd_eq h
  have hpos := h.size_pos
  have hsize : b.stop = b.start 0 + b.size := rfl
  rw [fillBanks, if_neg (by omega), if_neg hknown]
  dsimp only
  have hneg : (-1 : ℤ) < 0 := by decide
  rw [fst_of_start h hs hle hi hstart, snd_of_not h hs hle hends, if_pos (by omega),
    if_neg (by omega), if_pos hneg, hs.sEnd_eq, if_neg (by omega), if_pos rfl, hbEnd]
  have hstop : b.stop - 1 + 1 = b.stop := by omega
  have hcount : (b.sectors : ℤ) - 1 - i + 1 = b.sectors - i := by omega
  rw [hstop, hcount]

/-- The end is inside of a sector. -/
theorem fillBanks_inside (hi : i < b.sectors) (hstart : b.start i = addrFirst)
    (hends : ∀ j < b.sectors, b.sectorStop j ≠ addrLast + 1) (hlast : addrLast < b.stop) :
    (fillBanks addrLast (b :: banks) addrFirst count).rcode = 1 := by
  have hbEnd := bEnd_eq h
  rw [fillBanks, if_neg (by omega), if_neg hknown]
  dsimp only
  rw [fst_of_start h hs hle hi hstart, snd_of_not h hs hle hends, if_pos (by omega),
    if_pos (by omega)]

/-- The start is inside of a sector, or the end is in a bank that the start has not led to. -/
theorem fillBanks_refused (hstarts : ∀ i < b.sectors, b.start i ≠ addrFirst)
    (hrefused : b.start 0 ≤ addrFirst ∧ addrFirst + 1 < b.stop ∨
      ∃ j < b.sectors, b.sectorStop j = addrLast + 1) :
    (fillBanks addrLast (b :: banks) addrFirst count).rcode = 1 := by
  have hbEnd := bEnd_eq h
  rw [fillBanks, if_neg (by omega), if_neg hknown]
  dsimp only
  rw [fst_of_not h hs hle hstarts, if_neg (by decide)]
  split_ifs with hin hsnd
  · rfl
  · rfl
  · rcases hrefused with hin' | ⟨j, hj, hstop⟩
    · omega
    · rw [snd_of_stop h hs hle hj hstop] at hsnd
      omega

theorem fillBanks_skip (hstarts : ∀ i < b.sectors, b.start i ≠ addrFirst)
    (hends : ∀ j < b.sectors, b.sectorStop j ≠ addrLast + 1)
    (hout : ¬ (b.start 0 ≤ addrFirst ∧ addrFirst + 1 < b.stop)) :
    fillBanks addrLast (b :: banks) addrFirst count =
      (fillBanks addrLast banks addrFirst count).cons (-1, -1) := by
  have hbEnd := bEnd_eq h
  have hscan : scan b addrFirst addrLast = (-1, -1) :=
    Prod.ext (fst_of_not h hs hle hstarts) (snd_of_not h hs hle hends)
  rw [fillBanks, if_neg (by omega), if_neg hknown]
  dsimp only
  rw [hscan, if_neg (by decide), if_neg (by omega), if_neg (by decide)]

end Known

end Bank

section Selection

variable {b : FlashInfo} {banks : List FlashInfo} {sel : List (ℤ × ℤ)} {a : ℕ}

theorem not_selected_unused (banks : List FlashInfo) (a : ℕ) :
    ¬ Selected banks (unused banks) a := by
  rintro ⟨⟨b, s⟩, he, hpos, -⟩
  have hs := (List.of_mem_zip he).2
  rw [unused, List.mem_map] at hs
  obtain ⟨c, -, rfl⟩ := hs
  have hpos' : (0 : ℤ) ≤ -1 := hpos
  exact absurd hpos' (by decide)

theorem selected_cons (s : ℤ × ℤ) :
    Selected (b :: banks) (s :: sel) a ↔
      (0 ≤ s.1 ∧ ∃ k : ℕ, s.1 ≤ k ∧ k ≤ s.2 ∧ b.SectorHas k a) ∨ Selected banks sel a := by
  rw [Selected, List.zip_cons_cons, List.exists_mem_cons_iff]
  rfl

theorem selected_skip : Selected (b :: banks) ((-1, -1) :: sel) a ↔ Selected banks sel a := by
  rw [selected_cons]
  refine or_iff_right ?_
  rintro ⟨hpos, -⟩
  exact absurd hpos (by decide)

/-- The sectors from `i` to `j` of the first bank, and what is selected behind it. -/
theorem selected_range {i j : ℕ} (hs : b.Sectored) (hknown : b.flashId ≠ flashUnknown) (hij : i ≤ j)
    (hj : j < b.sectors) :
    Selected (b :: banks) (((i : ℤ), (j : ℤ)) :: sel) a ↔
      (b.start i ≤ a ∧ a < b.sectorStop j) ∨ Selected banks sel a := by
  rw [selected_cons, ← hs.union hknown hij hj]
  refine or_congr_left ?_
  constructor
  · rintro ⟨-, k, hik, hkj, hhas⟩
    exact ⟨k, by omega, by omega, hhas⟩
  · rintro ⟨k, hik, hkj, hhas⟩
    exact ⟨by omega, k, by omega, by omega, hhas⟩

end Selection

section Fill

variable {b : FlashInfo} {banks table : List FlashInfo} {addrFirst addrLast : ℕ} {count : ℤ}

/-- What comes out for an interval, by where it starts and ends. -/
structure Outcome (table : List FlashInfo) (addrFirst addrLast : ℕ) (count : ℤ) (r : Ranges) :
    Prop where
  done : Starts table addrFirst → Covered table addrFirst addrLast → Ends table addrLast →
    r.rcode = 0 ∧ count < r.count ∧ ∀ a, Selected table r.sel a ↔ addrFirst ≤ a ∧ a ≤ addrLast
  failed : Starts table addrFirst →
    (Covered table addrFirst addrLast ↔ ¬ Ends table addrLast) → r.rcode = 1
  cut : Starts table addrFirst → ¬ Covered table addrFirst addrLast → ¬ Ends table addrLast →
    r.rcode = 0 ∧ count < r.count ∧
      ∃ a, addrFirst ≤ a ∧ a ≤ addrLast ∧ ¬ Selected table r.sel a
  missed : ¬ Starts table addrFirst →
    r.rcode = 1 ∨ r.rcode = 0 ∧ r.count = count ∧ ∀ a, ¬ Selected table r.sel a
  refused : (∀ b ∈ table, ¬ b.Has addrFirst) → Ends table addrLast → r.rcode = 1
  idle : (∀ b ∈ table, ¬ b.Has addrFirst) → ¬ Ends table addrLast →
    r.rcode = 0 ∧ r.count = count ∧ ∀ a, ¬ Selected table r.sel a

theorem Starts.has (hs : ∀ b ∈ table, b.flashId ≠ flashUnknown → b.Sectored) {a : ℕ}
    (h : Starts table a) : ∃ b ∈ table, b.Has a := by
  obtain ⟨b, hb, hknown, i, hi, rfl⟩ := h
  exact ⟨b, hb, (hs b hb hknown).has_start hknown hi⟩

theorem Outcome.of_starts {r : Ranges}
    (hs : ∀ b ∈ table, b.flashId ≠ flashUnknown → b.Sectored) (hstarts : Starts table addrFirst)
    (hdone : Covered table addrFirst addrLast → Ends table addrLast →
      r.rcode = 0 ∧ count < r.count ∧ ∀ a, Selected table r.sel a ↔ addrFirst ≤ a ∧ a ≤ addrLast)
    (hfailed : (Covered table addrFirst addrLast ↔ ¬ Ends table addrLast) → r.rcode = 1)
    (hcut : ¬ Covered table addrFirst addrLast → ¬ Ends table addrLast →
      r.rcode = 0 ∧ count < r.count ∧
        ∃ a, addrFirst ≤ a ∧ a ≤ addrLast ∧ ¬ Selected table r.sel a) :
    Outcome table addrFirst addrLast count r := by
  obtain ⟨b, hb, hhas⟩ := hstarts.has hs
  exact ⟨fun _ ↦ hdone, fun _ ↦ hfailed, fun _ ↦ hcut, fun hnot ↦ absurd hstarts hnot,
    fun hnot ↦ absurd hhas (hnot b hb), fun hnot ↦ absurd hhas (hnot b hb)⟩

theorem Outcome.of_not_starts {r : Ranges} (hstarts : ¬ Starts table addrFirst)
    (hmissed : r.rcode = 1 ∨ r.rcode = 0 ∧ r.count = count ∧ ∀ a, ¬ Selected table r.sel a)
    (hrefused : (∀ b ∈ table, ¬ b.Has addrFirst) → Ends table addrLast → r.rcode = 1)
    (hidle : (∀ b ∈ table, ¬ b.Has addrFirst) → ¬ Ends table addrLast →
      r.rcode = 0 ∧ r.count = count ∧ ∀ a, ¬ Selected table r.sel a) :
    Outcome table addrFirst addrLast count r :=
  ⟨fun hs ↦ absurd hs hstarts, fun hs ↦ absurd hs hstarts, fun hs ↦ absurd hs hstarts,
    fun _ ↦ hmissed, hrefused, hidle⟩

/-- A bank that has nothing from the start of the interval on. -/
theorem Outcome.skip {r : Ranges} (hstarts : Starts (b :: banks) addrFirst ↔ Starts banks addrFirst)
    (hends : Ends (b :: banks) addrLast ↔ Ends banks addrLast)
    (hhas : ∀ a, addrFirst ≤ a → ¬ b.Has a)
    (h : Outcome banks addrFirst addrLast count r) :
    Outcome (b :: banks) addrFirst addrLast count (r.cons (-1, -1)) := by
  have hcovered : Covered (b :: banks) addrFirst addrLast ↔ Covered banks addrFirst addrLast := by
    refine forall₃_congr fun a hfirst _ ↦ ?_
    rw [List.exists_mem_cons_iff]
    exact or_iff_right (hhas a hfirst)
  have hout : (∀ c ∈ b :: banks, ¬ c.Has addrFirst) ↔ ∀ c ∈ banks, ¬ c.Has addrFirst := by
    rw [List.forall_mem_cons]
    exact and_iff_right (hhas addrFirst le_rfl)
  constructor
  all_goals simp only [hstarts, hends, hcovered, hout, Ranges.cons, selected_skip]
  · exact h.done
  · exact h.failed
  · exact h.cut
  · exact h.missed
  · exact h.refused
  · exact h.idle

/-- The start is in no bank so far. -/
theorem Outcome.gap {r : Ranges} (hends : Ends (b :: banks) addrLast ↔ Ends banks addrLast)
    (hsectored : ∀ c ∈ b :: banks, c.flashId ≠ flashUnknown → c.Sectored)
    (hout : ∀ c ∈ b :: banks, ¬ c.Has addrFirst) (h : Outcome banks addrFirst addrLast count r) :
    Outcome (b :: banks) addrFirst addrLast count (r.cons (-1, -1)) := by
  have hstarts : ¬ Starts (b :: banks) addrFirst := by
    intro hstarts
    obtain ⟨c, hc, hhas⟩ := hstarts.has hsectored
    exact hout c hc hhas
  have hout' : ∀ c ∈ banks, ¬ c.Has addrFirst := fun c hc ↦ hout c (List.mem_cons_of_mem _ hc)
  have hidle (hnot : ¬ Ends banks addrLast) : (r.cons (-1, -1)).rcode = 0 ∧
      (r.cons (-1, -1)).count = count ∧
      ∀ a, ¬ Selected (b :: banks) (r.cons (-1, -1)).sel a := by
    simp only [Ranges.cons, selected_skip]
    exact h.idle hout' hnot
  refine .of_not_starts hstarts ?_ ?_ ?_
  · by_cases hend : Ends banks addrLast
    · exact .inl (h.refused hout' hend)
    · exact .inr (hidle hend)
  · exact fun _ hend ↦ h.refused hout' (hends.mp hend)
  · exact fun _ hend ↦ hidle fun hend' ↦ hend (hends.mpr hend')

/-- The interval goes on behind the first bank. -/
theorem Outcome.through {r : Ranges} {i : ℕ} (hknown : b.flashId ≠ flashUnknown) (hs : b.Sectored)
    (hsectored : ∀ c ∈ banks, c.flashId ≠ flashUnknown → c.Sectored)
    (hbehind : ∀ c ∈ banks, c.flashId ≠ flashUnknown → b.stop ≤ c.start 0) (hi : i < b.sectors)
    (hstart : b.start i = addrFirst) (hlast : b.stop ≤ addrLast)
    (hends : Ends (b :: banks) addrLast ↔ Ends banks addrLast)
    (h : Outcome banks b.stop addrLast (count + (b.sectors - i)) r) :
    Outcome (b :: banks) addrFirst addrLast count (r.cons (i, (b.sectors : ℤ) - 1)) := by
  have hlt := (hs.start_lt i hi).trans_le (hs.sectorStop_le_stop hi)
  have hstarts : Starts (b :: banks) addrFirst := ⟨b, List.mem_cons_self, hknown, i, hi, hstart⟩
  have hfirst : b.Has addrFirst := hstart ▸ hs.has_start hknown hi
  have hcovered : Covered (b :: banks) addrFirst addrLast ↔ Covered banks b.stop addrLast := by
    constructor
    · intro hall a ha ha'
      obtain ⟨c, hc, hhas⟩ := hall a (by omega) ha'
      rcases List.mem_cons.mp hc with rfl | hc
      · exact absurd hhas.2.2 (by omega)
      · exact ⟨c, hc, hhas⟩
    · intro hall a ha ha'
      by_cases hin : a < b.stop
      · exact ⟨b, List.mem_cons_self, hknown, hfirst.2.1.trans ha, hin⟩
      · obtain ⟨c, hc, hhas⟩ := hall a (by omega) ha'
        exact ⟨c, List.mem_cons_of_mem _ hc, hhas⟩
  -- the next address starts a bank or is in none
  have hnext : (∃ c ∈ banks, c.Has b.stop) → Starts banks b.stop := by
    rintro ⟨c, hc, hknown', hle, -⟩
    exact ⟨c, hc, hknown', 0, (hsectored c hc hknown').pos, hle.antisymm (hbehind c hc hknown')⟩
  have hsel (a : ℕ) : Selected (b :: banks) (r.cons (i, (b.sectors : ℤ) - 1)).sel a ↔
      (addrFirst ≤ a ∧ a < b.stop) ∨ Selected banks r.sel a := by
    have hpos := hs.pos
    have hcast : (b.sectors : ℤ) - 1 = ((b.sectors - 1 : ℕ) : ℤ) := by omega
    rw [Ranges.cons, hcast, selected_range hs hknown (by omega) (by omega), hs.sectorStop_last,
      hstart]
  refine .of_starts (List.forall_mem_cons.mpr ⟨fun _ ↦ hs, hsectored⟩) hstarts ?_ ?_ ?_
  · intro hcov hend
    rw [hcovered] at hcov
    obtain ⟨hrc, hcount, hall⟩ :=
      h.done (hnext (hcov b.stop le_rfl hlast)) hcov (hends.mp hend)
    refine ⟨hrc, by change _ < r.count; omega, fun a ↦ ?_⟩
    rw [hsel, hall]
    omega
  · intro hiff
    rw [hcovered, hends] at hiff
    by_cases hbank : Starts banks b.stop
    · exact h.failed hbank hiff
    · have hnone : ∀ c ∈ banks, ¬ c.Has b.stop := fun c hc hhas ↦ hbank (hnext ⟨c, hc, hhas⟩)
      refine h.refused hnone (not_not.mp fun hend ↦ ?_)
      obtain ⟨c, hc, hhas⟩ := hiff.mpr hend b.stop le_rfl hlast
      exact hnone c hc hhas
  · intro hcov hend
    rw [hcovered] at hcov
    rw [hends] at hend
    by_cases hbank : Starts banks b.stop
    · obtain ⟨hrc, hcount, a, ha, ha', hnot⟩ := h.cut hbank hcov hend
      refine ⟨hrc, by change _ < r.count; omega, a, by omega, ha', fun hsel' ↦ ?_⟩
      rcases (hsel a).mp hsel' with hin | hin
      · omega
      · exact hnot hin
    · have hnone : ∀ c ∈ banks, ¬ c.Has b.stop := fun c hc hhas ↦ hbank (hnext ⟨c, hc, hhas⟩)
      obtain ⟨hrc, hcount, hnot⟩ := h.idle hnone hend
      refine ⟨hrc, by change _ < r.count; omega, b.stop, by omega, hlast, fun hsel' ↦ ?_⟩
      rcases (hsel _).mp hsel' with hin | hin
      · omega
      · exact hnot _ hin

theorem starts_cons {a : ℕ} : Starts (b :: banks) a ↔
    (b.flashId ≠ flashUnknown ∧ ∃ i < b.sectors, b.start i = a) ∨ Starts banks a :=
  List.exists_mem_cons_iff _ _ _

theorem ends_cons {a : ℕ} : Ends (b :: banks) a ↔
    (b.flashId ≠ flashUnknown ∧ ∃ i < b.sectors, b.sectorStop i = a + 1) ∨ Ends banks a :=
  List.exists_mem_cons_iff _ _ _

theorem Outcome.of_rcode {r : Ranges} (hrc : r.rcode = 1) (hstarts : ¬ Starts table addrFirst)
    (h : Ends table addrLast ∨ ∃ b ∈ table, b.Has addrFirst) :
    Outcome table addrFirst addrLast count r := by
  refine .of_not_starts hstarts (.inl hrc) (fun _ _ ↦ hrc) fun hout hend ↦ ?_
  rcases h with h | ⟨b, hb, hhas⟩
  · exact absurd h hend
  · exact absurd hhas (hout b hb)

/-- The start is the last byte of the first bank, and no sector starts there. -/
theorem Outcome.inner {r : Ranges} (hstarts : ¬ Starts (b :: banks) addrFirst)
    (hhas : b.Has addrFirst) (h : Outcome banks addrFirst addrLast count r) :
    Outcome (b :: banks) addrFirst addrLast count (r.cons (-1, -1)) := by
  refine .of_not_starts hstarts ?_ (fun hout ↦ absurd hhas (hout b List.mem_cons_self))
    fun hout ↦ absurd hhas (hout b List.mem_cons_self)
  simp only [Ranges.cons, selected_skip]
  exact h.missed fun hs ↦ hstarts (starts_cons.mpr (.inr hs))

theorem Laid.tail (h : Laid (b :: banks)) : Laid banks :=
  ⟨fun c hc ↦ h.placed c (List.mem_cons_of_mem _ hc),
    fun c hc ↦ h.sectored c (List.mem_cons_of_mem _ hc), h.ascending.of_cons⟩

section First

variable (hlaid : Laid (b :: banks)) (hknown : b.flashId ≠ flashUnknown)
  (hle : addrFirst ≤ addrLast)

include hlaid hknown hle

/-- Both ends are ends of sectors of the first bank. -/
theorem Outcome.both {i j : ℕ} (hi : i < b.sectors) (hstart : b.start i = addrFirst)
    (hj : j < b.sectors) (hstop : b.sectorStop j = addrLast + 1) :
    Outcome (b :: banks) addrFirst addrLast count
      (fillBanks addrLast (b :: banks) addrFirst count) := by
  have h := hlaid.placed b List.mem_cons_self hknown
  have hs := hlaid.sectored b List.mem_cons_self hknown
  have hmem := hs.sectorStop_le_stop hj
  have hstop_le := h.stop_le
  have hij : i ≤ j := by
    by_contra hlt
    have hgap := hs.sectorStop_le (Nat.lt_of_not_le hlt) hi
    omega
  have hrest : fillBanks addrLast banks ((addrLast + 1) % 4294967296) (count + (j - i + 1)) =
      ⟨0, unused banks, count + (j - i + 1)⟩ := by
    by_cases htop : addrLast + 1 = 4294967296
    · refine fillBanks_unknown fun c hc ↦ not_not.mp fun hc' ↦ ?_
      have hbehind := List.rel_of_pairwise_cons hlaid.ascending hc hknown hc'
      have hplaced := hlaid.placed c (List.mem_cons_of_mem _ hc) hc'
      have hsize := hplaced.size_pos
      have hcstop := hplaced.stop_le
      rw [FlashInfo.stop] at hcstop
      omega
    · exact fillBanks_past banks _ (by omega)
  rw [fillBanks_both hknown h hs hle hi hstart hj hstop, hrest]
  have hstarts : Starts (b :: banks) addrFirst := starts_cons.mpr (.inl ⟨hknown, i, hi, hstart⟩)
  have hends : Ends (b :: banks) addrLast := ends_cons.mpr (.inl ⟨hknown, j, hj, hstop⟩)
  have hhas : b.Has addrFirst := hstart ▸ hs.has_start hknown hi
  have hcovered : Covered (b :: banks) addrFirst addrLast := fun a ha ha' ↦
    ⟨b, List.mem_cons_self, hknown, hhas.2.1.trans ha, by omega⟩
  refine .of_starts hlaid.sectored hstarts (fun _ _ ↦ ?_)
    (fun hiff ↦ absurd hends (hiff.mp hcovered)) fun hcov ↦ absurd hcovered hcov
  refine ⟨rfl, by change count < count + (j - i + 1); omega, fun a ↦ ?_⟩
  rw [Ranges.cons, selected_range hs hknown hij hj, or_iff_left (not_selected_unused banks a),
    hstart, hstop, Nat.lt_succ_iff]

/-- The interval ends inside of a sector of the first bank. -/
theorem Outcome.inside {i : ℕ} (hi : i < b.sectors) (hstart : b.start i = addrFirst)
    (hends : ∀ j < b.sectors, b.sectorStop j ≠ addrLast + 1) (hin : addrLast < b.stop) :
    Outcome (b :: banks) addrFirst addrLast count
      (fillBanks addrLast (b :: banks) addrFirst count) := by
  have h := hlaid.placed b List.mem_cons_self hknown
  have hs := hlaid.sectored b List.mem_cons_self hknown
  have hrc : (fillBanks addrLast (b :: banks) addrFirst count).rcode = 1 :=
    fillBanks_inside hknown h hs hle hi hstart hends hin
  have hhas : b.Has addrFirst := hstart ▸ hs.has_start hknown hi
  have hstarts : Starts (b :: banks) addrFirst := starts_cons.mpr (.inl ⟨hknown, i, hi, hstart⟩)
  have hcovered : Covered (b :: banks) addrFirst addrLast := fun a ha ha' ↦
    ⟨b, List.mem_cons_self, hknown, hhas.2.1.trans ha, by omega⟩
  have hnoend : ¬ Ends (b :: banks) addrLast := by
    rw [ends_cons]
    rintro (⟨-, j, hj, hstop⟩ | ⟨c, hc, hc', j, hj, hstop⟩)
    · exact hends j hj hstop
    · have hbehind := List.rel_of_pairwise_cons hlaid.ascending hc hknown hc'
      have hcs := hlaid.tail.sectored c hc hc'
      have hcstart := (hcs.has_start hc' hj).2.1
      have hlt := hcs.start_lt j hj
      omega
  exact .of_starts hlaid.sectored hstarts (fun _ hend ↦ absurd hend hnoend) (fun _ ↦ hrc)
    fun hcov ↦ absurd hcovered hcov

end First

/-- The run over the banks. -/
theorem fillBanks_outcome (hlaid : Laid table) (hle : addrFirst ≤ addrLast)
    (hlast : addrLast < 4294967296) :
    Outcome table addrFirst addrLast count (fillBanks addrLast table addrFirst count) := by
  induction table generalizing addrFirst count with
  | nil =>
    have hout (P : FlashInfo → Prop) : ¬ ∃ b ∈ [], P b := by simp
    have hidle (r : Ranges) (hr : r = ⟨0, [], count⟩) :
        r.rcode = 0 ∧ r.count = count ∧ ∀ a, ¬ Selected [] r.sel a :=
      hr ▸ ⟨rfl, rfl, not_selected_unused []⟩
    exact .of_not_starts (hout _) (.inr (hidle _ rfl)) (fun _ hend ↦ absurd hend (hout _))
      fun _ _ ↦ hidle _ rfl
  | cons b banks ih =>
    have hih (addr : ℕ) (haddr : addr ≤ addrLast) (count : ℤ) :
        Outcome banks addr addrLast count (fillBanks addrLast banks addr count) :=
      ih hlaid.tail haddr
    by_cases hknown : b.flashId = flashUnknown
    · rw [fillBanks, if_neg (by omega), if_pos hknown]
      refine Outcome.skip ?_ ?_ (fun a _ hhas ↦ hhas.1 hknown) (hih addrFirst hle count)
      · rw [starts_cons]
        exact or_iff_right fun h ↦ h.1 hknown
      · rw [ends_cons]
        exact or_iff_right fun h ↦ h.1 hknown
    · have h := hlaid.placed b List.mem_cons_self hknown
      have hs := hlaid.sectored b List.mem_cons_self hknown
      have hbehind (c : FlashInfo) (hc : c ∈ banks) (hc' : c.flashId ≠ flashUnknown) :
          b.stop ≤ c.start 0 := List.rel_of_pairwise_cons hlaid.ascending hc hknown hc'
      have hfar (hlt : addrFirst < b.stop) (c : FlashInfo) (hc : c ∈ banks) : ¬ c.Has addrFirst :=
        fun hhas ↦ absurd (hbehind c hc hhas.1) (by have hge := hhas.2.1; omega)
      have hrest (hlt : addrFirst < b.stop) : ¬ Starts banks addrFirst := fun hstarts ↦ by
        obtain ⟨c, hc, hhas⟩ := hstarts.has hlaid.tail.sectored
        exact hfar hlt c hc hhas
      have hstops (i : ℕ) (hi : i < b.sectors) := hs.sectorStop_le_stop hi
      have hstarts (i : ℕ) (hi : i < b.sectors) := hs.has_start hknown hi
      have hends (hnone : ∀ j < b.sectors, b.sectorStop j ≠ addrLast + 1) :
          Ends (b :: banks) addrLast ↔ Ends banks addrLast := by
        rw [ends_cons]
        refine or_iff_right ?_
        rintro ⟨-, j, hj, hstop⟩
        exact hnone j hj hstop
      by_cases hpast : b.stop ≤ addrFirst
      · -- the bank is in front of the interval
        have hnostart (i : ℕ) (hi : i < b.sectors) : b.start i ≠ addrFirst := by
          have hlt := (hstarts i hi).2.2
          omega
        have hnoend (j : ℕ) (hj : j < b.sectors) : b.sectorStop j ≠ addrLast + 1 := by
          have hle' := hstops j hj
          omega
        rw [fillBanks_skip hknown h hs hle hnostart hnoend (by omega)]
        refine Outcome.skip ?_ (hends hnoend) (fun a ha hhas ↦ ?_) (hih addrFirst hle count)
        · rw [starts_cons]
          refine or_iff_right ?_
          rintro ⟨-, i, hi, hstart⟩
          exact hnostart i hi hstart
        · have hlt := hhas.2.2
          omega
      · by_cases hstart : ∃ i < b.sectors, b.start i = addrFirst
        · obtain ⟨i, hi, hstart⟩ := hstart
          by_cases hend : ∃ j < b.sectors, b.sectorStop j = addrLast + 1
          · obtain ⟨j, hj, hstop⟩ := hend
            exact Outcome.both hlaid hknown hle hi hstart hj hstop
          · have hnoend (j : ℕ) (hj : j < b.sectors) : b.sectorStop j ≠ addrLast + 1 :=
              fun hstop ↦ hend ⟨j, hj, hstop⟩
            by_cases hin : addrLast < b.stop
            · exact Outcome.inside hlaid hknown hle hi hstart hnoend hin
            · rw [fillBanks_through hknown h hs hle hi hstart (by omega),
                Nat.mod_eq_of_lt (by omega)]
              exact Outcome.through hknown hs hlaid.tail.sectored hbehind hi hstart (by omega)
                (hends hnoend) (hih b.stop (by omega) _)
        · have hnostart (i : ℕ) (hi : i < b.sectors) : b.start i ≠ addrFirst :=
            fun heq ↦ hstart ⟨i, hi, heq⟩
          have hnone : ¬ Starts (b :: banks) addrFirst := by
            rw [starts_cons]
            rintro (⟨-, h⟩ | h)
            · exact hstart h
            · exact hrest (by omega) h
          by_cases hrefused : b.start 0 ≤ addrFirst ∧ addrFirst + 1 < b.stop ∨
              ∃ j < b.sectors, b.sectorStop j = addrLast + 1
          · refine Outcome.of_rcode (fillBanks_refused hknown h hs hle hnostart hrefused) hnone ?_
            rcases hrefused with hin | hend
            · exact .inr ⟨b, List.mem_cons_self, hknown, hin.1, by omega⟩
            · exact .inl (ends_cons.mpr (.inl ⟨hknown, hend⟩))
          · rw [not_or] at hrefused
            have hnoend (j : ℕ) (hj : j < b.sectors) : b.sectorStop j ≠ addrLast + 1 :=
              fun hstop ↦ hrefused.2 ⟨j, hj, hstop⟩
            rw [fillBanks_skip hknown h hs hle hnostart hnoend hrefused.1]
            by_cases hfront : addrFirst < b.start 0
            · refine Outcome.gap (hends hnoend) hlaid.sectored (fun c hc hhas ↦ ?_)
                (hih addrFirst hle count)
              rcases List.mem_cons.mp hc with rfl | hc
              · have hge := hhas.2.1
                omega
              · exact hfar (by omega) c hc hhas
            · exact Outcome.inner hnone ⟨hknown, by omega, by omega⟩ (hih addrFirst hle count)

theorem erase_fails {r : Ranges} (hr : flashFillSectRanges table addrFirst addrLast = r)
    (h : ¬ (r.rcode = 0 ∧ r.count ≠ 0)) (flashErase : List EraseCall → ℤ) :
    (flashSectErase flashErase table addrFirst addrLast).1 ≠ 0 ∧
      (flashSectErase flashErase table addrFirst addrLast).2 = [] := by
  rw [flashSectErase, hr]
  rw [if_neg fun h' ↦ h h'.symm]
  split_ifs with hrc
  · exact ⟨by decide, rfl⟩
  · exact ⟨hrc, rfl⟩

theorem protect_fails {r : Ranges} (hr : flashFillSectRanges table addrFirst addrLast = r)
    (h : ¬ (r.rcode = 0 ∧ r.count ≠ 0)) (p : UInt8) :
    (flashSectProtect p table addrFirst addrLast).1 ≠ 0 ∧
      (flashSectProtect p table addrFirst addrLast).2 = table := by
  rw [flashSectProtect, hr]
  rw [if_neg fun h' ↦ h h'.symm]
  split_ifs with hrc
  · exact ⟨one_ne_zero, rfl⟩
  · exact ⟨hrc, rfl⟩

end Fill

/-- The selection is right exactly when the interval does not start with a sector, leave the flash,
and end where no sector ends. -/
theorem sector_selection_iff (banks : SectorBanks) (addrFirst addrLast : UInt32)
    (hle : addrFirst.toNat ≤ addrLast.toNat) :
    Selects banks.info addrFirst.toNat addrLast.toNat
        (flashFillSectRanges banks.info addrFirst.toNat addrLast.toNat) ↔
      HoldsWhen banks.info addrFirst.toNat addrLast.toNat := by
  have hlast := addrLast.toNat_lt
  generalize addrFirst.toNat = first at hle ⊢
  generalize addrLast.toNat = last at hle hlast ⊢
  have hout : Outcome banks.info first last 0 (flashFillSectRanges banks.info first last) :=
    fillBanks_outcome banks.laid hle hlast
  constructor
  · intro h
    by_contra hnot
    rw [HoldsWhen, not_or, not_or, not_not] at hnot
    obtain ⟨hstarts, hcovered, hends⟩ := hnot
    obtain ⟨hrc, hcount, a, ha, ha', hfree⟩ := hout.cut hstarts hcovered hends
    exact hfree ((h.exact hrc hcount.ne' a).mpr ⟨ha, ha'⟩)
  · intro h
    refine ⟨fun hrc hcount ↦ ?_, erase_fails rfl, protect_fails rfl⟩
    by_cases hstarts : Starts banks.info first
    · have hboth : ¬ (Covered banks.info first last ↔ ¬ Ends banks.info last) := fun hiff ↦ by
        have hone := hout.failed hstarts hiff
        omega
      rcases h with h | hcovered | hends
      · exact absurd hstarts h
      · have hends : Ends banks.info last := by
          by_contra hends
          exact hboth (iff_of_true hcovered hends)
        exact (hout.done hstarts hcovered hends).2.2
      · have hcovered : Covered banks.info first last := by
          by_contra hcovered
          exact hboth (iff_of_false hcovered (not_not.mpr hends))
        exact (hout.done hstarts hcovered hends).2.2
    · rcases hout.missed hstarts with hone | ⟨-, hzero, -⟩
      · omega
      · exact absurd hzero hcount

def oneBank : FlashInfo where
  size := 0x20000
  sectorCount := 2
  flashId := 1
  start i := 0xbf000000 + 0x10000 * i
  protect _ := 0

theorem oneBank_laid : Laid [oneBank] := by
  refine ⟨fun b hb _ ↦ ?_, fun b hb _ ↦ ?_, List.pairwise_singleton _ _⟩
  · rw [List.mem_singleton.mp hb]
    exact ⟨by decide, by decide, by decide⟩
  · rw [List.mem_singleton.mp hb]
    exact ⟨by decide, by decide, by decide⟩

/-- The second sector. -/
theorem sector_selection_iff_second :
    Selects [oneBank] 0xbf010000 0xbf01ffff
        (flashFillSectRanges [oneBank] 0xbf010000 0xbf01ffff) ↔
      HoldsWhen [oneBank] 0xbf010000 0xbf01ffff :=
  sector_selection_iff ⟨⟨[oneBank], by decide⟩, oneBank_laid⟩ 0xbf010000 0xbf01ffff (by decide)

/-- The end of the interval is behind the flash, and the selection is accepted. -/
theorem sector_selection_clipped :
    ¬ Selects [oneBank] 0xbf010000 0xbf02ffff
      (flashFillSectRanges [oneBank] 0xbf010000 0xbf02ffff) := by
  intro h
  have hall := h.exact (by decide +kernel) (by decide +kernel) 0xbf020000
  obtain ⟨e, he, -, k, -, -, hhas⟩ := hall.mpr ⟨by decide, by decide⟩
  rw [List.mem_singleton.mp (List.of_mem_zip he).1] at hhas
  have hlt := hhas.2.2.2
  have hle := (oneBank_laid.sectored oneBank (List.mem_singleton_self _) hhas.1).sectorStop_le_stop
    hhas.2.1
  have hstop : oneBank.stop = 0xbf020000 := by decide
  omega

end UBoot.Common.SectorRanges
