import Mathlib.Data.Nat.Bitwise
import Mathlib.Logic.Function.Basic

namespace UBoot.Common.Memsize

/-- The window that is probed, in words: the memory has `words` of them and repeats. -/
structure Ram where
  words : ℕ
  cells : ℕ → UInt32

def Ram.read (m : Ram) (i : ℕ) : UInt32 := m.cells (i % m.words)

def Ram.write (m : Ram) (i : ℕ) (v : UInt32) : Ram :=
  { m with cells := Function.update m.cells (i % m.words) v }

def sizeofLong : ℕ := 4

/-- `~cnt` -/
def pattern (cnt : ℕ) : UInt32 := ~~~UInt32.ofNat cnt

/-- The first loop, with `save` and `i`. Each turn shifts `cnt`, so there are no more turns than bits. -/
def saveLoop : ℕ → ℕ → (ℕ → UInt32) → ℕ → Ram → Option ((ℕ → UInt32) × ℕ × Ram)
  | 0, _, _, _, _ => none
  | fuel + 1, cnt, save, i, m =>
    if 0 < cnt then
      if i < 32 then
        saveLoop fuel (cnt >>> 1) (Function.update save i (m.read cnt)) (i + 1)
          (m.write cnt (pattern cnt))
      else none
    else some (save, i, m)

/-- `for (; cnt < maxsize / sizeof (long); cnt <<= 1) base[cnt] = save[--i];` -/
def restoreLoop (limit : ℕ) (save : ℕ → UInt32) : ℕ → ℕ → ℕ → Ram → Option Ram
  | 0, _, _, _ => none
  | fuel + 1, cnt, i, m =>
    if cnt < limit then
      match i with
      | 0 => none
      | i + 1 => restoreLoop limit save fuel (cnt <<< 1) i (m.write cnt (save i))
    else some m

/-- The last loop: the size that is returned, and the memory. -/
def checkLoop (limit maxsize : ℕ) (save : ℕ → UInt32) : ℕ → ℕ → ℕ → Ram → Option (ℕ × Ram)
  | 0, _, _, _ => none
  | fuel + 1, cnt, i, m =>
    if cnt < limit then
      match i with
      | 0 => none
      | i + 1 =>
        let val := m.read cnt
        let m := m.write cnt (save i)
        if val ≠ pattern cnt then
          (restoreLoop limit save fuel (cnt <<< 1) i m).map (cnt * sizeofLong, ·)
        else checkLoop limit maxsize save fuel (cnt <<< 1) i m
    else some (maxsize, m)

def getRamSize (m : Ram) (maxsize : ℕ) : Option (ℕ × Ram) := do
  let limit := maxsize / sizeofLong
  let (save, i, m) ← saveLoop 33 (limit >>> 1) (fun _ ↦ 0) 0 m
  if i < 32 then
    let save := Function.update save i (m.read 0)
    let m := m.write 0 0
    if m.read 0 ≠ 0 then
      let m ← restoreLoop limit save 33 1 i (m.write 0 (save i))
      return (0, m)
    else checkLoop limit maxsize save 33 1 i m
  else none

/-- The size is right and each word of the window has its value. -/
def Accurate (m : Ram) (maxsize : ℕ) : Prop :=
  ∃ m', getRamSize m maxsize = some (m.words * sizeofLong, m') ∧
    ∀ i < maxsize / sizeofLong, m'.read i = m.read i

theorem Ram.read_write_self (m : Ram) (i : ℕ) (v : UInt32) : (m.write i v).read i = v := by
  simp [Ram.read, Ram.write]

section Probe

variable (m : Ram) (n : ℕ)

/-- The memory after `j` turns of the first loop, for `2 ^ n` words. -/
def marked : ℕ → Ram
  | 0 => m
  | j + 1 => (marked j).write (2 ^ (n - 1 - j)) (pattern (2 ^ (n - 1 - j)))

/-- What the last loop leaves, after `e` turns: cells that it has come to are as they were when the
first loop came to them. -/
def unmarked (e k : ℕ) : UInt32 :=
  if ∃ e' < e, 2 ^ e' % m.words = k then (marked m n (n - e)).cells k
  else ((marked m n n).write 0 0).cells k

theorem marked_words (j : ℕ) : (marked m n j).words = m.words := by
  induction j with
  | zero => rfl
  | succ j ih => exact ih

variable {m n}

theorem saveLoop_marked {j fuel : ℕ} (hj : j ≤ n) (hn : n ≤ 32) (hfuel : n - j < fuel)
    {save : ℕ → UInt32}
    (hsave : ∀ t < j, save t = (marked m n t).read (2 ^ (n - 1 - t))) :
    ∃ save', saveLoop fuel (2 ^ n >>> (j + 1)) save j (marked m n j) =
        some (save', n, marked m n n) ∧
      ∀ t < n, save' t = (marked m n t).read (2 ^ (n - 1 - t)) := by
  induction fuel generalizing j save with
  | zero => exact absurd hfuel (Nat.not_lt_zero _)
  | succ fuel ih =>
    rw [saveLoop]
    rcases Nat.lt_or_eq_of_le hj with hlt | rfl
    · have hcnt : 2 ^ n >>> (j + 1) = 2 ^ (n - 1 - j) := by
        rw [Nat.shiftRight_eq_div_pow, Nat.pow_div hlt (by decide)]
        congr 1
        omega
      have hpos : 0 < 2 ^ (n - 1 - j) := Nat.two_pow_pos _
      have hshift : 2 ^ (n - 1 - j) >>> 1 = 2 ^ n >>> (j + 1 + 1) := by
        rw [← hcnt, ← Nat.shiftRight_add]
      rw [hcnt, if_pos hpos, if_pos (by omega), hshift]
      refine ih hlt (by omega) fun t ht ↦ ?_
      rcases Nat.lt_or_eq_of_le (Nat.le_of_lt_succ ht) with ht | rfl
      · rw [Function.update_of_ne ht.ne]
        exact hsave t ht
      · rw [Function.update_self]
    · have hzero : 2 ^ j >>> (j + 1) = 0 := by
        rw [Nat.shiftRight_eq_div_pow]
        exact Nat.div_eq_of_lt (Nat.pow_lt_pow_right (by decide) (Nat.lt_succ_self j))
      rw [hzero, if_neg (Nat.lt_irrefl 0)]
      exact ⟨save, rfl, hsave⟩

/-- One turn of undoing. -/
theorem write_unmarked {e : ℕ} (he : e < n) :
    Ram.write ⟨m.words, unmarked m n e⟩ (2 ^ e)
      ((marked m n (n - 1 - e)).read (2 ^ e)) = ⟨m.words, unmarked m n (e + 1)⟩ := by
  rw [Ram.write, Ram.mk.injEq]
  refine ⟨rfl, funext fun k ↦ ?_⟩
  have hpred : n - (e + 1) = n - 1 - e := by omega
  have hsucc : n - e = n - 1 - e + 1 := by omega
  have hexp : n - 1 - (n - 1 - e) = e := by omega
  rw [unmarked, hpred]
  by_cases hk : k = 2 ^ e % m.words
  · rw [hk, Function.update_self, if_pos ⟨e, Nat.lt_succ_self e, rfl⟩, Ram.read, marked_words]
  · rw [Function.update_of_ne hk]
    change unmarked m n e k = _
    rw [unmarked]
    have hlast : (∃ e' < e + 1, 2 ^ e' % m.words = k) ↔ ∃ e' < e, 2 ^ e' % m.words = k := by
      constructor
      · rintro ⟨e', he', hcell⟩
        rcases Nat.lt_or_eq_of_le (Nat.le_of_lt_succ he') with hlt | rfl
        · exact ⟨e', hlt, hcell⟩
        · exact absurd hcell.symm hk
      · rintro ⟨e', he', hcell⟩
        exact ⟨e', he'.trans (Nat.lt_succ_self e), hcell⟩
    have hmarked : (marked m n (n - e)).cells k = (marked m n (n - 1 - e)).cells k := by
      rw [hsucc, marked, Ram.write, hexp, marked_words]
      exact Function.update_of_ne hk _ _
    simp only [hlast, hmarked]

theorem restoreLoop_unmarked {maxsize e fuel : ℕ} (hmax : maxsize = 2 ^ n) (he : e ≤ n)
    (hfuel : n - e < fuel)
    {save : ℕ → UInt32} (hsave : ∀ t < n, save t = (marked m n t).read (2 ^ (n - 1 - t))) :
    restoreLoop maxsize save fuel (2 ^ e) (n - e) ⟨m.words, unmarked m n e⟩ =
      some ⟨m.words, unmarked m n n⟩ := by
  subst hmax
  induction fuel generalizing e with
  | zero => exact absurd hfuel (Nat.not_lt_zero _)
  | succ fuel ih =>
    rw [restoreLoop.eq_def]
    simp only
    rcases Nat.lt_or_eq_of_le he with hlt | rfl
    · obtain ⟨i, hi⟩ : ∃ i, n - e = i + 1 := ⟨n - e - 1, by omega⟩
      have hexp : n - 1 - i = e := by omega
      have hindex : i = n - 1 - e := by omega
      have hnext : i = n - (e + 1) := by omega
      rw [if_pos (Nat.pow_lt_pow_right (by decide) hlt), hi]
      simp only
      rw [hsave i (by omega), hexp, hindex, write_unmarked hlt, ← hindex, hnext,
        Nat.shiftLeft_eq, ← Nat.pow_add]
      exact ih hlt (by omega)
    · rw [if_neg (Nat.lt_irrefl _)]

variable {r : ℕ}

/-- The cells that a power of two comes to. -/
theorem cell_eq (hr : m.words = 2 ^ r) (e : ℕ) :
    2 ^ e % m.words = if e < r then 2 ^ e else 0 := by
  rw [hr]
  split_ifs with h
  · exact Nat.mod_eq_of_lt (Nat.pow_lt_pow_right (by decide) h)
  · exact Nat.mod_eq_zero_of_dvd (Nat.pow_dvd_pow 2 (Nat.not_lt.mp h))

/-- A cell of its own has the pattern of its number behind the first loop. -/
theorem marked_own (hr : m.words = 2 ^ r) {e : ℕ} (her : e < r) {j : ℕ} (hj : j ≤ n)
    (hlate : n - 1 - e < j) (hen : e < n) :
    (marked m n j).cells (2 ^ e) = pattern (2 ^ e) := by
  induction j with
  | zero => exact absurd hlate (Nat.not_lt_zero _)
  | succ j ih =>
    rw [marked, Ram.write, marked_words, cell_eq hr]
    dsimp only
    by_cases hexp : n - 1 - j = e
    · rw [hexp, if_pos her, Function.update_self]
    · have hne : 2 ^ e ≠ if n - 1 - j < r then 2 ^ (n - 1 - j) else 0 := by
        split_ifs
        · exact fun heq ↦ hexp (Nat.pow_right_injective (le_refl 2) heq).symm
        · exact (Nat.two_pow_pos e).ne'
      rw [Function.update_of_ne hne]
      exact ih (by omega) (by omega)

theorem unmarked_own (hr : m.words = 2 ^ r) {e : ℕ} (her : e < r) (hen : e < n) :
    unmarked m n e (2 ^ e) = pattern (2 ^ e) := by
  have hnew : ¬ ∃ e' < e, 2 ^ e' % m.words = 2 ^ e := by
    rintro ⟨e', he', hcell⟩
    rw [cell_eq hr, if_pos (he'.trans her)] at hcell
    exact he'.ne (Nat.pow_right_injective (le_refl 2) hcell)
  have hne : 2 ^ e ≠ 0 % m.words := by
    rw [Nat.zero_mod]
    exact (Nat.two_pow_pos e).ne'
  rw [unmarked, if_neg hnew, Ram.write, marked_words]
  exact (Function.update_of_ne hne _ _).trans (marked_own hr her (le_refl n) (by omega) hen)

/-- The first number that has no cell of its own finds the 0 of the base. -/
theorem unmarked_alias (hr : m.words = 2 ^ r) : unmarked m n r 0 = 0 := by
  have hnew : ¬ ∃ e' < r, 2 ^ e' % m.words = 0 := by
    rintro ⟨e', he', hcell⟩
    rw [cell_eq hr, if_pos he'] at hcell
    exact (Nat.two_pow_pos e').ne' hcell
  rw [unmarked, if_neg hnew, Ram.write, marked_words, Nat.zero_mod]
  exact Function.update_self 0 0 (marked m n n).cells

theorem pattern_ne_zero {e : ℕ} (he : e < 32) : pattern (2 ^ e) ≠ 0 := by
  have hall : ∀ e < 32, pattern (2 ^ e) ≠ 0 := by decide
  exact hall e he

theorem checkLoop_unmarked (hr : m.words = 2 ^ r) (hrn : r ≤ n) (hn : n ≤ 30) {maxsize fuel e : ℕ}
    (he : e ≤ r) (hfuel : n - e < fuel) {save : ℕ → UInt32}
    (hsave : ∀ t < n, save t = (marked m n t).read (2 ^ (n - 1 - t))) :
    checkLoop (2 ^ n) maxsize save fuel (2 ^ e) (n - e) ⟨m.words, unmarked m n e⟩ =
      some (if r < n then 2 ^ r * sizeofLong else maxsize, ⟨m.words, unmarked m n n⟩) := by
  induction fuel generalizing e with
  | zero => exact absurd hfuel (Nat.not_lt_zero _)
  | succ fuel ih =>
    rw [checkLoop.eq_def]
    simp only
    rcases Nat.lt_or_eq_of_le (he.trans hrn) with hlt | rfl
    · obtain ⟨i, hi⟩ : ∃ i, n - e = i + 1 := ⟨n - e - 1, by omega⟩
      have hexp : n - 1 - i = e := by omega
      have hindex : i = n - 1 - e := by omega
      have hnext : i = n - (e + 1) := by omega
      rw [if_pos (Nat.pow_lt_pow_right (by decide) hlt), hi]
      simp only
      rw [hsave i (by omega), hexp, hindex, write_unmarked hlt, ← hindex, hnext,
        Nat.shiftLeft_eq, ← Nat.pow_add]
      rcases Nat.lt_or_eq_of_le he with her | rfl
      · have hown : Ram.read ⟨m.words, unmarked m n e⟩ (2 ^ e) = pattern (2 ^ e) := by
          rw [Ram.read]
          dsimp only
          rw [cell_eq hr, if_pos her, unmarked_own hr her hlt]
        rw [if_neg (not_not_intro hown)]
        exact ih her (by omega)
      · have halias : Ram.read ⟨m.words, unmarked m n e⟩ (2 ^ e) ≠ pattern (2 ^ e) := by
          rw [Ram.read]
          dsimp only
          rw [cell_eq hr, if_neg (Nat.lt_irrefl e), unmarked_alias hr]
          exact (pattern_ne_zero (by omega)).symm
        rw [if_pos halias, if_pos hlt, restoreLoop_unmarked rfl hlt (by omega) hsave]
        rfl
    · obtain rfl := Nat.le_antisymm he hrn
      rw [if_neg (Nat.lt_irrefl _), if_neg (Nat.lt_irrefl _)]

/-- What is left at the end: only the base, when nothing else has its cell, is not put back. -/
theorem unmarked_end (hr : m.words = 2 ^ r) (hrn : r ≤ n) (k : ℕ) :
    unmarked m n n k = if k = 0 ∧ r = n then 0 else m.cells k := by
  rw [unmarked, Nat.sub_self]
  split_ifs with htouched hbase hbase
  · obtain ⟨e', he', hcell⟩ := htouched
    rw [cell_eq hr, if_pos (hbase.2 ▸ he')] at hcell
    exact absurd (hcell.trans hbase.1) (Nat.two_pow_pos e').ne'
  · rfl
  · rw [hbase.1, Ram.write, Nat.zero_mod]
    exact Function.update_self 0 0 (marked m n n).cells
  · have hk : k ≠ 0 := by
      rintro rfl
      have hlt : r < n := Nat.lt_of_le_of_ne hrn fun heq ↦ hbase ⟨rfl, heq⟩
      exact htouched ⟨r, hlt, by rw [cell_eq hr, if_neg (Nat.lt_irrefl r)]⟩
    have hkept : ∀ j ≤ n, (marked m n j).cells k = m.cells k := by
      intro j hj
      induction j with
      | zero => rfl
      | succ j ih =>
        have hne : k ≠ 2 ^ (n - 1 - j) % m.words := fun heq ↦
          htouched ⟨n - 1 - j, by omega, heq.symm⟩
        rw [marked, Ram.write, marked_words]
        exact (Function.update_of_ne hne _ _).trans (ih (by omega))
    rw [Ram.write, Nat.zero_mod]
    exact (Function.update_of_ne hk _ _).trans (hkept n (le_refl n))

theorem getRamSize_eq (hr : m.words = 2 ^ r) (hrn : r ≤ n) (hn : n ≤ 30) (hpos : 1 ≤ n) :
    getRamSize m (2 ^ n * sizeofLong) =
      some (2 ^ r * sizeofLong, ⟨m.words, unmarked m n n⟩) := by
  have hlimit : 2 ^ n * sizeofLong / sizeofLong = 2 ^ n := Nat.mul_div_cancel _ (by decide)
  have hnone : ∀ t < 0, (0 : UInt32) = (marked m n t).read (2 ^ (n - 1 - t)) := fun t ht ↦
    absurd ht (Nat.not_lt_zero t)
  have hfuel : n - 0 < 33 := by omega
  obtain ⟨save, hsaved, hsave⟩ := saveLoop_marked (Nat.zero_le n) (by omega) hfuel hnone
  have hbase : ∀ t < n, Function.update save n ((marked m n n).read 0) t =
      (marked m n t).read (2 ^ (n - 1 - t)) := by
    intro t ht
    rw [Function.update_of_ne ht.ne]
    exact hsave t ht
  have hfresh : (marked m n n).write 0 0 = ⟨m.words, unmarked m n 0⟩ := by
    rw [Ram.write, marked_words, Ram.mk.injEq]
    refine ⟨rfl, funext fun k ↦ ?_⟩
    have hnone : ¬ ∃ e' < 0, 2 ^ e' % m.words = k := fun ⟨_, h, _⟩ ↦ Nat.not_lt_zero _ h
    rw [unmarked, if_neg hnone, Ram.write, marked_words]
  have hzero : Ram.read ⟨m.words, unmarked m n 0⟩ 0 = 0 := by
    rw [← hfresh, Ram.read_write_self]
  have hstart : saveLoop 33 (2 ^ n >>> 1) (fun _ ↦ 0) 0 m = some (save, n, marked m n n) := hsaved
  have hcheck : checkLoop (2 ^ n) (2 ^ n * sizeofLong) (Function.update save n
      ((marked m n n).read 0)) 33 (2 ^ 0) (n - 0) ⟨m.words, unmarked m n 0⟩ =
        some (if r < n then 2 ^ r * sizeofLong else 2 ^ n * sizeofLong,
          ⟨m.words, unmarked m n n⟩) :=
    checkLoop_unmarked hr hrn hn (Nat.zero_le r) hfuel hbase
  rw [getRamSize, hlimit, hstart, Option.bind_eq_bind, Option.bind_some]
  simp only
  rw [if_pos (by omega), hfresh, if_neg (not_not_intro hzero)]
  refine hcheck.trans ?_
  split_ifs with h
  · rfl
  · rw [Nat.le_antisymm hrn (Nat.not_lt.mp h)]

end Probe

/-- For powers of two the size is always right, and the memory is as it was when it is smaller than
the window or its first word is 0. -/
theorem get_ram_size_accurate_iff (m : Ram) (r k : ℕ) (hwords : m.words = 2 ^ r) (hmin : 3 ≤ k)
    (hmax : k < 32) (hfits : m.words * sizeofLong ≤ 2 ^ k) :
    Accurate m (2 ^ k) ↔ m.words * sizeofLong < 2 ^ k ∨ m.read 0 = 0 := by
  obtain ⟨n, rfl⟩ : ∃ n, k = n + 2 := ⟨k - 2, by omega⟩
  have hsize : 2 ^ (n + 2) = 2 ^ n * sizeofLong := Nat.pow_add 2 n 2
  have hlimit : 2 ^ n * sizeofLong / sizeofLong = 2 ^ n := Nat.mul_div_cancel _ (by decide)
  rw [hsize] at hfits ⊢
  have hle : 2 ^ r ≤ 2 ^ n := by
    rw [← hwords]
    exact Nat.le_of_mul_le_mul_right hfits (by decide)
  have hrn : r ≤ n := (Nat.pow_le_pow_iff_right (by decide)).mp hle
  have hsmall : m.words * sizeofLong < 2 ^ n * sizeofLong ↔ r < n := by
    rw [Nat.mul_lt_mul_right (by decide), hwords, Nat.pow_lt_pow_iff_right (by decide)]
  have hrun := getRamSize_eq hwords hrn (by omega) (by omega)
  rw [← hwords] at hrun
  rw [Accurate, hrun, hsmall, hlimit]
  constructor
  · rintro ⟨m', heq, hkept⟩
    rw [Option.some.injEq, Prod.mk.injEq] at heq
    obtain ⟨-, rfl⟩ := heq
    by_contra hne
    rw [not_or] at hne
    have hzero := hkept 0 (Nat.two_pow_pos n)
    rw [Ram.read] at hzero
    dsimp only at hzero
    rw [Nat.zero_mod, unmarked_end hwords hrn, if_pos ⟨rfl, by omega⟩] at hzero
    exact hne.2 hzero.symm
  · intro h
    refine ⟨_, rfl, fun i _ ↦ ?_⟩
    rw [Ram.read, Ram.read]
    dsimp only
    rw [unmarked_end hwords hrn]
    split_ifs with hbase
    · rcases h with hlt | hzero
      · exact absurd hbase.2 hlt.ne
      · rw [Ram.read, Nat.zero_mod] at hzero
        rw [hbase.1, hzero]
    · rfl

/-- A window of 64 bytes, with 16 bytes of memory. -/
theorem get_ram_size_accurate_four : Accurate ⟨4, fun i ↦ UInt32.ofNat (i + 7)⟩ (2 ^ 6) :=
  (get_ram_size_accurate_iff ⟨4, fun i ↦ UInt32.ofNat (i + 7)⟩ 2 6 rfl (by decide) (by decide)
    (by decide)).mpr (Or.inl (by decide))

/-- With as much memory as the window has, the first word is left 0. -/
theorem get_ram_size_clears_base : ¬ Accurate ⟨2, fun _ ↦ 7⟩ (2 ^ 3) := by
  rintro ⟨m', hrun, hkept⟩
  have hbase : (getRamSize ⟨2, fun _ ↦ 7⟩ (2 ^ 3)).map (fun r ↦ r.2.read 0) = some 0 := by decide
  rw [hrun, Option.map_some, hkept 0 (by decide)] at hbase
  exact absurd hbase (by decide)

end UBoot.Common.Memsize
